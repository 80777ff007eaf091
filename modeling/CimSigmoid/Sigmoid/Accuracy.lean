import CimSigmoid.Analysis.Logistic
import CimSigmoid.Sigmoid.Piecewise

/-!
# Accuracy of the Vaisnav core

The core stays within 0.019 of the logistic function. Above zero each segment of `pwl`
is compared with the function as a line with a concave curve: it is not too high because
it is not at the two ends of the segment, and not too low because a tangent is not. Below
zero both the core and the function are reflections.
-/

namespace CimSigmoid.Sigmoid

open CimSigmoid.Logistic

/-! ## The logistic function at the breakpoints -/

theorem sigmoid_one_ge : 0.731 ≤ Real.sigmoid 1 := by
  have h := le_sigmoid_div (p := 1) (q := 1) (E := 2.718) (by decide) (by norm_num) (by norm_num)
  norm_num at h ⊢
  linarith

theorem sigmoid_limit2432_ge : 0.9141 ≤ Real.sigmoid 2.375 := by
  have h := le_sigmoid_div (p := 19) (q := 8) (E := 10.7) (by decide) (by norm_num) (by norm_num)
  norm_num at h ⊢
  linarith

theorem sigmoid_limit5120_ge : 0.993 ≤ Real.sigmoid 5 := by
  have h := le_sigmoid_div (p := 5) (q := 1) (E := 148) (by decide) (by norm_num) (by norm_num)
  norm_num at h ⊢
  linarith

/-! ## The segments -/

section

variable {t : ℝ}

theorem segment_quarter (h0 : 0 ≤ t) (h1 : t ≤ 1) :
    Real.sigmoid t ≤ t / 4 + 0.5 ∧ t / 4 + 0.5 ≤ Real.sigmoid t + 0.019 := by
  constructor
  · have h := sigmoid_le_tangent le_rfl h0
    rw [Real.sigmoid_zero] at h
    linarith
  · have hend := sigmoid_one_ge
    have hstart := half_le_sigmoid le_rfl
    have h := line_le_sigmoid (1 / 4) (0.5 - 0.019) le_rfl h0 h1 (by linarith) (by linarith)
    linarith

/-- The tangent at 1.75 is almost parallel to the segment. -/
theorem segment_eighth (h1 : 1 ≤ t) (h2 : t ≤ 2.375) :
    Real.sigmoid t ≤ t / 8 + 0.625 + 0.011 ∧ t / 8 + 0.625 ≤ Real.sigmoid t + 0.019 := by
  constructor
  · have hlo := le_sigmoid_div (p := 7) (q := 4) (E := 5.7) (by decide) (by norm_num) (by norm_num)
    have hhi := sigmoid_div_le (p := 7) (q := 4) (E := 5.8) (by decide) (by norm_num) (by norm_num)
    have h := sigmoid_le_line (m := 1 / 8) (η := 0.002) (by norm_num) (by linarith : 0 ≤ t)
      (by norm_num) hlo hhi (by norm_num) (by norm_num)
    have hturn : |t - (7 : Nat) / (4 : Nat)| ≤ 0.75 := by
      rw [abs_le]
      push_cast
      constructor <;> linarith
    push_cast at h hturn
    linarith
  · have hstart := sigmoid_one_ge
    have hend := sigmoid_limit2432_ge
    have h := line_le_sigmoid (1 / 8) (0.625 - 0.019) zero_le_one h1 h2 (by linarith) (by linarith)
    linarith

/-- The tangent at 3.4 is almost parallel to the segment. -/
theorem segment_thirtysecond (h2 : 2.375 ≤ t) (h5 : t ≤ 5) :
    Real.sigmoid t ≤ t / 32 + 0.84375 + 0.0187 ∧ t / 32 + 0.84375 ≤ Real.sigmoid t + 0.019 := by
  constructor
  · have hlo := le_sigmoid_div (p := 17) (q := 5) (E := 29.8) (by decide) (by norm_num)
      (by norm_num)
    have hhi := sigmoid_div_le (p := 17) (q := 5) (E := 30.2) (by decide) (by norm_num)
      (by norm_num)
    have h := sigmoid_le_line (m := 1 / 32) (η := 0.0003) (by norm_num) (by linarith : 0 ≤ t)
      (by norm_num) hlo hhi (by norm_num) (by norm_num)
    have hturn : |t - (17 : Nat) / (5 : Nat)| ≤ 1.6 := by
      rw [abs_le]
      push_cast
      constructor <;> linarith
    push_cast at h hturn
    linarith
  · have hstart := sigmoid_limit2432_ge
    have hend := sigmoid_limit5120_ge
    have h := line_le_sigmoid (1 / 32) (0.84375 - 0.019) (by norm_num) h2 h5 (by linarith)
      (by linarith)
    linarith

/-- The piecewise-linear function leaves room for rounding down. -/
theorem pwl_error (ht : 0 ≤ t) :
    Real.sigmoid t + 1 / 4096 ≤ pwl t + 0.019 ∧ pwl t ≤ Real.sigmoid t + 0.019 := by
  rw [pwl, abs_of_nonneg ht]
  split_ifs with h5 h2 h1
  · have hend := sigmoid_limit5120_ge.trans (Real.sigmoid_le h5)
    have hone := Real.sigmoid_le_one t
    constructor <;> linarith
  · obtain ⟨hup, hdown⟩ := segment_thirtysecond h2 (not_le.mp h5).le
    constructor <;> linarith
  · obtain ⟨hup, hdown⟩ := segment_eighth h1 (not_le.mp h2).le
    constructor <;> linarith
  · obtain ⟨hup, hdown⟩ := segment_quarter ht (not_le.mp h1).le
    constructor <;> linarith

end

/-! ## The core -/

theorem yTmpInt_error {u : Int} (hu : 0 ≤ u) :
    |(yTmpInt u : ℝ) / 4096 - Real.sigmoid (u / 4096)| ≤ 0.019 := by
  have hu' : (0 : ℝ) ≤ u := by exact_mod_cast hu
  obtain ⟨hup, hdown⟩ := pwl_error (t := u / 4096) (by linarith)
  have hlt := Int.lt_floor_add_one (4096 * pwl (u / 4096))
  have hle := Int.floor_le (4096 * pwl (u / 4096))
  rw [← yTmpInt_eq_floor hu] at hlt hle
  rw [abs_le]
  constructor <;> linarith

theorem sigmoideInt_error (x : Int) :
    |(sigmoideInt x : ℝ) / 4096 - Real.sigmoid (x / 4096)| ≤ 0.019 := by
  unfold sigmoideInt
  split_ifs with hx
  · exact yTmpInt_error hx
  · have h := yTmpInt_error (u := -x) (by omega)
    push_cast at h ⊢
    rw [neg_div, Real.sigmoid_neg] at h
    rw [← abs_neg]
    convert h using 2
    ring

/-- **Accuracy of the Vaisnav core.** -/
theorem sigmoide_accuracy {x : BitVec 16} (h : -32768 < x.toInt) :
    |q412 (sigmoide x) - 1 / (1 + Real.exp (-q412 x))| ≤ 0.019 := by
  rw [one_div, ← Real.sigmoid_def]
  unfold q412
  rw [sigmoide_toInt (by omega)]
  exact sigmoideInt_error x.toInt

theorem sigmoide_accuracy_one :
    |q412 (sigmoide (4096#16)) - 1 / (1 + Real.exp (-q412 (4096#16)))| ≤ 0.019 :=
  sigmoide_accuracy (by decide)

end CimSigmoid.Sigmoid
