import CimSigmoid.Sigmoid.Exact
import Mathlib.Algebra.Order.Archimedean.Real.Basic
import Mathlib.Tactic.NormNum

/-!
# The Vaisnav core and its piecewise-linear function

`pwl` is the function the Vaisnav core is documented to approximate with, over the
reals. Above zero the core rounds it down to a multiple of `1 / 4096`; below zero it
is the exact reflection of the core above zero. `NoWrap` says that no addition or
subtraction on the branch taken leaves 16 bits.
-/

namespace CimSigmoid.Sigmoid

/-- The piecewise-linear sigmoid, for a nonnegative argument or the size of a negative one. -/
noncomputable def pwl (t : ℝ) : ℝ :=
  if 5 ≤ |t| then 1
  else if 2.375 ≤ |t| then |t| / 32 + 0.84375
  else if 1 ≤ |t| then |t| / 8 + 0.625
  else |t| / 4 + 0.5

noncomputable def q412 (x : BitVec 16) : ℝ := x.toInt / 4096

def AddsExactly (absX : BitVec 16) (k : Nat) (c : BitVec 16) : Prop :=
  (absX.sshiftRight k + c).toInt = (absX.sshiftRight k).toInt + c.toInt

/-- The negation of `abs`, the addition of the segment taken and the subtraction for negative
inputs keep their values. -/
def NoWrap (x : BitVec 16) : Prop :=
  x.abs.toInt = |x.toInt| ∧
  (if limit5120.sle x.abs then True
    else if limit2432.sle x.abs then AddsExactly x.abs 5 indep864
    else if limit1024.sle x.abs then AddsExactly x.abs 3 indep640
    else AddsExactly x.abs 2 indep512) ∧
  (x.getLsbD 15 = true → (one16 - yTmp x.abs).toInt = one16.toInt - (yTmp x.abs).toInt)

theorem abs_toInt {x : BitVec 16} (h : -32768 < x.toInt) : x.abs.toInt = |x.toInt| := by
  have hmin : x ≠ BitVec.intMin 16 := by
    rintro rfl
    exact absurd h (by decide)
  rw [BitVec.toInt_abs_eq_natAbs, if_neg hmin, Int.natCast_natAbs]

theorem addsExactly {absX c : BitVec 16} {k : Nat} (hlo : -2 ^ 15 ≤ absX.toInt / 2 ^ k + c.toInt)
    (hhi : absX.toInt / 2 ^ k + c.toInt < 2 ^ 15) : AddsExactly absX k c := by
  rw [AddsExactly, shift_add_toInt k hlo hhi, BitVec.toInt_sshiftRight, Int.shiftRight_eq_div_pow]
  push_cast
  rfl

theorem noWrap {x : BitVec 16} (h : -32768 < x.toInt) : NoWrap x := by
  have habs := abs_toInt h
  have hpos : 0 ≤ x.abs.toInt := habs ▸ abs_nonneg _
  refine ⟨habs, ?_, fun _ => ?_⟩
  · have hlt := x.abs.toInt_lt
    have h864 : indep864.toInt = 3456 := rfl
    have h640 : indep640.toInt = 2560 := rfl
    have h512 : indep512.toInt = 2048 := rfl
    split
    · trivial
    split
    · exact addsExactly (by omega) (by omega)
    split
    · exact addsExactly (by omega) (by omega)
    · exact addsExactly (by omega) (by omega)
  · have hy := yTmp_toInt hpos
    have hb := yTmpInt_bounds hpos
    exact one16_sub_toInt (by omega)

/-! ## Reflection -/

theorem sigmoideInt_neg (x : Int) : sigmoideInt (-x) = 4096 - sigmoideInt x := by
  unfold sigmoideInt
  rcases lt_trichotomy x 0 with hx | rfl | hx
  · rw [if_pos (by omega), if_neg (by omega)]
    omega
  · decide
  · rw [if_neg (by omega), if_pos (by omega), neg_neg]

theorem sigmoide_neg {x : BitVec 16} (h : -32768 < x.toInt) :
    (sigmoide (-x)).toInt = 4096 - (sigmoide x).toInt := by
  have hlt := x.toInt_lt
  have hneg : (-x).toInt = -x.toInt := by
    rw [BitVec.toInt_neg]
    exact Int.bmod_eq_of_le (by omega) (by omega)
  rw [sigmoide_toInt (by omega), sigmoide_toInt (by omega), hneg, sigmoideInt_neg]

/-! ## Rounding down -/

theorem le_div_iff_scaled (c u : Int) {r : ℝ} (hr : r * 4096 = c) :
    r ≤ (u : ℝ) / 4096 ↔ c ≤ u := by
  rw [le_div_iff₀ (by norm_num), hr, Int.cast_le]

theorem floor_segment (c u : Int) (n : Nat) {r : ℝ} (hr : 4096 * r = c) :
    ⌊4096 * ((u : ℝ) / 4096 / n + r)⌋ = u / n + c := by
  have hsplit : 4096 * ((u : ℝ) / 4096 / n + r) = u / n + c := by
    rw [mul_add, hr]
    ring
  rw [hsplit, Int.floor_add_intCast, Int.floor_div_natCast, Int.floor_intCast]

/-- The segments over the integers are the segments over the reals, rounded down. -/
theorem yTmpInt_eq_floor {u : Int} (hu : 0 ≤ u) : yTmpInt u = ⌊4096 * pwl (u / 4096)⌋ := by
  have hu' : (0 : ℝ) ≤ u := by exact_mod_cast hu
  have habs : |(u : ℝ) / 4096| = u / 4096 := abs_of_nonneg (by linarith)
  have h5 := le_div_iff_scaled 20480 u (r := 5) (by norm_num)
  have h2 := le_div_iff_scaled 9728 u (r := 2.375) (by norm_num)
  have h1 := le_div_iff_scaled 4096 u (r := 1) (by norm_num)
  simp only [yTmpInt, pwl, habs, h5, h2, h1]
  split_ifs
  · norm_num
  · exact (floor_segment 3456 u 32 (by norm_num)).symm
  · exact (floor_segment 2560 u 8 (by norm_num)).symm
  · exact (floor_segment 2048 u 4 (by norm_num)).symm

/-- **The Vaisnav core and its specification.** -/
theorem sigmoide_piecewise {x : BitVec 16} (h : -32768 < x.toInt) :
    NoWrap x ∧ (sigmoide (-x)).toInt = 4096 - (sigmoide x).toInt ∧
    (0 ≤ x.toInt → (sigmoide x).toInt = ⌊4096 * pwl (q412 x)⌋) := by
  refine ⟨noWrap h, sigmoide_neg h, fun hx => ?_⟩
  rw [sigmoide_toInt (by omega), sigmoideInt, if_pos hx]
  exact yTmpInt_eq_floor hx

theorem sigmoide_piecewise_boundary : NoWrap (9728#16) ∧
    (sigmoide (-9728#16)).toInt = 4096 - (sigmoide (9728#16)).toInt ∧
    (sigmoide (9728#16)).toInt = ⌊4096 * pwl (q412 (9728#16))⌋ :=
  have h := sigmoide_piecewise (x := 9728#16) (by decide)
  ⟨h.1, h.2.1, h.2.2 (by decide)⟩

end CimSigmoid.Sigmoid
