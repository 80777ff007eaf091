import CimSigmoid.Analysis.Shape
import CimSigmoid.Proteus.F6Sigmoid

/-!
# The two f6 formulas

`f6_sigmoid_scalar` of `f6_sigmoid.c` and `f6_nearest` of `f6_daftpum_wrapper.c` clamp
a cubic over a quadratic; the second has coefficients that are powers of two. Both are
read in exact arithmetic. Written as one half plus an odd function, each is a case of
`quotient_shaped`, with `k = 50`, `c = 10` and with `k = 24`, `c = 8`.
-/

namespace CimSigmoid.Proteus

open Analysis

/-- `f6_nearest`, in exact arithmetic. -/
def f6Nearest (x : ℚ) : ℚ :=
  let num := 128 + 64 * x + 16 * x * x + 2 * x * x * x
  let den := 256 + 32 * x * x
  let v := num / den
  let v := if v < 0 then 0 else v
  if v > 1 then 1 else v

/-! ## Denominators -/

theorem f6SigmoidScalar_den_pos (x : ℚ) : 0 < 240 + 24 * (x * x) := by
  have := mul_self_nonneg x
  linarith

theorem f6Nearest_den_pos (x : ℚ) : 0 < 256 + 32 * x * x := by
  have := mul_self_nonneg x
  linarith

/-! ## The clamps -/

theorem else_if_clamp (v : ℚ) :
    (if v < 0 then 0 else if v > 1 then 1 else v) = max 0 (min 1 v) := by
  split
  · rename_i h
    rw [min_eq_right (by linarith), max_eq_left h.le]
  · split
    · rename_i h
      rw [min_eq_left h.le, max_eq_right zero_le_one]
    · rename_i h0 h1
      rw [min_eq_right (not_lt.1 h1), max_eq_right (not_lt.1 h0)]

theorem if_if_clamp (v : ℚ) :
    (if (if v < 0 then 0 else v) > 1 then 1 else if v < 0 then 0 else v) = max 0 (min 1 v) := by
  rw [← else_if_clamp]
  by_cases h : v < 0
  · simp [h]
  · simp [h]

/-! ## One half plus an odd function -/

theorem f6SigmoidScalar_eq (x : ℚ) :
    f6SigmoidScalar x = max 0 (min 1 (1 / 2 + (x + 50 * x / (x ^ 2 + 10)) / 24)) := by
  have hd : x ^ 2 + 10 ≠ 0 := by positivity
  have hq : (120 + 60 * x + 12 * (x * x) + x * x * x) / (240 + 24 * (x * x)) =
      1 / 2 + (x + 50 * x / (x ^ 2 + 10)) / 24 := by
    rw [div_eq_iff (f6SigmoidScalar_den_pos x).ne']
    field_simp
    ring
  rw [← hq]
  exact else_if_clamp _

theorem f6Nearest_eq (x : ℚ) :
    f6Nearest x = max 0 (min 1 (1 / 2 + (x + 24 * x / (x ^ 2 + 8)) / 16)) := by
  have hd : x ^ 2 + 8 ≠ 0 := by positivity
  have hq : (128 + 64 * x + 16 * x * x + 2 * x * x * x) / (256 + 32 * x * x) =
      1 / 2 + (x + 24 * x / (x ^ 2 + 8)) / 16 := by
    rw [div_eq_iff (f6Nearest_den_pos x).ne']
    field_simp
    ring
  rw [← hq]
  exact if_if_clamp _

theorem f6SigmoidScalar_shaped : SigmoidShaped f6SigmoidScalar := by
  rw [funext f6SigmoidScalar_eq]
  exact (quotient_shaped (by norm_num) (by norm_num) (by norm_num) (by norm_num)).clamp

theorem f6Nearest_shaped : SigmoidShaped f6Nearest := by
  rw [funext f6Nearest_eq]
  exact (quotient_shaped (by norm_num) (by norm_num) (by norm_num) (by norm_num)).clamp

/-- **Both formulas are sigmoid-shaped**, and neither divides by zero. -/
theorem f6_formulas_shaped :
    ((∀ x y, x ≤ y → f6SigmoidScalar x ≤ f6SigmoidScalar y) ∧
      (∀ x, f6SigmoidScalar (-x) = 1 - f6SigmoidScalar x) ∧
      ∀ x : ℚ, 240 + 24 * (x * x) ≠ 0) ∧
    (∀ x y, x ≤ y → f6Nearest x ≤ f6Nearest y) ∧
      (∀ x, f6Nearest (-x) = 1 - f6Nearest x) ∧
      ∀ x : ℚ, 256 + 32 * x * x ≠ 0 :=
  ⟨⟨fun _ _ h => f6SigmoidScalar_shaped.mono h, f6SigmoidScalar_shaped.symm,
      fun x => (f6SigmoidScalar_den_pos x).ne'⟩,
    fun _ _ h => f6Nearest_shaped.mono h, f6Nearest_shaped.symm,
      fun x => (f6Nearest_den_pos x).ne'⟩

end CimSigmoid.Proteus
