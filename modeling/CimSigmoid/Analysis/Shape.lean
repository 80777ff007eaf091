import Mathlib.Algebra.Order.Field.Basic
import Mathlib.Tactic.FieldSimp
import Mathlib.Tactic.Linarith
import Mathlib.Tactic.Positivity
import Mathlib.Tactic.Ring

/-!
# Sigmoid-shaped functions

A function on an ordered field is sigmoid-shaped if it is monotone and turns the
sign of its argument into the complement of its value. The shape survives a clamp
to the unit interval (`SigmoidShaped.clamp`), and `quotient_shaped` gives it for
`1/2 + (x + k x / (x² + c)) / b` as long as `k ≤ 8 c`, the range in which the
fraction never falls faster than the line rises.
-/

namespace CimSigmoid.Analysis

variable {K : Type} [Field K] [LinearOrder K]

structure SigmoidShaped (f : K → K) : Prop where
  mono : Monotone f
  symm : ∀ x, f (-x) = 1 - f x

variable [IsStrictOrderedRing K]

theorem SigmoidShaped.clamp {f : K → K} (h : SigmoidShaped f) :
    SigmoidShaped fun x => max 0 (min 1 (f x)) where
  mono := fun _ _ hxy => max_le_max_left 0 (min_le_min_left 1 (h.mono hxy))
  symm x := by
    show max 0 (min 1 (f (-x))) = 1 - max 0 (min 1 (f x))
    rw [h.symm]
    rcases lt_or_ge (f x) 0 with h0 | h0
    · rw [min_eq_left (by linarith), min_eq_right (by linarith), max_eq_right (by linarith),
        max_eq_left h0.le, sub_zero]
    · rcases le_or_gt (f x) 1 with h1 | h1
      · rw [min_eq_right (by linarith), min_eq_right h1, max_eq_right (by linarith),
          max_eq_right h0]
      · rw [min_eq_right (by linarith), min_eq_left h1.le, max_eq_left (by linarith),
          max_eq_right (by linarith), sub_self]

section

variable {c k : K}

/-- What the slope of `x + k x / (x² + c)` between two points has the sign of. -/
theorem slope_nonneg (hc : 0 < c) (hk0 : 0 ≤ k) (hk : k ≤ 8 * c) (x y : K) :
    0 ≤ (x ^ 2 + c) * (y ^ 2 + c) + k * (c - x * y) := by
  -- with `t = x y` and `x² + y² ≥ 2 t`, a quadratic in `t` with discriminant `k (k - 8 c)`
  have ht : 0 ≤ (2 * (x * y) + (2 * c - k)) ^ 2 := sq_nonneg _
  have hd : 0 ≤ k * (8 * c - k) := mul_nonneg hk0 (by linarith)
  have hs : 0 ≤ c * (x - y) ^ 2 := by positivity
  nlinarith

theorem line_add_fraction_mono (hc : 0 < c) (hk0 : 0 ≤ k) (hk : k ≤ 8 * c) :
    Monotone fun x : K => x + k * x / (x ^ 2 + c) := by
  intro x y hxy
  have hx : 0 < x ^ 2 + c := by positivity
  have hy : 0 < y ^ 2 + c := by positivity
  have hdiff : y + k * y / (y ^ 2 + c) - (x + k * x / (x ^ 2 + c)) =
      (y - x) * ((x ^ 2 + c) * (y ^ 2 + c) + k * (c - x * y)) / ((x ^ 2 + c) * (y ^ 2 + c)) := by
    field_simp
    ring
  have hn := mul_nonneg (sub_nonneg.2 hxy) (slope_nonneg hc hk0 hk x y)
  exact sub_nonneg.1 (hdiff ▸ div_nonneg hn (mul_pos hx hy).le)

theorem quotient_shaped {b : K} (hb : 0 < b) (hc : 0 < c) (hk0 : 0 ≤ k) (hk : k ≤ 8 * c) :
    SigmoidShaped fun x : K => 1 / 2 + (x + k * x / (x ^ 2 + c)) / b where
  mono := fun _ _ hxy => by
    have h := line_add_fraction_mono hc hk0 hk hxy
    exact add_le_add_right (div_le_div_of_nonneg_right h hb.le) _
  symm x := by ring

end

end CimSigmoid.Analysis
