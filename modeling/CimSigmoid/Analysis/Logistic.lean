import Mathlib.Analysis.SpecialFunctions.Sigmoid
import Mathlib.Analysis.Convex.Deriv
import Mathlib.Analysis.Complex.ExponentialBounds
import Mathlib.Tactic.Linarith

/-!
# Bounds for the logistic function

The logistic function is concave above zero, so that on an interval it lies above any
line it lies above at both ends (`line_le_sigmoid`), and below its tangents.
`le_sigmoid_div` and `sigmoid_div_le` bound it at a rational point through a power of
`e`, and `sigmoid_le_line` makes such bounds into a line that lies above it.
-/

namespace CimSigmoid.Logistic

open Real Set

theorem half_le_sigmoid {t : ℝ} (ht : 0 ≤ t) : 1 / 2 ≤ sigmoid t := by
  have h := sigmoid_monotone ht
  rw [sigmoid_zero] at h
  linarith

theorem concaveOn_sigmoid : ConcaveOn ℝ (Ici 0) sigmoid := by
  refine AntitoneOn.concaveOn_of_deriv (convex_Ici 0) continuous_sigmoid.continuousOn
    differentiable_sigmoid.differentiableOn ?_
  intro a ha b _ hab
  rw [interior_Ici] at ha
  have hhalf := half_le_sigmoid (le_of_lt ha)
  have hle := sigmoid_monotone hab
  simp only [deriv_sigmoid]
  nlinarith

/-! ## Chords and tangents -/

/-- A concave function lies above a line that it lies above at the ends of an interval. -/
theorem line_le_of_concaveOn {s : Set ℝ} {f : ℝ → ℝ} (hf : ConcaveOn ℝ s f) {a b t : ℝ} (m q : ℝ)
    (ha : a ∈ s) (hb : b ∈ s) (hat : a ≤ t) (htb : t ≤ b) (hfa : m * a + q ≤ f a)
    (hfb : m * b + q ≤ f b) : m * t + q ≤ f t := by
  have hline : ConvexOn ℝ s fun x => m * x + q := by
    refine ⟨hf.1, fun x _ y _ u v _ _ huv => le_of_eq ?_⟩
    obtain rfl : v = 1 - u := by linarith
    simp only [smul_eq_mul]
    ring
  have hmin := (hf.sub hline).min_le_of_mem_Icc ha hb ⟨hat, htb⟩
  have hends : 0 ≤ min (f a - (m * a + q)) (f b - (m * b + q)) :=
    le_min (by linarith) (by linarith)
  have hgap : 0 ≤ f t - (m * t + q) := hends.trans hmin
  linarith

theorem line_le_sigmoid {a b t : ℝ} (m q : ℝ) (ha : 0 ≤ a) (hat : a ≤ t) (htb : t ≤ b)
    (hfa : m * a + q ≤ sigmoid a) (hfb : m * b + q ≤ sigmoid b) : m * t + q ≤ sigmoid t :=
  line_le_of_concaveOn concaveOn_sigmoid m q ha (ha.trans (hat.trans htb)) hat htb hfa hfb

theorem sigmoid_le_tangent {c t : ℝ} (hc : 0 ≤ c) (ht : 0 ≤ t) :
    sigmoid t ≤ sigmoid c + sigmoid c * (1 - sigmoid c) * (t - c) := by
  have hderiv := hasDerivAt_sigmoid c
  rcases lt_trichotomy t c with hlt | rfl | hgt
  · have hslope := concaveOn_sigmoid.le_slope_of_hasDerivAt ht hc hlt hderiv
    rw [slope_def_field, le_div_iff₀ (by linarith)] at hslope
    linarith
  · simp
  · have hslope := concaveOn_sigmoid.slope_le_of_hasDerivAt hc ht hgt hderiv
    rw [slope_def_field, div_le_iff₀ (by linarith)] at hslope
    linarith

/-! ## Values -/

theorem sigmoid_eq_exp_div (t : ℝ) : sigmoid t = exp t / (exp t + 1) := by
  rw [sigmoid_def, exp_neg]
  have := exp_pos t
  field_simp

/-- A power of `e` with a rational exponent is a root of a power. -/
theorem exp_div_pow (p : Nat) {q : Nat} (hq : q ≠ 0) : exp (p / q : ℝ) ^ q = exp 1 ^ p := by
  rw [← exp_nat_mul, ← exp_nat_mul]
  congr 1
  field_simp

theorem le_exp_div {p q : Nat} (hq : q ≠ 0) {E : ℝ} (h : E ^ q ≤ 2.7182818283 ^ p) :
    E ≤ exp (p / q) := by
  refine le_of_pow_le_pow_left₀ hq (exp_pos _).le ?_
  rw [exp_div_pow p hq]
  exact h.trans (pow_le_pow_left₀ (by norm_num) exp_one_gt_d9.le p)

theorem exp_div_le {p q : Nat} (hq : q ≠ 0) {E : ℝ} (hE : 0 ≤ E)
    (h : 2.7182818286 ^ p ≤ E ^ q) : exp (p / q) ≤ E := by
  refine le_of_pow_le_pow_left₀ hq hE ?_
  rw [exp_div_pow p hq]
  exact (pow_le_pow_left₀ (exp_pos 1).le exp_one_lt_d9.le p).trans h

theorem le_sigmoid_div {p q : Nat} (hq : q ≠ 0) {E : ℝ} (hE : 0 ≤ E)
    (h : E ^ q ≤ 2.7182818283 ^ p) : E / (E + 1) ≤ sigmoid (p / q) := by
  have hexp := le_exp_div hq h
  rw [sigmoid_eq_exp_div, div_le_div_iff₀ (by linarith) (by linarith)]
  linarith

theorem sigmoid_div_le {p q : Nat} (hq : q ≠ 0) {E : ℝ} (hE : 0 ≤ E)
    (h : 2.7182818286 ^ p ≤ E ^ q) : sigmoid (p / q) ≤ E / (E + 1) := by
  have hexp := exp_div_le hq hE h
  have hpos := exp_pos (p / q : ℝ)
  rw [sigmoid_eq_exp_div, div_le_div_iff₀ (by linarith) (by linarith)]
  linarith

/-! ## Lines from above -/

/-- A line above the logistic function, from bounds on the value and the slope at `c`. -/
theorem sigmoid_le_line {c t l u m η : ℝ} (hc : 0 ≤ c) (ht : 0 ≤ t) (hhalf : 1 / 2 ≤ l)
    (hl : l ≤ sigmoid c) (hu : sigmoid c ≤ u) (hlo : m - η ≤ u * (1 - u))
    (hhi : l * (1 - l) ≤ m + η) : sigmoid t ≤ u + m * (t - c) + η * |t - c| := by
  have hslope : |sigmoid c * (1 - sigmoid c) - m| ≤ η := by
    rw [abs_le]
    constructor <;> nlinarith
  have hturn : (sigmoid c * (1 - sigmoid c) - m) * (t - c) ≤ η * |t - c| :=
    calc (sigmoid c * (1 - sigmoid c) - m) * (t - c)
        ≤ |sigmoid c * (1 - sigmoid c) - m| * |t - c| := by
          rw [← abs_mul]
          exact le_abs_self _
      _ ≤ η * |t - c| := mul_le_mul_of_nonneg_right hslope (abs_nonneg _)
  have htangent := sigmoid_le_tangent hc ht
  linarith

end CimSigmoid.Logistic
