import CimSigmoid.Sigmoid.Exact
import Mathlib.Data.Rat.Floor
import Mathlib.Tactic.Ring

/-!
# Rounding in the Azevedo core

`polynomial` is the exact rational value of the piece the core selects, in units of
`1 / 4096`. `NoLoss` says that every product, sum and slice on the selected branch
keeps its value in the width the core gives it, so that the core differs from
`polynomial` only by the fractions its slices drop: one fraction in a linear piece,
and in a quadratic piece a second one, of the inner factor, scaled by `x`.
-/

namespace CimSigmoid.Sigmoid

/-! ## No bit is lost -/

/-- A multiply-add `a * b + k0 * ONE` and its slice `[27:12]` keep their values: nothing wraps in
32 bits, and the slice leaves out only the fraction and copies of the sign. -/
structure Lossless (a b k0 : BitVec 32) : Prop where
  product : (a * b).toInt = a.toInt * b.toInt
  offset : (k0 * one).toInt = k0.toInt * 4096
  sum : (a * b + k0 * one).toInt = a.toInt * b.toInt + k0.toInt * 4096
  slice : ((a * b + k0 * one).extractLsb 27 12).toInt =
    (a.toInt * b.toInt + k0.toInt * 4096) / 4096

def LinearLossless (k1 k0 : BitVec 32) (x : BitVec 16) : Prop :=
  Lossless k1 (x.signExtend 32) k0

/-- `tmp_3` and `tmp_4` of a quadratic piece, with the 16-bit `tmp_3` widened in between. -/
def QuadraticLossless (k2 k1 k0 : BitVec 32) (x : BitVec 16) : Prop :=
  LinearLossless k2 k1 x ∧
  ((linear k2 k1 x).signExtend 32).toInt = (linear k2 k1 x).toInt ∧
  Lossless (x.signExtend 32) ((linear k2 k1 x).signExtend 32) k0

def NoLoss (x : BitVec 16) : Prop :=
  (x.signExtend 32).toInt = x.toInt ∧
  if (x.signExtend 32).sle xInf then (zero.setWidth 16).toInt = zero.toInt
  else if (x.signExtend 32).sle xMin then LinearLossless p2k1 p2k0 x
  else if (x.signExtend 32).sle xMed then QuadraticLossless p3k2 p3k1 p3k0 x
  else if (x.signExtend 32).sle xMax then QuadraticLossless p4k2 p4k1 p4k0 x
  else if (x.signExtend 32).sle xSup then LinearLossless p5k1 p5k0 x
  else (one.setWidth 16).toInt = one.toInt

theorem signExtend_toInt (x : BitVec 16) : (x.signExtend 32).toInt = x.toInt :=
  BitVec.toInt_signExtend_of_le (by decide)

theorem Lossless.of_bounds {a b k0 : BitVec 32}
    (hp : -2 ^ 26 ≤ a.toInt * b.toInt ∧ a.toInt * b.toInt < 2 ^ 26)
    (hk : -2 ^ 12 ≤ k0.toInt ∧ k0.toInt < 2 ^ 12) : Lossless a b k0 := by
  have hone : one.toInt = 4096 := rfl
  have hproduct : (a * b).toInt = a.toInt * b.toInt := by
    rw [BitVec.toInt_mul]
    exact Int.bmod_eq_of_le (by omega) (by omega)
  have hoffset : (k0 * one).toInt = k0.toInt * 4096 := by
    rw [BitVec.toInt_mul, hone]
    exact Int.bmod_eq_of_le (by omega) (by omega)
  have hsum : (a * b + k0 * one).toInt = a.toInt * b.toInt + k0.toInt * 4096 := by
    rw [BitVec.toInt_add, hproduct, hoffset]
    exact Int.bmod_eq_of_le (by omega) (by omega)
  refine ⟨hproduct, hoffset, hsum, ?_⟩
  have hslice := slice_toInt (t := (a * b + k0 * one).toInt) (by omega) (by omega)
  rw [BitVec.ofInt_toInt] at hslice
  rw [hslice, hsum]

theorem factor_bounds (x : BitVec 16) {k : Int} (hk : -2 ^ 11 < k ∧ k < 2 ^ 11) :
    -2 ^ 26 ≤ k * x.toInt ∧ k * x.toInt < 2 ^ 26 := by
  obtain ⟨hk, hk'⟩ := hk
  have hlo : -32768 ≤ x.toInt := x.le_toInt
  have hhi : x.toInt < 32768 := x.toInt_lt
  constructor <;> nlinarith

theorem linearLossless {k1 k0 : BitVec 32} (x : BitVec 16)
    (h1 : -2 ^ 11 < k1.toInt ∧ k1.toInt < 2 ^ 11) (h0 : -2 ^ 12 ≤ k0.toInt ∧ k0.toInt < 2 ^ 12) :
    LinearLossless k1 k0 x := by
  refine Lossless.of_bounds ?_ h0
  rw [signExtend_toInt]
  exact factor_bounds x h1

theorem quadraticLossless {k2 k1 k0 : BitVec 32} {x : BitVec 16}
    (h2 : -2 ^ 11 < k2.toInt ∧ k2.toInt < 2 ^ 11) (h1 : -2 ^ 11 < k1.toInt ∧ k1.toInt < 2 ^ 11)
    (h0 : -2 ^ 12 ≤ k0.toInt ∧ k0.toInt < 2 ^ 12)
    (ht : -2 ^ 11 < (linear k2 k1 x).toInt ∧ (linear k2 k1 x).toInt < 2 ^ 11) :
    QuadraticLossless k2 k1 k0 x := by
  refine ⟨linearLossless x h2 (by omega), signExtend_toInt _, Lossless.of_bounds ?_ h0⟩
  rw [signExtend_toInt, signExtend_toInt, mul_comm]
  exact factor_bounds x ht

theorem tmp3_bounds (k2 k1 : Int) {x : BitVec 16} (hlo : 579 ≤ linearInt k2 k1 x.toInt)
    (hhi : linearInt k2 k1 x.toInt ≤ 1116) :
    -2 ^ 11 < (linear (BitVec.ofInt 32 k2) (BitVec.ofInt 32 k1) x).toInt ∧
    (linear (BitVec.ofInt 32 k2) (BitVec.ofInt 32 k1) x).toInt < 2 ^ 11 := by
  unfold linearInt at hlo hhi
  rw [linear_toInt k2 k1 (by omega) (by omega), linearInt]
  omega

theorem noLoss (x : BitVec 16) : NoLoss x := by
  refine ⟨signExtend_toInt x, ?_⟩
  simp only [sle_xInf, sle_xMin, sle_xMed, sle_xMax, sle_xSup, decide_eq_true_eq]
  split
  · rfl
  split
  · exact linearLossless x (by decide) (by decide)
  split
  · obtain ⟨ht, ht'⟩ := factor_low (x := x.toInt) (by omega) ‹_›
    exact quadraticLossless (by decide) (by decide) (by decide) (tmp3_bounds 165 1116 ht ht')
  split
  · obtain ⟨ht, ht'⟩ := factor_high (x := x.toInt) (by omega) ‹_›
    exact quadraticLossless (by decide) (by decide) (by decide) (tmp3_bounds (-165) 1116 ht ht')
  split
  · exact linearLossless x (by decide) (by decide)
  · rfl

/-! ## The dropped fractions -/

def linearRat (k1 k0 x : Int) : ℚ := k1 * x / 4096 + k0

def quadraticRat (k2 k1 k0 x : Int) : ℚ := k2 * x ^ 2 / 4096 ^ 2 + k1 * x / 4096 + k0

/-- The polynomial of the region of `x`, in units of `1 / 4096`. -/
def polynomial (x : Int) : ℚ :=
  if x ≤ -22282 then 0
  else if x ≤ -13312 then linearRat 58 314 x
  else if x ≤ 0 then quadraticRat 165 1116 2057 x
  else if x ≤ 13312 then quadraticRat (-165) 1116 2039 x
  else if x ≤ 22282 then linearRat 58 3782 x
  else 4096

theorem slice_eq (t : Int) : ∃ ε : ℚ, 0 ≤ ε ∧ ε < 1 ∧ ((t / 4096 : Int) : ℚ) = t / 4096 - ε := by
  refine ⟨Int.fract (t / 4096 : ℚ), Int.fract_nonneg _, Int.fract_lt_one _, ?_⟩
  have hfloor : ⌊(t / 4096 : ℚ)⌋ = t / 4096 := Rat.floor_intCast_div_natCast t 4096
  rw [Int.self_sub_fract, hfloor]

theorem linearInt_eq (k1 k0 x : Int) : ∃ ε : ℚ, 0 ≤ ε ∧ ε < 1 ∧
    (linearInt k1 k0 x : ℚ) = linearRat k1 k0 x - ε := by
  obtain ⟨ε, hε, hε', h⟩ := slice_eq (k1 * x + k0 * 4096)
  refine ⟨ε, hε, hε', ?_⟩
  rw [linearInt, h, linearRat]
  push_cast
  ring

/-- A quadratic piece drops two fractions, the inner one scaled by `x`. -/
theorem quadraticInt_eq (k2 k1 k0 x : Int) : ∃ δ ε : ℚ, 0 ≤ δ ∧ δ < 1 ∧ 0 ≤ ε ∧ ε < 1 ∧
    (quadraticInt k2 k1 k0 x : ℚ) = quadraticRat k2 k1 k0 x - x * δ / 4096 - ε := by
  obtain ⟨δ, hδ, hδ', ht⟩ := linearInt_eq k2 k1 x
  obtain ⟨ε, hε, hε', h⟩ := slice_eq (x * linearInt k2 k1 x + k0 * 4096)
  refine ⟨δ, ε, hδ, hδ', hε, hε', ?_⟩
  rw [quadraticInt, h]
  push_cast
  rw [ht, linearRat, quadraticRat]
  ring

theorem linear_error (k1 k0 x : Int) :
    -1 < (linearInt k1 k0 x : ℚ) - linearRat k1 k0 x ∧
    (linearInt k1 k0 x : ℚ) - linearRat k1 k0 x ≤ 0 := by
  obtain ⟨ε, hε, hε', h⟩ := linearInt_eq k1 k0 x
  constructor <;> linarith

/-- Below zero the inner fraction raises the result, by less than `13312 / 4096 = 3.25`. -/
theorem quadratic_error_low (k2 k1 k0 : Int) {x : Int} (hx : -13312 < x) (hx' : x ≤ 0) :
    -1 < (quadraticInt k2 k1 k0 x : ℚ) - quadraticRat k2 k1 k0 x ∧
    (quadraticInt k2 k1 k0 x : ℚ) - quadraticRat k2 k1 k0 x < 13 / 4 := by
  obtain ⟨δ, ε, hδ, hδ', hε, hε', h⟩ := quadraticInt_eq k2 k1 k0 x
  have hlo : (-13312 : ℚ) < x := by exact_mod_cast hx
  have hhi : (x : ℚ) ≤ 0 := by exact_mod_cast hx'
  have hup : x * δ ≤ 0 := mul_nonpos_of_nonpos_of_nonneg hhi hδ
  have hdown : -13312 < x * δ := by nlinarith
  constructor <;> linarith

/-- Above zero it lowers the result. -/
theorem quadratic_error_high (k2 k1 k0 : Int) {x : Int} (hx : 0 < x) (hx' : x ≤ 13312) :
    -(17 / 4) < (quadraticInt k2 k1 k0 x : ℚ) - quadraticRat k2 k1 k0 x ∧
    (quadraticInt k2 k1 k0 x : ℚ) - quadraticRat k2 k1 k0 x ≤ 0 := by
  obtain ⟨δ, ε, hδ, hδ', hε, hε', h⟩ := quadraticInt_eq k2 k1 k0 x
  have hlo : (0 : ℚ) < x := by exact_mod_cast hx
  have hhi : (x : ℚ) ≤ 13312 := by exact_mod_cast hx'
  have hdown : 0 ≤ x * δ := mul_nonneg hlo.le hδ
  have hup : x * δ < 13312 := by nlinarith
  constructor <;> linarith

/-- The distance of the core's output from the polynomial. -/
def roundingError (x : BitVec 16) : ℚ := (sigmoid x).toInt - polynomial x.toInt

def ErrorBounded (x : BitVec 16) : Prop :=
  if x.toInt ≤ -22282 then roundingError x = 0
  else if x.toInt ≤ -13312 then -1 < roundingError x ∧ roundingError x ≤ 0
  else if x.toInt ≤ 0 then -1 < roundingError x ∧ roundingError x < 13 / 4
  else if x.toInt ≤ 13312 then -(17 / 4) < roundingError x ∧ roundingError x ≤ 0
  else if x.toInt ≤ 22282 then -1 < roundingError x ∧ roundingError x ≤ 0
  else roundingError x = 0

theorem errorBounded (x : BitVec 16) : ErrorBounded x := by
  unfold ErrorBounded roundingError polynomial
  rw [sigmoid_toInt, sigmoidInt]
  split_ifs with hinf hmin hmed hmax hsup
  · norm_num
  · exact linear_error 58 314 _
  · exact quadratic_error_low 165 1116 2057 (by omega) hmed
  · exact quadratic_error_high (-165) 1116 2039 (by omega) hmax
  · exact linear_error 58 3782 _
  · norm_num

theorem roundingError_bounds (x : BitVec 16) :
    -(17 / 4) < roundingError x ∧ roundingError x < 13 / 4 := by
  have h := errorBounded x
  unfold ErrorBounded at h
  split_ifs at h <;> constructor <;> linarith

/-- **Rounding of the Azevedo core.** No width loses a bit, and the output is within 4.25 units of
the polynomial, on the side the region's fractions push it to. -/
theorem sigmoid_rounding (x : BitVec 16) :
    NoLoss x ∧ ErrorBounded x ∧ |roundingError x| < 17 / 4 := by
  obtain ⟨hlo, hhi⟩ := roundingError_bounds x
  refine ⟨noLoss x, errorBounded x, abs_lt.mpr ⟨hlo, ?_⟩⟩
  linarith

end CimSigmoid.Sigmoid
