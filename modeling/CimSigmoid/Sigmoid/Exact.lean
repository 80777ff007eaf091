import CimSigmoid.Sigmoid.Core
import Mathlib.Tactic.Linarith

/-!
# The cores over the integers

`sigmoidInt` and `sigmoideInt` are the two cores on unbounded integers, with the
slice `[27:12]` and the shifts as floor divisions. `sigmoid_toInt` and
`sigmoide_toInt` say that the fixed-width cores compute them: no piece leaves the
range of its words, except that `sigmoide` negates the most negative number.
-/

namespace CimSigmoid.Sigmoid

/-! ## Azevedo -/

/-- A linear piece, in units of `1 / 4096`. -/
def linearInt (k1 k0 x : Int) : Int := (k1 * x + k0 * 4096) / 4096

def quadraticInt (k2 k1 k0 x : Int) : Int := (x * linearInt k2 k1 x + k0 * 4096) / 4096

def sigmoidInt (x : Int) : Int :=
  if x ≤ -22282 then 0
  else if x ≤ -13312 then linearInt 58 314 x
  else if x ≤ 0 then quadraticInt 165 1116 2057 x
  else if x ≤ 13312 then quadraticInt (-165) 1116 2039 x
  else if x ≤ 22282 then linearInt 58 3782 x
  else 4096

theorem slice_toInt {t : Int} (hlo : -2 ^ 27 ≤ t) (hhi : t < 2 ^ 27) :
    ((BitVec.ofInt 32 t).extractLsb 27 12).toInt = t / 4096 := by
  have h := BitVec.toInt_ofInt_eq_self (w := 32) (by decide) (by omega : -2 ^ 31 ≤ t)
    (by omega : t < 2 ^ 31)
  rw [BitVec.toInt_eq_toNat_cond] at h
  have hlt := (BitVec.ofInt 32 t).isLt
  rw [BitVec.toInt_extractLsb, Nat.shiftRight_eq_div_pow, Int.bmod_eq_iff (by decide)]
  refine ⟨by omega, by omega, ?_⟩
  split at h <;> omega

theorem linear_toInt (k1 k0 : Int) {x : BitVec 16} (hlo : -2 ^ 27 ≤ k1 * x.toInt + k0 * 4096)
    (hhi : k1 * x.toInt + k0 * 4096 < 2 ^ 27) :
    (linear (BitVec.ofInt 32 k1) (BitVec.ofInt 32 k0) x).toInt = linearInt k1 k0 x.toInt := by
  have hword : BitVec.ofInt 32 k1 * x.signExtend 32 + BitVec.ofInt 32 k0 * one =
      BitVec.ofInt 32 (k1 * x.toInt + k0 * 4096) := by
    rw [BitVec.ofInt_add, BitVec.ofInt_mul, BitVec.ofInt_mul]
    rfl
  rw [linear, hword]
  exact slice_toInt hlo hhi

theorem quadratic_toInt (k2 k1 k0 : Int) {x : BitVec 16}
    (hlo : -2 ^ 27 ≤ k2 * x.toInt + k1 * 4096) (hhi : k2 * x.toInt + k1 * 4096 < 2 ^ 27)
    (hlo' : -2 ^ 27 ≤ x.toInt * linearInt k2 k1 x.toInt + k0 * 4096)
    (hhi' : x.toInt * linearInt k2 k1 x.toInt + k0 * 4096 < 2 ^ 27) :
    (quadratic (BitVec.ofInt 32 k2) (BitVec.ofInt 32 k1) (BitVec.ofInt 32 k0) x).toInt =
      quadraticInt k2 k1 k0 x.toInt := by
  have hword : x.signExtend 32 *
      (linear (BitVec.ofInt 32 k2) (BitVec.ofInt 32 k1) x).signExtend 32 +
        BitVec.ofInt 32 k0 * one =
      BitVec.ofInt 32 (x.toInt * linearInt k2 k1 x.toInt + k0 * 4096) := by
    rw [BitVec.ofInt_add, BitVec.ofInt_mul, BitVec.ofInt_mul, ← linear_toInt k2 k1 hlo hhi]
    rfl
  rw [quadratic, hword]
  exact slice_toInt hlo' hhi'

theorem sle_ofInt (x : BitVec 16) (c : Int) (hlo : -2 ^ 31 ≤ c) (hhi : c < 2 ^ 31) :
    (x.signExtend 32).sle (BitVec.ofInt 32 c) = decide (x.toInt ≤ c) := by
  rw [BitVec.sle_eq_decide, BitVec.toInt_signExtend_of_le (by decide),
    BitVec.toInt_ofInt_eq_self (by decide) (by omega) (by omega)]

theorem sle_xInf (x : BitVec 16) : (x.signExtend 32).sle xInf = decide (x.toInt ≤ -22282) :=
  sle_ofInt x (-22282) (by decide) (by decide)

theorem sle_xMin (x : BitVec 16) : (x.signExtend 32).sle xMin = decide (x.toInt ≤ -13312) :=
  sle_ofInt x (-13312) (by decide) (by decide)

theorem sle_xMed (x : BitVec 16) : (x.signExtend 32).sle xMed = decide (x.toInt ≤ 0) :=
  sle_ofInt x 0 (by decide) (by decide)

theorem sle_xMax (x : BitVec 16) : (x.signExtend 32).sle xMax = decide (x.toInt ≤ 13312) :=
  sle_ofInt x 13312 (by decide) (by decide)

theorem sle_xSup (x : BitVec 16) : (x.signExtend 32).sle xSup = decide (x.toInt ≤ 22282) :=
  sle_ofInt x 22282 (by decide) (by decide)

theorem mul_bounds {x t : Int} (hx : -13312 ≤ x) (hx' : x ≤ 13312) (ht : 0 ≤ t) (ht' : t ≤ 1116) :
    -13312 * 1116 ≤ x * t ∧ x * t ≤ 13312 * 1116 := by
  constructor <;> nlinarith

theorem factor_low {x : Int} (hx : -13312 < x) (hx' : x ≤ 0) :
    579 ≤ linearInt 165 1116 x ∧ linearInt 165 1116 x ≤ 1116 := by
  unfold linearInt
  omega

theorem factor_high {x : Int} (hx : 0 < x) (hx' : x ≤ 13312) :
    579 ≤ linearInt (-165) 1116 x ∧ linearInt (-165) 1116 x ≤ 1116 := by
  unfold linearInt
  omega

/-- **The Azevedo core** computes its pieces exactly. -/
theorem sigmoid_toInt (x : BitVec 16) : (sigmoid x).toInt = sigmoidInt x.toInt := by
  simp only [sigmoid, sigmoidInt, sle_xInf, sle_xMin, sle_xMed, sle_xMax, sle_xSup,
    decide_eq_true_eq]
  split
  · rfl
  split
  · exact linear_toInt 58 314 (by omega) (by omega)
  split
  · obtain ⟨ht, ht'⟩ := factor_low (x := x.toInt) (by omega) ‹_›
    obtain ⟨hp, hp'⟩ := mul_bounds (x := x.toInt) (by omega) (by omega) (by omega) ht'
    exact quadratic_toInt 165 1116 2057 (by omega) (by omega) (by omega) (by omega)
  split
  · obtain ⟨ht, ht'⟩ := factor_high (x := x.toInt) (by omega) ‹_›
    obtain ⟨hp, hp'⟩ := mul_bounds (x := x.toInt) (by omega) (by omega) (by omega) ht'
    exact quadratic_toInt (-165) 1116 2039 (by omega) (by omega) (by omega) (by omega)
  split
  · exact linear_toInt 58 3782 (by omega) (by omega)
  · rfl

/-! ## Vaisnav -/

/-- The piece for a nonnegative number, in units of `1 / 4096`. -/
def yTmpInt (u : Int) : Int :=
  if 20480 ≤ u then 4096
  else if 9728 ≤ u then u / 32 + 3456
  else if 4096 ≤ u then u / 8 + 2560
  else u / 4 + 2048

def sigmoideInt (x : Int) : Int :=
  if 0 ≤ x then yTmpInt x else 4096 - yTmpInt (-x)

theorem yTmpInt_bounds {u : Int} (h : 0 ≤ u) : 2048 ≤ yTmpInt u ∧ yTmpInt u ≤ 4096 := by
  unfold yTmpInt
  split_ifs <;> omega

theorem shift_add_toInt {u c : BitVec 16} (k : Nat) (hlo : -2 ^ 15 ≤ u.toInt / 2 ^ k + c.toInt)
    (hhi : u.toInt / 2 ^ k + c.toInt < 2 ^ 15) :
    (u.sshiftRight k + c).toInt = u.toInt / 2 ^ k + c.toInt := by
  rw [BitVec.toInt_add, BitVec.toInt_sshiftRight, Int.shiftRight_eq_div_pow]
  push_cast
  exact Int.bmod_eq_of_le (by omega) (by omega)

theorem yTmp_toInt {u : BitVec 16} (h : 0 ≤ u.toInt) : (yTmp u).toInt = yTmpInt u.toInt := by
  have h5120 : limit5120.sle u = decide (20480 ≤ u.toInt) := BitVec.sle_eq_decide
  have h2432 : limit2432.sle u = decide (9728 ≤ u.toInt) := BitVec.sle_eq_decide
  have h1024 : limit1024.sle u = decide (4096 ≤ u.toInt) := BitVec.sle_eq_decide
  have h864 : indep864.toInt = 3456 := rfl
  have h640 : indep640.toInt = 2560 := rfl
  have h512 : indep512.toInt = 2048 := rfl
  simp only [yTmp, yTmpInt, h5120, h2432, h1024, decide_eq_true_eq]
  split
  · rfl
  split
  · exact shift_add_toInt 5 (by omega) (by omega)
  split
  · exact shift_add_toInt 3 (by omega) (by omega)
  · exact shift_add_toInt 2 (by omega) (by omega)

theorem one16_sub_toInt {y : BitVec 16} (hlo : 0 ≤ y.toInt) :
    (one16 - y).toInt = 4096 - y.toInt := by
  have h : one16.toInt = 4096 := rfl
  have hhi := y.toInt_lt
  rw [BitVec.toInt_sub, h]
  exact Int.bmod_eq_of_le (by omega) (by omega)

/-- **The Vaisnav core** computes its pieces exactly on every input with an absolute value. -/
theorem sigmoide_toInt {x : BitVec 16} (h : x.toInt ≠ -32768) :
    (sigmoide x).toInt = sigmoideInt x.toInt := by
  have hmin : x ≠ BitVec.intMin 16 := by
    rintro rfl
    exact h rfl
  have habs : x.abs.toInt = x.toInt.natAbs := by
    rw [BitVec.toInt_abs_eq_natAbs, if_neg hmin]
  have hsign : x.getLsbD 15 = decide (x.toInt < 0) := by
    rw [← BitVec.msb_eq_toInt]
    rfl
  have hy := yTmp_toInt (u := x.abs) (by omega)
  obtain ⟨hlo, -⟩ := yTmpInt_bounds (u := x.abs.toInt) (by omega)
  rw [habs] at hy hlo
  simp only [sigmoide, sigmoideInt, hsign, decide_eq_false_iff_not, not_lt]
  split
  · rw [hy, Int.natAbs_of_nonneg ‹_›]
  · rw [one16_sub_toInt (by omega), hy]
    congr 2
    omega

end CimSigmoid.Sigmoid
