import CimSigmoid.F6.Pipeline
import Mathlib.Algebra.Order.Field.Power
import Mathlib.Data.Int.Log
import Mathlib.Data.Rat.Floor
import Mathlib.Tactic.NormNum.Basic

/-!
# The floating-point clamp

`clamp_float` of `f6_dashboard.py` compares a stored float with the stored 1.0 by the
carry-out of an integer subtraction. A float is stored as `signedFloatToBinary` lays it
out: cell 0 the sign, cells 1 to 8 the exponent, cells 9 to 31 the mantissa, each field
least significant bit first. A stored float is a `BitVec 32` here, cell `i` being bit
`i`, which is how the subtractor reads it.

In that order the mantissa is the most significant field and not the least: any float
with a nonzero mantissa compares above 1.0 (`one_le_iff`). `clampSpec` is the clamp on
the fields, and `value_clampSpec` says that it is the clamp of the values.
-/

namespace CimSigmoid.F6

/-! ## Stored floats (`util/representation.py`) -/

/-- `np.frexp` of a nonnegative number. -/
def frexp (x : ℚ) : ℚ × Int :=
  if x = 0 then (0, 0) else (x / 2 ^ (Int.log 2 x + 1), Int.log 2 x + 1)

def decomposeUnsignedFloat (x : ℚ) : Int × Int :=
  let (significand, exponent) := frexp |x|
  (if significand = 0 then 0 else exponent + 127 - 1, ⌊significand * 2 ^ 24⌋)

def decomposeSignedFloat (x : ℚ) : Bool × Int × Int := (x < 0, decomposeUnsignedFloat |x|)

/-- `N` bits of an integer, cell 0 the least significant. -/
def unsignedToBinaryFixed (x : Int) (N : Nat) : BitVec N := BitVec.ofInt N x

/-- The fields are concatenated from cell 0 on, so the sign comes last here. -/
def signedFloatToBinary (x : ℚ) : BitVec 32 :=
  let (sign, exp, sig) := decomposeSignedFloat x
  unsignedToBinaryFixed sig 23 ++ unsignedToBinaryFixed exp 8 ++ BitVec.ofBool sign

def composeUnsignedFloat (exponent : Int) (significand : ℚ) : ℚ :=
  significand / 2 ^ 23 * 2 ^ (exponent - 127)

def composeSignedFloat (sign : Bool) (exponent : Int) (significand : ℚ) : ℚ :=
  (-1) ^ sign.toNat * composeUnsignedFloat exponent significand

section

variable (v : BitVec 32)

/-- Cell 0. -/
def sign : Bool := v.getLsbD 0

/-- Cells 1 to 8. -/
def exponent : Nat := (v.extractLsb' 1 8).toNat

/-- Cells 9 to 31. -/
def mantissa : Nat := (v.extractLsb' 9 23).toNat

def significand : Nat := mantissa v + if exponent v = 0 then 0 else 2 ^ 23

def binaryToSignedFloat : ℚ :=
  composeSignedFloat (sign v) (exponent v + 1) (significand v / 2)

end

/-! ## The clamp -/

def constOneFloat : BitVec 32 := signedFloatToBinary 1

namespace ClampingUnit

/-- The choice of both clamps: 0 for a set sign, 1.0 for a carry-out of `value - 1.0`. -/
def selectFloat (isNegative isGeOne : Bool) (value : BitVec 32) : BitVec 32 :=
  if isNegative then 0 else if isGeOne then constOneFloat else value

def clampFloatSerial (A : SerialArithmetic 32) (value : BitVec 32) : BitVec 32 :=
  selectFloat (sign value) (A.fixedSubtraction value constOneFloat).2 value

def clampFloatParallel (A : ParallelArithmetic 32) (value : BitVec 32) : BitVec 32 :=
  selectFloat (sign value) (A.fixedSubtraction value constOneFloat).2 value

end ClampingUnit

/-- The clamp on the fields: zero for a set sign, 1.0 from the exponent of 1.0 on. -/
def clampSpec (v : BitVec 32) : BitVec 32 :=
  if sign v then 0 else if 127 ≤ exponent v then constOneFloat else v

/-! ## Fields -/

section

variable (v : BitVec 32)

theorem sign_toNat : (sign v).toNat = v.toNat % 2 := by
  rw [sign, ← BitVec.testBit_toNat, Nat.toNat_testBit, Nat.pow_zero, Nat.div_one]

theorem exponent_eq : exponent v = v.toNat / 2 % 2 ^ 8 := by
  rw [exponent, BitVec.extractLsb'_toNat, Nat.shiftRight_eq_div_pow, Nat.pow_one]

theorem mantissa_eq : mantissa v = v.toNat / 2 ^ 9 := by
  have := v.isLt
  rw [mantissa, BitVec.extractLsb'_toNat, Nat.shiftRight_eq_div_pow]
  exact Nat.mod_eq_of_lt (by omega)

theorem toNat_fields : v.toNat = (sign v).toNat + 2 * exponent v + 2 ^ 9 * mantissa v := by
  rw [sign_toNat, exponent_eq, mantissa_eq]
  omega

theorem mantissa_lt : mantissa v < 2 ^ 23 := (v.extractLsb' 9 23).isLt

end

theorem decomposeSignedFloat_one : decomposeSignedFloat 1 = (false, 127, 2 ^ 23) := by
  have hlog : Int.log 2 (1 : ℚ) = 0 := Int.log_one_right 2
  have hsig : ⌊(1 / 2 * 2 ^ 24 : ℚ)⌋ = 2 ^ 23 := by norm_num
  simp only [decomposeSignedFloat, decomposeUnsignedFloat, frexp, abs_one, one_ne_zero, if_false,
    hlog, zero_add, zpow_one, hsig]
  norm_num

theorem constOneFloat_eq : constOneFloat = 254 := by
  rw [constOneFloat, signedFloatToBinary, decomposeSignedFloat_one]
  decide

/-- Read as an integer, a nonnegative stored float reaches 1.0 with its exponent or with any bit
of its mantissa. -/
theorem one_le_iff {v : BitVec 32} (hs : sign v = false) :
    constOneFloat.toNat ≤ v.toNat ↔ 127 ≤ exponent v ∨ mantissa v ≠ 0 := by
  have h1 : constOneFloat.toNat = 254 := by rw [constOneFloat_eq]; rfl
  have he : exponent v < 2 ^ 8 := (v.extractLsb' 1 8).isLt
  rw [h1, toNat_fields v, hs, Bool.toNat_false]
  omega

/-! ## Values -/

theorem composeUnsignedFloat_le {e e' : Int} {s s' : ℚ} (he : e ≤ e') (h0 : 0 ≤ s) (hs : s ≤ s') :
    composeUnsignedFloat e s ≤ composeUnsignedFloat e' s' := by
  have hpow : (2 : ℚ) ^ (e - 127) ≤ 2 ^ (e' - 127) :=
    zpow_le_zpow_right₀ (by norm_num) (by omega)
  have h0' : 0 ≤ s' := h0.trans hs
  unfold composeUnsignedFloat
  gcongr

theorem composeUnsignedFloat_nonneg (e : Int) {s : ℚ} (h0 : 0 ≤ s) :
    0 ≤ composeUnsignedFloat e s := by
  unfold composeUnsignedFloat
  positivity

section

variable {v : BitVec 32}

theorem value_zero : binaryToSignedFloat 0 = 0 := by
  have hs : significand 0 = 0 := by decide
  rw [binaryToSignedFloat, hs, composeSignedFloat, composeUnsignedFloat]
  simp

theorem value_one : binaryToSignedFloat constOneFloat = 1 := by
  have hm : significand 254 = 2 ^ 23 := by decide
  have he : exponent 254 = 127 := by decide
  have hs : sign 254 = false := by decide
  rw [constOneFloat_eq, binaryToSignedFloat, hm, he, hs, composeSignedFloat, composeUnsignedFloat]
  norm_num

theorem value_of_negative (hs : sign v = true) :
    binaryToSignedFloat v = -composeUnsignedFloat (exponent v + 1) (significand v / 2) := by
  rw [binaryToSignedFloat, hs, composeSignedFloat, Bool.toNat_true, pow_one, neg_one_mul]

theorem value_of_nonnegative (hs : sign v = false) :
    binaryToSignedFloat v = composeUnsignedFloat (exponent v + 1) (significand v / 2) := by
  rw [binaryToSignedFloat, hs, composeSignedFloat, Bool.toNat_false, pow_zero, one_mul]

theorem value_nonpos (hs : sign v = true) : binaryToSignedFloat v ≤ 0 := by
  rw [value_of_negative hs, neg_nonpos]
  exact composeUnsignedFloat_nonneg _ (by positivity)

theorem value_nonneg (hs : sign v = false) : 0 ≤ binaryToSignedFloat v := by
  rw [value_of_nonnegative hs]
  exact composeUnsignedFloat_nonneg _ (by positivity)

theorem one_le_value (hs : sign v = false) (he : 127 ≤ exponent v) :
    1 ≤ binaryToSignedFloat v := by
  have hsig : ((2 ^ 23 : Nat) : ℚ) ≤ significand v := by
    rw [significand, if_neg (by omega)]
    exact Nat.cast_le.2 (Nat.le_add_left _ _)
  rw [value_of_nonnegative hs]
  calc (1 : ℚ) = composeUnsignedFloat 128 ((2 ^ 23 : Nat) / 2) := by
        norm_num [composeUnsignedFloat]
    _ ≤ _ := composeUnsignedFloat_le (by omega) (by positivity) (by gcongr)

theorem value_le_one (hs : sign v = false) (he : exponent v < 127) :
    binaryToSignedFloat v ≤ 1 := by
  have hsig : (significand v : ℚ) ≤ (2 ^ 24 : Nat) := by
    have hm := mantissa_lt v
    refine Nat.cast_le.2 ?_
    unfold significand
    split <;> omega
  rw [value_of_nonnegative hs]
  calc _ ≤ composeUnsignedFloat 127 ((2 ^ 24 : Nat) / 2) :=
        composeUnsignedFloat_le (by omega) (by positivity) (by gcongr)
    _ = 1 := by norm_num [composeUnsignedFloat]

/-- The clamp on the fields is the clamp of the values. -/
theorem value_clampSpec (v : BitVec 32) :
    binaryToSignedFloat (clampSpec v) = max 0 (min 1 (binaryToSignedFloat v)) := by
  unfold clampSpec
  cases hs : sign v with
  | true =>
    have h := value_nonpos hs
    rw [if_pos rfl, value_zero, min_eq_right (h.trans zero_le_one), max_eq_left h]
  | false =>
    rw [if_neg Bool.false_ne_true]
    by_cases he : 127 ≤ exponent v
    · rw [if_pos he, value_one, min_eq_left (one_le_value hs he), max_eq_right zero_le_one]
    · rw [if_neg he, min_eq_right (value_le_one hs (by omega)), max_eq_right (value_nonneg hs)]

end

/-! ## What the clamps compute -/

/-- With a carry-out that compares, the choice takes every nonnegative float with a nonzero
mantissa to 1.0. -/
theorem selectFloat_eq (v : BitVec 32) :
    ClampingUnit.selectFloat (sign v) (decide (constOneFloat.toNat ≤ v.toNat)) v =
      if sign v then 0 else if 127 ≤ exponent v ∨ mantissa v ≠ 0 then constOneFloat else v := by
  unfold ClampingUnit.selectFloat
  cases hs : sign v with
  | true => rfl
  | false => simp only [one_le_iff hs, decide_eq_true_eq]

theorem ne_constOneFloat {v : BitVec 32} (hm : mantissa v ≠ 0) : constOneFloat ≠ v := by
  rintro rfl
  rw [constOneFloat_eq] at hm
  exact hm (by decide)

theorem selectFloat_eq_clampSpec_iff (v : BitVec 32) :
    ClampingUnit.selectFloat (sign v) (decide (constOneFloat.toNat ≤ v.toNat)) v = clampSpec v ↔
      sign v = true ∨ 127 ≤ exponent v ∨ mantissa v = 0 := by
  rw [selectFloat_eq, clampSpec]
  cases sign v with
  | true => simp
  | false =>
    by_cases he : 127 ≤ exponent v
    · simp [he]
    · by_cases hm : mantissa v = 0
      · simp [he, hm]
      · simp [he, hm, ne_constOneFloat hm]

/-- **Both float clamps clamp exactly** the patterns with a set sign, with an exponent of at least
127 or with a zero mantissa. -/
theorem clampFloat_iff (A : SerialArithmetic 32) (B : ParallelArithmetic 32) (v : BitVec 32) :
    (ClampingUnit.clampFloatSerial A v = clampSpec v ↔
      sign v = true ∨ 127 ≤ exponent v ∨ mantissa v = 0) ∧
    (ClampingUnit.clampFloatParallel B v = clampSpec v ↔
      sign v = true ∨ 127 ≤ exponent v ∨ mantissa v = 0) := by
  rw [ClampingUnit.clampFloatSerial, ClampingUnit.clampFloatParallel, A.carry, B.carry]
  exact ⟨selectFloat_eq_clampSpec_iff v, selectFloat_eq_clampSpec_iff v⟩

/-- 0.75 is stored with exponent 126 and mantissa `0x400000`; both clamps make 1.0 of it. -/
theorem clampFloat_three_quarters :
    sign 0x800000FC = false ∧ exponent 0x800000FC = 126 ∧ mantissa 0x800000FC = 0x400000 ∧
      binaryToSignedFloat 0x800000FC = 3 / 4 ∧ clampSpec 0x800000FC = 0x800000FC ∧
      ClampingUnit.clampFloatSerial (.exact 32) 0x800000FC = constOneFloat ∧
      ClampingUnit.clampFloatParallel (.exact 32) 0x800000FC = constOneFloat ∧
      constOneFloat ≠ 0x800000FC := by
  have hs : sign 0x800000FC = false := by decide
  have he : exponent 0x800000FC = 126 := by decide
  have hm : mantissa 0x800000FC ≠ 0 := by decide
  have hsig : significand 0x800000FC = 0xC00000 := by decide
  have hsel : ClampingUnit.selectFloat (sign 0x800000FC)
      (decide (constOneFloat.toNat ≤ (0x800000FC : BitVec 32).toNat)) 0x800000FC =
        constOneFloat := by
    rw [selectFloat_eq, hs, if_neg Bool.false_ne_true, if_pos (.inr hm)]
  refine ⟨hs, he, by decide, ?_, ?_, hsel, hsel, ne_constOneFloat hm⟩
  · rw [value_of_nonnegative hs, he, hsig, composeUnsignedFloat]
    norm_num
  · rw [clampSpec, hs, he]
    rfl

end CimSigmoid.F6
