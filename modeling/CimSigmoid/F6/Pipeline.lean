import Mathlib.Data.BitVec
import Mathlib.Data.Nat.ModEq
import Mathlib.Tactic.Ring
import Mathlib.Tactic.Linarith

/-!
# The fixed-point f6 pipelines

`f6_dashboard.py` of AritPIM-master computes `f6` on two simulators: Horner numerator,
denominator, division of the 2N-bit numerator by the lower half of the
denominator, clamp. `SerialArithmetic` and `ParallelArithmetic` are the AritPIM
primitives with what is assumed of them; a 2N-bit number is one register in the
serial layout and two N-bit halves, lower (`z`) and upper (`w`), in the parallel
one. A simulator works on all its rows at once; the model runs a list of inputs,
one a row. Cell allocation, cycle counts and the random draw of the inputs are left
out.
-/

namespace CimSigmoid.F6

/-- The number held in two halves, lower first. -/
def wide {N : Nat} (h : BitVec N × BitVec N) : Nat := h.2.toNat * 2 ^ N + h.1.toNat

/-- The primitives of `serial/AritPIM.py`, assumed exact. -/
structure SerialArithmetic (N : Nat) where
  fixedAddition : {w : Nat} → BitVec w → BitVec w → BitVec w
  /-- The difference and the carry-out. -/
  fixedSubtraction : BitVec N → BitVec N → BitVec N × Bool
  fixedMultiplication : BitVec N → BitVec N → BitVec (2 * N)
  fixedDivision : BitVec (2 * N) → BitVec N → BitVec N
  addition : ∀ {w : Nat} (x y : BitVec w), fixedAddition x y = x + y
  carry : ∀ x y, (fixedSubtraction x y).2 = decide (y.toNat ≤ x.toNat)
  product : ∀ x y, (fixedMultiplication x y).toNat = x.toNat * y.toNat
  quotient : ∀ z d, d ≠ 0 → z.toNat / d.toNat < 2 ^ N →
    (fixedDivision z d).toNat = z.toNat / d.toNat

/-- The primitives of `parallel/AritPIM.py`, assumed exact. Products are given as lower and upper
half; the dividend is taken as upper and lower half. -/
structure ParallelArithmetic (N : Nat) where
  fixedAddition : BitVec N → BitVec N → BitVec N
  /-- The difference and the carry-out. -/
  fixedSubtraction : BitVec N → BitVec N → BitVec N × Bool
  fixedMultiplication : BitVec N → BitVec N → BitVec N × BitVec N
  fixedDivision : BitVec N → BitVec N → BitVec N → BitVec N
  addition : ∀ x y, fixedAddition x y = x + y
  carry : ∀ x y, (fixedSubtraction x y).2 = decide (y.toNat ≤ x.toNat)
  product : ∀ x y, wide (fixedMultiplication x y) = x.toNat * y.toNat
  quotient : ∀ w z d, d ≠ 0 → wide (z, w) / d.toNat < 2 ^ N →
    (fixedDivision w z d).toNat = wide (z, w) / d.toNat

section

variable {N : Nat}

def lower (x : BitVec (2 * N)) : BitVec N := x.setWidth N

def upper (x : BitVec (2 * N)) : BitVec N := x.extractLsb' N N

def const (c : Nat) : BitVec N := BitVec.ofNat N c

/-! ## Numerator -/

namespace HornerEvaluator

def evaluateFixedSerial (A : SerialArithmetic N) (x : BitVec N) : BitVec (2 * N) :=
  let t1 := A.fixedAddition x (const 12)
  let t2 := A.fixedMultiplication t1 x
  let t3 := A.fixedAddition t2 ((const 60 : BitVec N).setWidth (2 * N))
  let t4 := A.fixedMultiplication (lower t3) x
  A.fixedAddition t4 ((const 120 : BitVec N).setWidth (2 * N))

/-- `_evaluate_fixed_parallel`: lower and upper half of the numerator. -/
def evaluateFixedParallel (A : ParallelArithmetic N) (x : BitVec N) : BitVec N × BitVec N :=
  let t1 := A.fixedAddition x (const 12)
  let (t2z, _) := A.fixedMultiplication t1 x
  let t3 := A.fixedAddition t2z (const 60)
  let (t4z, t4w) := A.fixedMultiplication t3 x
  (A.fixedAddition t4z (const 120), ~~~(~~~t4w))

end HornerEvaluator

/-! ## Denominator -/

namespace DenominatorEvaluator

/-- `_evaluate_fixed_serial`: lower and upper half of the denominator. -/
def evaluateFixedSerial (A : SerialArithmetic N) (x : BitVec N) : BitVec N × BitVec N :=
  let xCopy := x
  let t1 := A.fixedMultiplication x xCopy
  let t2 := A.fixedMultiplication (const 24) (lower t1)
  (A.fixedAddition (lower t2) (const 240), upper t2)

def evaluateFixedParallel (A : ParallelArithmetic N) (x : BitVec N) : BitVec N × BitVec N :=
  let xCopy := ~~~(~~~x)
  let (t1z, _) := A.fixedMultiplication x xCopy
  let (t2z, t2w) := A.fixedMultiplication (const 24) t1z
  (A.fixedAddition t2z (const 240), ~~~(~~~t2w))

end DenominatorEvaluator

/-! ## Division -/

namespace DivisionUnit

/-- The zero check of both divisions: rows with denominator zero get quotient zero, and with such
rows only nothing is divided. -/
def zeroChecked {R : Type} (denom quotient : R → BitVec N) (rows : List R) : List (BitVec N) :=
  if rows.all fun r => denom r = 0 then rows.map fun _ => 0
  else rows.map fun r => if denom r = 0 then 0 else quotient r

def divideFixedSerial (A : SerialArithmetic N) :
    List (BitVec (2 * N) × BitVec N) → List (BitVec N) :=
  zeroChecked (fun r => r.2) fun r => A.fixedDivision r.1 r.2

/-- `_divide_fixed_parallel` on rows of lower half, upper half and denominator. -/
def divideFixedParallel (A : ParallelArithmetic N) :
    List (BitVec N × BitVec N × BitVec N) → List (BitVec N) :=
  zeroChecked (fun r => r.2.2) fun r => A.fixedDivision r.2.1 r.1 r.2.2

end DivisionUnit

/-! ## Clamp -/

namespace ClampingUnit

/-- The choice of both clamps: 0 for a set sign bit, 1 for a carry-out of `value - 1`. -/
def select (isNegative isGeOne : Bool) (value : BitVec N) : BitVec N :=
  if isNegative then 0 else if isGeOne then const 1 else value

def clampFixedSerial (A : SerialArithmetic N) (value : BitVec N) : BitVec N :=
  select value.msb (A.fixedSubtraction value (const 1)).2 value

def clampFixedParallel (A : ParallelArithmetic N) (value : BitVec N) : BitVec N :=
  select value.msb (A.fixedSubtraction value (const 1)).2 value

end ClampingUnit

/-! ## Pipelines -/

structure SerialRow (N : Nat) where
  numerator : BitVec (2 * N)
  denominator : BitVec N × BitVec N
  quotient : BitVec N
  clamped : BitVec N

structure ParallelRow (N : Nat) where
  numerator : BitVec N × BitVec N
  denominator : BitVec N × BitVec N
  quotient : BitVec N
  clamped : BitVec N

/-- The quotient of the row fits in its N bits. -/
def SerialRow.Fits (r : SerialRow N) : Prop :=
  r.numerator.toNat / r.denominator.1.toNat < 2 ^ N

def ParallelRow.Fits (r : ParallelRow N) : Prop :=
  wide r.numerator / r.denominator.1.toNat < 2 ^ N

def runPipelineSerialFixed (A : SerialArithmetic N) (xs : List (BitVec N)) : List (SerialRow N) :=
  let rows := xs.map fun x =>
    (HornerEvaluator.evaluateFixedSerial A x, DenominatorEvaluator.evaluateFixedSerial A x)
  let quotients := DivisionUnit.divideFixedSerial A (rows.map fun r => (r.1, r.2.1))
  rows.zipWith (fun r q => ⟨r.1, r.2, q, ClampingUnit.clampFixedSerial A q⟩) quotients

def runPipelineParallelFixed (A : ParallelArithmetic N) (xs : List (BitVec N)) :
    List (ParallelRow N) :=
  let rows := xs.map fun x =>
    (HornerEvaluator.evaluateFixedParallel A x, DenominatorEvaluator.evaluateFixedParallel A x)
  let quotients := DivisionUnit.divideFixedParallel A (rows.map fun r => (r.1.1, r.1.2, r.2.1))
  rows.zipWith (fun r q => ⟨r.1, r.2, q, ClampingUnit.clampFixedParallel A q⟩) quotients

/-! ## Values of the registers -/

/-- The lower half of `t3`: what both Horner evaluations multiply by `x`. -/
def inner (N x : Nat) : Nat := (x ^ 2 + 12 * x + 60) % 2 ^ N

/-- The divisor of both divisions. -/
def divisor (N x : Nat) : Nat := (24 * x ^ 2 + 240) % 2 ^ N

theorem const_toNat (hN : 8 ≤ N) {c : Nat} (hc : c < 256) : (const c : BitVec N).toNat = c := by
  have : 2 ^ 8 ≤ 2 ^ N := Nat.pow_le_pow_right (by norm_num) hN
  rw [const, BitVec.toNat_ofNat, Nat.mod_eq_of_lt (by omega)]

theorem const_setWidth_toNat (hN : 8 ≤ N) {c : Nat} (hc : c < 256) :
    ((const c : BitVec N).setWidth (2 * N)).toNat = c := by
  have h := const_toNat hN hc
  have : 2 ^ 8 ≤ 2 ^ (2 * N) := Nat.pow_le_pow_right (by norm_num) (by omega)
  rw [BitVec.toNat_setWidth, h, Nat.mod_eq_of_lt (by omega)]

theorem lower_toNat (x : BitVec (2 * N)) : (lower x).toNat = x.toNat % 2 ^ N :=
  BitVec.toNat_setWidth ..

theorem mod_mod_pow {M : Nat} (h : N ≤ M) (a : Nat) : a % 2 ^ M % 2 ^ N = a % 2 ^ N :=
  Nat.mod_mod_of_dvd _ (Nat.pow_dvd_pow 2 h)

theorem inner_eq (N x : Nat) : ((x + 12) % 2 ^ N * x + 60) % 2 ^ N = inner N x := by
  have h : (x + 12) % 2 ^ N * x + 60 ≡ (x + 12) * x + 60 [MOD 2 ^ N] :=
    ((Nat.mod_modEq _ _).mul_right x).add_right 60
  have e : (x + 12) * x + 60 = x ^ 2 + 12 * x + 60 := by ring
  exact h.trans (by rw [e])

theorem divisor_eq (N x : Nat) : (24 * (x * x % 2 ^ N) % 2 ^ N + 240) % 2 ^ N = divisor N x := by
  have h : 24 * (x * x % 2 ^ N) % 2 ^ N + 240 ≡ 24 * (x * x) + 240 [MOD 2 ^ N] :=
    ((Nat.mod_modEq _ _).trans ((Nat.mod_modEq _ _).mul_left 24)).add_right 240
  have e : 24 * (x * x) + 240 = 24 * x ^ 2 + 240 := by ring
  exact h.trans (by rw [e])

theorem inner_lt (N x : Nat) : inner N x < 2 ^ N := Nat.mod_lt _ (by positivity)

/-- The 2N-bit numerator register does not overflow. -/
theorem numerator_lt (hN : 8 ≤ N) (x : BitVec N) :
    inner N x.toNat * x.toNat + 120 < 2 ^ (2 * N) := by
  have hp : 2 ^ 8 ≤ 2 ^ N := Nat.pow_le_pow_right (by norm_num) hN
  have hi := inner_lt N x.toNat
  have hx := x.isLt
  have hm : inner N x.toNat * x.toNat ≤ (2 ^ N - 1) * (2 ^ N - 1) :=
    Nat.mul_le_mul (by omega) (by omega)
  obtain ⟨k, hk⟩ : ∃ k, 2 ^ N = k + 1 := ⟨2 ^ N - 1, by omega⟩
  rw [Nat.mul_comm 2 N, Nat.pow_mul, hk]
  rw [hk, Nat.add_sub_cancel] at hm
  nlinarith

/-- No input makes the divisor zero: `24 (x² + 10)` is not a multiple of 32. -/
theorem divisor_pos (hN : 8 ≤ N) (x : Nat) : 0 < divisor N x := by
  have h32 : 32 ∣ 2 ^ N := Nat.pow_dvd_pow 2 (show 5 ≤ N by omega)
  have hr : ∀ r < 32, (24 * r ^ 2 + 240) % 32 ≠ 0 := by decide
  refine Nat.pos_of_ne_zero fun h => hr (x % 32) (Nat.mod_lt _ (by norm_num)) ?_
  have hd : (24 * x ^ 2 + 240) % 32 = 0 :=
    Nat.mod_eq_zero_of_dvd (h32.trans (Nat.dvd_of_mod_eq_zero h))
  rw [← hd]
  exact (((Nat.mod_modEq x 32).pow 2).mul_left 24).add_right 240

theorem serial_numerator (hN : 8 ≤ N) (A : SerialArithmetic N) (x : BitVec N) :
    (HornerEvaluator.evaluateFixedSerial A x).toNat = inner N x.toNat * x.toNat + 120 := by
  simp only [HornerEvaluator.evaluateFixedSerial, A.addition, A.product, lower_toNat,
    BitVec.toNat_add, const_toNat hN, const_setWidth_toNat hN, Nat.reduceLT,
    mod_mod_pow (show N ≤ 2 * N by omega), inner_eq]
  exact Nat.mod_eq_of_lt (numerator_lt hN x)

theorem serial_denominator (hN : 8 ≤ N) (A : SerialArithmetic N) (x : BitVec N) :
    (DenominatorEvaluator.evaluateFixedSerial A x).1.toNat = divisor N x.toNat := by
  simp only [DenominatorEvaluator.evaluateFixedSerial, A.addition, A.product, lower_toNat,
    BitVec.toNat_add, const_toNat hN, Nat.reduceLT, divisor_eq]

theorem ParallelArithmetic.product_lower (A : ParallelArithmetic N) (x y : BitVec N) :
    (A.fixedMultiplication x y).1.toNat = x.toNat * y.toNat % 2 ^ N := by
  have h := (A.fixedMultiplication x y).1.isLt
  rw [← A.product, wide, Nat.mul_add_mod_self_right, Nat.mod_eq_of_lt h]

theorem ParallelArithmetic.product_upper (A : ParallelArithmetic N) (x y : BitVec N) :
    (A.fixedMultiplication x y).2.toNat = x.toNat * y.toNat / 2 ^ N := by
  have h := (A.fixedMultiplication x y).1.isLt
  rw [← A.product, wide, Nat.add_comm, Nat.add_mul_div_right _ _ (by positivity),
    Nat.div_eq_of_lt h, Nat.zero_add]

theorem parallel_numerator (hN : 8 ≤ N) (A : ParallelArithmetic N) (x : BitVec N) :
    (HornerEvaluator.evaluateFixedParallel A x).1.toNat =
        (inner N x.toNat * x.toNat % 2 ^ N + 120) % 2 ^ N ∧
      (HornerEvaluator.evaluateFixedParallel A x).2.toNat = inner N x.toNat * x.toNat / 2 ^ N := by
  simp only [HornerEvaluator.evaluateFixedParallel, A.addition, A.product_lower, A.product_upper,
    BitVec.not_not, BitVec.toNat_add, const_toNat hN, Nat.reduceLT, Nat.mod_add_mod, inner_eq]
  trivial

theorem parallel_denominator (hN : 8 ≤ N) (A : ParallelArithmetic N) (x : BitVec N) :
    (DenominatorEvaluator.evaluateFixedParallel A x).1.toNat = divisor N x.toNat := by
  simp only [DenominatorEvaluator.evaluateFixedParallel, A.addition, A.product_lower,
    BitVec.not_not, BitVec.toNat_add, const_toNat hN, Nat.reduceLT, divisor_eq]

def clamp (N q : Nat) : Nat := if q < 2 ^ (N - 1) ∧ 1 ≤ q then 1 else 0

theorem select_toNat (hN : 8 ≤ N) (v : BitVec N) :
    (ClampingUnit.select v.msb (decide ((const 1 : BitVec N).toNat ≤ v.toNat)) v).toNat =
      clamp N v.toNat := by
  have h1 : (const 1 : BitVec N).toNat = 1 := const_toNat hN (by norm_num)
  rw [ClampingUnit.select, BitVec.msb_eq_decide, h1, clamp]
  by_cases hm : 2 ^ (N - 1) ≤ v.toNat
  · simp [hm]
  · by_cases hv : 1 ≤ v.toNat
    · simp [Nat.lt_of_not_le hm, hv, hm, h1]
    · simp [hm, hv]
      omega

theorem zeroChecked_eq {R : Type} (denom quotient : R → BitVec N) (rows : List R) :
    DivisionUnit.zeroChecked denom quotient rows =
      rows.map fun r => if denom r = 0 then 0 else quotient r := by
  unfold DivisionUnit.zeroChecked
  split
  · rename_i h
    refine List.map_congr_left fun r hr => ?_
    rw [if_pos (of_decide_eq_true (List.all_eq_true.mp h r hr))]
  · rfl

/-! ## Rows -/

def serialRow (A : SerialArithmetic N) (x : BitVec N) : SerialRow N :=
  let n := HornerEvaluator.evaluateFixedSerial A x
  let d := DenominatorEvaluator.evaluateFixedSerial A x
  let q := if d.1 = 0 then 0 else A.fixedDivision n d.1
  ⟨n, d, q, ClampingUnit.clampFixedSerial A q⟩

def parallelRow (A : ParallelArithmetic N) (x : BitVec N) : ParallelRow N :=
  let n := HornerEvaluator.evaluateFixedParallel A x
  let d := DenominatorEvaluator.evaluateFixedParallel A x
  let q := if d.1 = 0 then 0 else A.fixedDivision n.2 n.1 d.1
  ⟨n, d, q, ClampingUnit.clampFixedParallel A q⟩

theorem runPipelineSerialFixed_eq (A : SerialArithmetic N) (xs : List (BitVec N)) :
    runPipelineSerialFixed A xs = xs.map (serialRow A) := by
  simp only [runPipelineSerialFixed, DivisionUnit.divideFixedSerial, zeroChecked_eq,
    List.map_map, List.zipWith_map, List.zipWith_self]
  rfl

theorem runPipelineParallelFixed_eq (A : ParallelArithmetic N) (xs : List (BitVec N)) :
    runPipelineParallelFixed A xs = xs.map (parallelRow A) := by
  simp only [runPipelineParallelFixed, DivisionUnit.divideFixedParallel, zeroChecked_eq,
    List.map_map, List.zipWith_map, List.zipWith_self]
  rfl

theorem ne_zero_of_toNat {d : BitVec N} {k : Nat} (h : d.toNat = k) (hk : 0 < k) : d ≠ 0 := by
  rintro rfl
  simp at h
  omega

theorem serialRow_clamped (hN : 8 ≤ N) (A : SerialArithmetic N) (x : BitVec N)
    (hq : (serialRow A x).Fits) :
    (serialRow A x).clamped.toNat =
      clamp N ((serialRow A x).numerator.toNat / divisor N x.toNat) := by
  have hd := serial_denominator hN A x
  have h0 := ne_zero_of_toNat hd (divisor_pos hN _)
  simp only [serialRow, SerialRow.Fits, ClampingUnit.clampFixedSerial, A.carry, if_neg h0] at hq ⊢
  rw [select_toNat hN, A.quotient _ _ h0 hq, hd]

theorem parallelRow_clamped (hN : 8 ≤ N) (A : ParallelArithmetic N) (x : BitVec N)
    (hq : (parallelRow A x).Fits) :
    (parallelRow A x).clamped.toNat =
      clamp N (wide (parallelRow A x).numerator / divisor N x.toNat) := by
  have hd := parallel_denominator hN A x
  have h0 := ne_zero_of_toNat hd (divisor_pos hN _)
  simp only [parallelRow, ParallelRow.Fits, ClampingUnit.clampFixedParallel, A.carry,
    if_neg h0] at hq ⊢
  have hv := A.quotient (HornerEvaluator.evaluateFixedParallel A x).2
    (HornerEvaluator.evaluateFixedParallel A x).1 _ h0 hq
  rw [select_toNat hN, hv, hd]

end

/-! ## Exact primitives -/

theorem product_lt {N : Nat} (x y : BitVec N) : x.toNat * y.toNat < 2 ^ N * 2 ^ N :=
  Nat.mul_lt_mul'' x.isLt y.isLt

def SerialArithmetic.exact (N : Nat) : SerialArithmetic N where
  fixedAddition x y := x + y
  fixedSubtraction x y := (x - y, decide (y.toNat ≤ x.toNat))
  fixedMultiplication x y := BitVec.ofNat (2 * N) (x.toNat * y.toNat)
  fixedDivision z d := BitVec.ofNat N (z.toNat / d.toNat)
  addition _ _ := rfl
  carry _ _ := rfl
  product x y := by
    rw [BitVec.toNat_ofNat, Nat.two_mul, Nat.pow_add, Nat.mod_eq_of_lt (product_lt x y)]
  quotient z d _ h := by rw [BitVec.toNat_ofNat, Nat.mod_eq_of_lt h]

def ParallelArithmetic.exact (N : Nat) : ParallelArithmetic N where
  fixedAddition x y := x + y
  fixedSubtraction x y := (x - y, decide (y.toNat ≤ x.toNat))
  fixedMultiplication x y :=
    (BitVec.ofNat N (x.toNat * y.toNat), BitVec.ofNat N (x.toNat * y.toNat / 2 ^ N))
  fixedDivision w z d := BitVec.ofNat N (wide (z, w) / d.toNat)
  addition _ _ := rfl
  carry _ _ := rfl
  product x y := by
    have h : x.toNat * y.toNat / 2 ^ N < 2 ^ N := Nat.div_lt_of_lt_mul (product_lt x y)
    simp only [wide, BitVec.toNat_ofNat, Nat.mod_eq_of_lt h]
    exact Nat.div_add_mod' ..
  quotient w z d _ h := by rw [BitVec.toNat_ofNat, Nat.mod_eq_of_lt h]

end CimSigmoid.F6
