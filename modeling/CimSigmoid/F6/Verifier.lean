import CimSigmoid.F6.Pipeline
import Mathlib.Data.List.Forall2

/-!
# The fixed-point verifier

`CorrectnessVerifier.verify_fixed` computes its reference in numpy `int64`, masking
every intermediate to N bits, excludes the samples it takes for overflows, and compares
the rest with the clamped outputs. An `int64` is a `BitVec 64` read as signed; sums and
products wrap, and comparisons with Python integers are exact. The reference divides
the lower N bits of the numerator where the pipeline divides all 2N.
-/

namespace CimSigmoid.F6

namespace CorrectnessVerifier

def maskN (N : Nat) : BitVec 64 := BitVec.ofNat 64 (2 ^ N - 1)

def overflowLimit (N : Nat) : Int := 2 ^ (N - 1)

/-- `//` on `int64`, zero for a zero divisor. -/
def floorDivide (a b : BitVec 64) : BitVec 64 := BitVec.ofInt 64 (a.toInt.fdiv b.toInt)

/-- The arrays `verify_fixed` computes, for one sample. -/
structure Reference where
  t2Full : BitVec 64
  t4Full : BitVec 64
  numerator : BitVec 64
  xSqFull : BitVec 64
  t24x2Full : BitVec 64
  denominator : BitVec 64
  quotient : BitVec 64
  clampedRef : BitVec 64

/-- The reference computation for `x`. -/
def reference (N : Nat) (x : BitVec 64) : Reference :=
  let t1 := (x + 12) &&& maskN N
  let t2Full := t1 * x
  let t2 := t2Full &&& maskN N
  let t3 := (t2 + 60) &&& maskN N
  let t4Full := t3 * x
  let t4 := t4Full &&& maskN N
  let numerator := (t4 + 120) &&& maskN N
  let xSqFull := x * x
  let xSq := xSqFull &&& maskN N
  let t24x2Full := 24 * xSq
  let t24x2 := t24x2Full &&& maskN N
  let denominator := (t24x2 + 240) &&& maskN N
  let quotient := if denominator ≠ 0 then floorDivide numerator denominator else 0
  let isNegative := overflowLimit N ≤ quotient.toInt
  let isGeOne := 1 ≤ quotient.toInt
  let clampedRef := if isNegative then 0 else if isGeOne then 1 else quotient
  ⟨t2Full, t4Full, numerator, xSqFull, t24x2Full, denominator, quotient, clampedRef⟩

/-- `overflow_mask`: the sample is left out of the comparison. -/
def overflowMask (N : Nat) (r : Reference) : Bool :=
  decide (2 ^ (2 * N - 1) ≤ r.t2Full.toInt) || decide (2 ^ (2 * N - 1) ≤ r.t4Full.toInt) ||
    decide (2 ^ (2 * N - 1) ≤ r.xSqFull.toInt) || decide (2 ^ (2 * N - 1) ≤ r.t24x2Full.toInt) ||
    decide (overflowLimit N ≤ r.numerator.toInt) || decide (overflowLimit N ≤ r.denominator.toInt)

structure Sample where
  x : BitVec 64
  ref : Reference
  actual : Nat

/-- The sample of an N-bit input, widened by `astype`, and an N-bit result. -/
def sample {N : Nat} (x result : BitVec N) : Sample :=
  ⟨x.setWidth 64, reference N (x.setWidth 64), result.toNat⟩

inductive Report where
  | allExcluded (n : Nat)
  | pass (verified excluded : Nat)
  | fail (mismatches valid excluded : Nat) (shown : List (BitVec 64 × BitVec 64 × Nat))

def Report.accepted : Report → Bool
  | allExcluded _ => true
  | pass _ _ => true
  | fail _ _ _ _ => false

def maxMismatchDisplay : Nat := 10

def report {N : Nat} (xs results : List (BitVec N)) : Report :=
  let samples := List.zipWith sample xs results
  let valid := samples.filter fun s => !overflowMask N s.ref
  if valid.length = 0 then .allExcluded xs.length
  else
    let mismatches := valid.filter fun s => s.ref.clampedRef.toInt ≠ s.actual
    if mismatches.length = 0 then .pass valid.length (xs.length - valid.length)
    else .fail mismatches.length valid.length (xs.length - valid.length)
      ((mismatches.take maxMismatchDisplay).map fun s => (s.x, s.ref.clampedRef, s.actual))

def verifyFixed {N : Nat} (xs results : List (BitVec N)) : Bool := (report xs results).accepted

end CorrectnessVerifier

open CorrectnessVerifier

/-! ## The reference -/

section

variable {N : Nat}

theorem and_maskN (hN : N ≤ 64) (y : BitVec 64) : (y &&& maskN N).toNat = y.toNat % 2 ^ N := by
  have hp : 2 ^ N ≤ 2 ^ 64 := Nat.pow_le_pow_right (by norm_num) hN
  have : 0 < 2 ^ N := by positivity
  rw [BitVec.toNat_and, maskN, BitVec.toNat_ofNat, Nat.mod_eq_of_lt (by omega),
    Nat.and_two_pow_sub_one_eq_mod]

theorem widened_toNat (hN : N ≤ 64) (x : BitVec N) : (x.setWidth 64).toNat = x.toNat := by
  have hp : 2 ^ N ≤ 2 ^ 64 := Nat.pow_le_pow_right (by norm_num) hN
  have := x.isLt
  rw [BitVec.toNat_setWidth, Nat.mod_eq_of_lt (by omega)]

theorem reference_numerator (hN : N ≤ 64) (x : BitVec N) :
    (reference N (x.setWidth 64)).numerator.toNat =
      (inner N x.toNat * x.toNat + 120) % 2 ^ N := by
  simp only [reference, and_maskN hN, BitVec.toNat_add, BitVec.toNat_mul, widened_toNat hN,
    BitVec.reduceToNat, mod_mod_pow hN, Nat.mod_add_mod, inner_eq]

theorem reference_denominator (hN : N ≤ 64) (x : BitVec N) :
    (reference N (x.setWidth 64)).denominator.toNat = divisor N x.toNat := by
  simp only [reference, and_maskN hN, BitVec.toNat_add, BitVec.toNat_mul, widened_toNat hN,
    BitVec.reduceToNat, mod_mod_pow hN, divisor_eq]

theorem toInt_of_toNat_lt {y : BitVec 64} (h : y.toNat < 2 ^ 63) : y.toInt = y.toNat :=
  BitVec.toInt_eq_toNat_of_lt (by omega)

theorem floorDivide_toNat {a b : BitVec 64} (ha : a.toNat < 2 ^ 63) (hb : b.toNat < 2 ^ 63) :
    (floorDivide a b).toNat = a.toNat / b.toNat := by
  have hq : a.toNat / b.toNat ≤ a.toNat := Nat.div_le_self ..
  rw [floorDivide, toInt_of_toNat_lt ha, toInt_of_toNat_lt hb,
    Int.fdiv_eq_ediv_of_nonneg _ (by simp), ← Int.natCast_ediv, BitVec.ofInt_natCast,
    BitVec.toNat_ofNat, Nat.mod_eq_of_lt (by omega)]

/-- The reference divides the lower half of the numerator. -/
theorem reference_quotient (hN : 8 ≤ N) (hN' : N ≤ 63) (x : BitVec N) :
    (reference N (x.setWidth 64)).quotient.toNat =
      (inner N x.toNat * x.toNat + 120) % 2 ^ N / divisor N x.toNat := by
  have hn := reference_numerator (by omega) x
  have hd := reference_denominator (by omega) x
  have hp : 2 ^ N ≤ 2 ^ 63 := Nat.pow_le_pow_right (by norm_num) hN'
  have hnlt := Nat.mod_lt (inner N x.toNat * x.toNat + 120) (show 2 ^ N > 0 by positivity)
  have hdlt : divisor N x.toNat < 2 ^ N := Nat.mod_lt _ (by positivity)
  have h0 := ne_zero_of_toNat hd (divisor_pos hN _)
  have hq : (reference N (x.setWidth 64)).quotient =
      floorDivide (reference N (x.setWidth 64)).numerator
        (reference N (x.setWidth 64)).denominator := if_pos h0
  rw [hq, floorDivide_toNat (by omega) (by omega), hn, hd]

theorem clampedRef_select {q : BitVec 64} (hq : q.toNat < 2 ^ 63) :
    (if overflowLimit N ≤ q.toInt then 0 else if 1 ≤ q.toInt then 1 else q).toInt =
      clamp N q.toNat := by
  have hi := toInt_of_toNat_lt hq
  have hneg : overflowLimit N ≤ q.toInt ↔ 2 ^ (N - 1) ≤ q.toNat := by
    rw [hi, overflowLimit]
    norm_cast
  rw [clamp]
  by_cases hm : 2 ^ (N - 1) ≤ q.toNat
  · rw [if_pos (hneg.2 hm), if_neg (by omega)]
    rfl
  · rw [if_neg (mt hneg.1 hm)]
    by_cases h1 : 1 ≤ q.toNat
    · rw [if_pos (by omega), if_pos ⟨by omega, h1⟩]
      rfl
    · rw [if_neg (by omega), if_neg (fun h => h1 h.2)]
      omega

/-- The reference output is the clamp of that quotient. -/
theorem clampedRef_toInt (hN : 8 ≤ N) (hN' : N ≤ 63) (x : BitVec N) :
    (reference N (x.setWidth 64)).clampedRef.toInt =
      clamp N ((inner N x.toNat * x.toNat + 120) % 2 ^ N / divisor N x.toNat) := by
  have hq := reference_quotient hN hN' x
  have hp : 2 ^ N ≤ 2 ^ 63 := Nat.pow_le_pow_right (by norm_num) hN'
  have hlt : (inner N x.toNat * x.toNat + 120) % 2 ^ N / divisor N x.toNat < 2 ^ N :=
    (Nat.div_le_self ..).trans_lt (Nat.mod_lt _ (by positivity))
  have hc := clampedRef_select (N := N) (q := (reference N (x.setWidth 64)).quotient) (by omega)
  rw [hq] at hc
  exact hc

end

/-! ## Acceptance -/

/-- `verify_fixed` accepts exactly the results that match the reference on every sample it
compares. -/
theorem verifyFixed_eq_true_iff {N : Nat} (xs results : List (BitVec N)) :
    verifyFixed xs results = true ↔ ∀ s ∈ List.zipWith sample xs results,
      overflowMask N s.ref = false → s.ref.clampedRef.toInt = s.actual := by
  have key : (∀ s ∈ List.zipWith sample xs results,
      overflowMask N s.ref = false → s.ref.clampedRef.toInt = s.actual) ↔
      ∀ s ∈ (List.zipWith sample xs results).filter fun s => !overflowMask N s.ref,
        s.ref.clampedRef.toInt = s.actual := by
    simp only [List.mem_filter, Bool.not_eq_true', and_imp]
  rw [key]
  simp only [verifyFixed, report]
  split
  · rename_i h
    rw [List.length_eq_zero_iff.mp h]
    simp [Report.accepted]
  · split
    · rename_i h
      have hm := List.filter_eq_nil_iff.mp (List.length_eq_zero_iff.mp h)
      simp only [Report.accepted, true_iff]
      intro s hs
      simpa using hm s hs
    · rename_i h
      simp only [Report.accepted, Bool.false_eq_true, false_iff]
      intro hall
      refine h (List.length_eq_zero_iff.mpr (List.filter_eq_nil_iff.mpr fun s hs => ?_))
      simpa using hall s hs

theorem not_wide_overflow (y : BitVec 64) : ¬ (2 : Int) ^ (2 * 32 - 1) ≤ y.toInt := by
  have := BitVec.two_mul_toInt_lt (x := y)
  omega

/-- The samples compared at width 32. The comparisons of full products with `2 ^ 63` never hold. -/
theorem overflowMask_eq_false_iff (x : BitVec 32) :
    overflowMask 32 (reference 32 (x.setWidth 64)) = false ↔
      (inner 32 x.toNat * x.toNat + 120) % 2 ^ 32 < 2 ^ 31 ∧ divisor 32 x.toNat < 2 ^ 31 := by
  have hn := reference_numerator (by omega) x
  have hd := reference_denominator (by omega) x
  have hdlt : divisor 32 x.toNat < 2 ^ 32 := Nat.mod_lt _ (by positivity)
  have hni := toInt_of_toNat_lt (y := (reference 32 (x.setWidth 64)).numerator) (by omega)
  have hdi := toInt_of_toNat_lt (y := (reference 32 (x.setWidth 64)).denominator) (by omega)
  simp only [overflowMask, not_wide_overflow, decide_false, Bool.false_or, Bool.or_eq_false_iff,
    decide_eq_false_iff_not, hni, hdi, hn, hd, overflowLimit]
  omega

theorem clamp_eq_one_iff {N n d : Nat} (hd : 0 < d) :
    clamp N (n / d) = 1 ↔ n < 2 ^ (N - 1) * d ∧ d ≤ n := by
  rw [← Nat.div_lt_iff_lt_mul hd, ← Nat.one_le_div_iff hd, clamp]
  split
  · rename_i h
    simp [h]
  · rename_i h
    simp [h]

theorem clamp_eq_clamp_iff {N q q' : Nat} :
    clamp N q = clamp N q' ↔ (clamp N q = 1 ↔ clamp N q' = 1) := by
  unfold clamp
  split <;> split <;> simp

/-- Dividing the lower half gives the same output when the numerator has no upper half; if it has
one, the pipeline outputs 1 for every quotient below `2 ^ 31`. -/
theorem clamp_low_eq_iff {p d : Nat} (hd : 0 < d) (hr : p % 2 ^ 32 < 2 ^ 31) (hd' : d < 2 ^ 31) :
    clamp 32 (p % 2 ^ 32 / d) = clamp 32 (p / d) ↔
      p < 2 ^ 32 ∨ (d ≤ p % 2 ^ 32 ↔ p < 2 ^ 31 * d) := by
  have hlow : p % 2 ^ 32 < 2 ^ 31 * d := by omega
  rw [clamp_eq_clamp_iff, clamp_eq_one_iff hd, clamp_eq_one_iff hd]
  by_cases hp : p < 2 ^ 32
  · rw [Nat.mod_eq_of_lt hp]
    exact iff_of_true Iff.rfl (.inl hp)
  · have hdp : d ≤ p := by omega
    simp only [hlow, hdp, hp, true_and, and_true, false_or]

/-! ## Runs of the serial pipeline -/

def Compared (x : BitVec 32) : Prop := overflowMask 32 (reference 32 (x.setWidth 64)) = false

instance (x : BitVec 32) : Decidable (Compared x) := inferInstanceAs (Decidable (_ = false))

/-- A run of the serial pipeline is verified: the reference of every compared sample whose quotient
fits is the clamped output, and if the quotients of all compared samples fit, `verify_fixed`
accepts. -/
def Verified (xs : List (BitVec 32)) (rows : List (SerialRow 32)) : Prop :=
  List.Forall₂ (fun x r => Compared x → r.Fits →
      (reference 32 (x.setWidth 64)).clampedRef.toInt = r.clamped.toNat) xs rows ∧
    (List.Forall₂ (fun x r => Compared x → r.Fits) xs rows →
      verifyFixed xs (rows.map SerialRow.clamped) = true)

/-- For a compared sample with a fitting quotient, the lower half of the numerator decides the
output. -/
def LowHalfDecides (x : Nat) : Prop :=
  let p := (x ^ 2 + 12 * x + 60) % 2 ^ 32 * x + 120
  let d := (24 * x ^ 2 + 240) % 2 ^ 32
  p % 2 ^ 32 < 2 ^ 31 → d < 2 ^ 31 → p / d < 2 ^ 32 →
    p < 2 ^ 32 ∨ (d ≤ p % 2 ^ 32 ↔ p < 2 ^ 31 * d)

theorem serialRow_fits_iff {N : Nat} (hN : 8 ≤ N) (A : SerialArithmetic N) (x : BitVec N) :
    (serialRow A x).Fits ↔
      (inner N x.toNat * x.toNat + 120) / divisor N x.toNat < 2 ^ N := by
  rw [SerialRow.Fits, ← serial_numerator hN A, ← serial_denominator hN A]
  rfl

theorem clampedRef_eq_iff (A : SerialArithmetic 32) (x : BitVec 32) :
    (Compared x → (serialRow A x).Fits →
      (reference 32 (x.setWidth 64)).clampedRef.toInt = (serialRow A x).clamped.toNat) ↔
    LowHalfDecides x.toNat := by
  have hd := divisor_pos (N := 32) (by norm_num) x.toNat
  have hn : (serialRow A x).numerator.toNat = inner 32 x.toNat * x.toNat + 120 :=
    serial_numerator (by norm_num) A x
  constructor
  · intro h hr hd' hf
    have hfit := (serialRow_fits_iff (by norm_num) A x).2 hf
    have he := h ((overflowMask_eq_false_iff x).2 ⟨hr, hd'⟩) hfit
    rw [clampedRef_toInt (by norm_num) (by norm_num), serialRow_clamped (by norm_num) A x hfit,
      hn] at he
    exact (clamp_low_eq_iff hd hr hd').1 (by exact_mod_cast he)
  · intro h hx hfit
    obtain ⟨hr, hd'⟩ := (overflowMask_eq_false_iff x).1 hx
    have he := h hr hd' ((serialRow_fits_iff (by norm_num) A x).1 hfit)
    rw [clampedRef_toInt (by norm_num) (by norm_num), serialRow_clamped (by norm_num) A x hfit, hn]
    exact_mod_cast (clamp_low_eq_iff hd hr hd').2 he

/-- **Every run of the serial pipeline on 32-bit inputs is verified exactly when the lower half of
the numerator decides the output of each of its samples.** -/
theorem verified_iff (A : SerialArithmetic 32) (xs : List (BitVec 32)) :
    Verified xs (runPipelineSerialFixed A xs) ↔ ∀ x ∈ xs, LowHalfDecides x.toNat := by
  rw [Verified, runPipelineSerialFixed_eq, List.forall₂_map_right_iff, List.forall₂_map_right_iff,
    List.forall₂_same, List.forall₂_same]
  simp only [clampedRef_eq_iff]
  refine ⟨And.left, fun h => ⟨h, fun hfit => ?_⟩⟩
  rw [verifyFixed_eq_true_iff, List.map_map, List.zipWith_map_right, List.zipWith_self]
  intro s hs hv
  obtain ⟨x, hx, rfl⟩ := List.mem_map.mp hs
  exact (clampedRef_eq_iff A x).2 (h x hx) hv (hfit x hx hv)

/-- At `x = 1622` the quotient is 68 and the pipeline outputs 1; the lower half of the numerator is
below the divisor, and `verify_fixed` rejects the run. -/
theorem verifyFixed_rejects :
    Compared 1622 ∧
      ((runPipelineSerialFixed (.exact 32) [1622]).map fun r =>
        (r.numerator.toNat, r.denominator.1.toNat, r.clamped.toNat)) =
          [(4298961896, 63141456, 1)] ∧
      (reference 32 1622).clampedRef = 0 ∧
      ¬ Verified [1622] (runPipelineSerialFixed (.exact 32) [1622]) := by
  refine ⟨by decide, by decide, by decide, fun h => ?_⟩
  have ha := h.2 (.cons (fun _ => show _ / _ < _ by decide) .nil)
  exact absurd ha (by decide)

end CimSigmoid.F6
