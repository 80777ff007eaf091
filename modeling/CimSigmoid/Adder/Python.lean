import CimSigmoid.Adder.AddApprox
import CimSigmoid.Bits.Unbounded

/-!
# The two Python models of the truncated adder

`Verify.addApprox` is `add_approx` of `truncated_adder/verify_truncated_adder.py`:
it masks and adds whole words. `Simulate.addApproxHw` is `add_approx_hw` of
`truncated_adder/simulate_python.py`: it ripples bit by bit and reassembles
the word. Both work on Python's unbounded integers, of which `&`, `|`, `^` and
`~` are `Int.land`, `Int.lor`, `Int.xor` and `Int.lnot`.

The bit-serial model is `ADD_APPROX` on the operands' low bits, for every
width and every number of approximate bits (`addApproxHw_eq`), and the masking
model is its 16-bit sum (`addApprox_eq_addApproxHw`).
-/

namespace CimSigmoid.Adder

open Bits

namespace Verify

def addApprox (a b approxBits : Int) : Int :=
  if approxBits ≥ 16 then 0
  else if approxBits ≤ 0 then (a + b).land 0xFFFF
  else
    let approxMask := ((1 : Int) <<< approxBits.toNat) - 1
    let accurateMask := approxMask.lnot.land 0xFFFF
    let aMsb := a.land accurateMask
    let bMsb := b.land accurateMask
    let approxSum := (aMsb + bMsb).land accurateMask
    approxSum.land 0xFFFF

end Verify

namespace Simulate

/-- A round of the loop at position `i`, given the carry: `s_i` and `c_out`. -/
def stage (a b approxBits : Int) (i : Nat) (carry : Int) : Int × Int :=
  let ai := (a >>> i).land 1
  let bi := (b >>> i).land 1
  if (i : Int) < approxBits then (0, 0)
  else ((ai.xor bi).xor carry, ((ai.land bi).lor (bi.land carry)).lor (ai.land carry))

/-- The first loop after `k` rounds: `sum_bits` and `carry`. -/
def rounds (a b cin : Int) (dataWidth : Nat) (approxBits : Int) : Nat → List Int × Int
  | 0 => (List.replicate dataWidth 0, cin.land 1)
  | i + 1 =>
    let (sumBits, carry) := rounds a b cin dataWidth approxBits i
    let (si, cOut) := stage a b approxBits i carry
    (sumBits.set i si, cOut)

def addApproxHw (a b cin : Int) (dataWidth : Nat) (approxBits : Int) : Int × Int :=
  let (sumBits, carry) := rounds a b cin dataWidth approxBits dataWidth
  ((List.range dataWidth).foldl (fun sumVal i => sumVal.lor (sumBits.getD i 0 <<< i)) 0, carry)

theorem stage_eq (a b approxBits : Int) (i : Nat) (c : Bool) :
    stage a b approxBits i c.toNat =
      (((adderStage approxBits.toNat i (a.testBit i) (b.testBit i) c).2.toNat : Int),
       ((adderStage approxBits.toNat i (a.testBit i) (b.testBit i) c).1.toNat : Int)) := by
  have hlt : (i : Int) < approxBits ↔ i < approxBits.toNat := by omega
  simp only [stage, shiftRight_land_one, adderStage, hlt]
  split
  · rfl
  · cases a.testBit i <;> cases b.testBit i <;> cases c <;> rfl

section

variable (a b cin : Int) (w : Nat) (approxBits : Int)

/-- `ADD_APPROX` on the low bits of the operands. -/
def word : Bool × BitVec w :=
  Adder.addApprox approxBits.toNat (BitVec.ofInt w a) (BitVec.ofInt w b) (cin.testBit 0)

def wordCarry (i : Nat) : Bool :=
  carryAt (adderStage approxBits.toNat) (BitVec.ofInt w a) (BitVec.ofInt w b) (cin.testBit 0) i

variable {w}

theorem stage_word {i : Nat} (hi : i < w) :
    stage a b approxBits i (wordCarry a b cin w approxBits i).toNat =
      ((((word a b cin w approxBits).2.getLsbD i).toNat : Int),
       ((wordCarry a b cin w approxBits (i + 1)).toNat : Int)) := by
  have hbit (x : Int) : (BitVec.ofInt w x).getLsbD i = x.testBit i := by
    rw [getLsbD_ofInt, decide_eq_true hi, Bool.true_and]
  rw [stage_eq, word, Adder.addApprox, chain_getLsbD _ _ _ _ hi, wordCarry, wordCarry, carryAt,
    hbit, hbit]

/-- After `k` rounds the carry is the one into position `k`, and the first `k` bits are the
word's. -/
theorem rounds_eq {k : Nat} (hk : k ≤ w) :
    (rounds a b cin w approxBits k).2 = (wordCarry a b cin w approxBits k).toNat ∧
    (rounds a b cin w approxBits k).1.length = w ∧
    ∀ i < k, (rounds a b cin w approxBits k).1.getD i 0 =
      ((word a b cin w approxBits).2.getLsbD i).toNat := by
  induction k with
  | zero => exact ⟨land_one cin, List.length_replicate, nofun⟩
  | succ k ih =>
    obtain ⟨hc, hlen, hbits⟩ := ih (by omega)
    simp only [rounds, hc, stage_word a b cin approxBits hk, List.length_set, hlen, true_and]
    intro i hi
    rcases Nat.lt_succ_iff_lt_or_eq.1 hi with h | rfl
    · rw [List.getD_eq_getElem?_getD, List.getElem?_set_ne (by omega),
        ← List.getD_eq_getElem?_getD, hbits i h]
    · rw [List.getD_eq_getElem?_getD, List.getElem?_set_self (by omega), Option.getD_some]

variable (w)

/-- **The bit-serial model is `ADD_APPROX`** on the low bits of the operands, for every width. -/
theorem addApproxHw_eq : addApproxHw a b cin w approxBits =
    (((word a b cin w approxBits).2.toNat : Int), ((word a b cin w approxBits).1.toNat : Int)) := by
  obtain ⟨hc, -, hbits⟩ := rounds_eq a b cin approxBits (Nat.le_refl w)
  have hfold := foldl_lor_bits (word a b cin w approxBits).2 w
  rw [toNat_mod_width] at hfold
  rw [← hfold]
  refine Prod.ext ?_ ?_
  · refine List.foldl_ext _ _ _ fun v i hi => ?_
    rw [hbits i (List.mem_range.1 hi)]
  · exact hc.trans (congrArg (fun c : Bool => (c.toNat : Int)) (chain_fst _ _ _ _).symm)

end

end Simulate

namespace Verify

theorem accurateMask_eq (k : Nat) : ∃ m : BitVec 16,
    (((1 : Int) <<< k) - 1).lnot.land 0xFFFF = m.toNat ∧
    ∀ i, m.getLsbD i = (decide (i < 16) && !decide (i < k)) := by
  refine ⟨BitVec.ofInt 16 (((1 : Int) <<< k) - 1).lnot &&& BitVec.allOnes 16,
    land_toNat _ (BitVec.allOnes 16), fun i => ?_⟩
  have hmask : ((1 : Int) <<< k) - 1 = ((2 ^ k - 1 : Nat) : Int) := by
    rw [Int.shiftLeft_eq, Nat.cast_sub Nat.one_le_two_pow]
    simp
  rw [BitVec.getLsbD_and, getLsbD_ofInt, Int.testBit_lnot, hmask, BitVec.getLsbD_allOnes]
  have : Int.testBit ((2 ^ k - 1 : Nat) : Int) i = decide (i < k) := Nat.testBit_two_pow_sub_one k i
  rw [this, Bool.and_comm, ← Bool.and_assoc, Bool.and_self]

/-- Masking the operands, adding and masking again is the sum of `ADD_APPROX`. -/
theorem mask_add_mask {m : BitVec 16} {k : Nat} (h0 : 0 < k) (hk : k ≤ 16)
    (hm : ∀ i, m.getLsbD i = (decide (i < 16) && !decide (i < k))) (a b : BitVec 16) (cin : Bool) :
    ((a &&& m) + (b &&& m)) &&& m = (Adder.addApprox k a b cin).2 := by
  apply BitVec.eq_of_toNat_eq
  rw [toNat_and_high _ hm, BitVec.toNat_add, toNat_and_high _ hm, toNat_and_high _ hm, sum_toNat,
    value_pos a b cin h0 hk, ← Nat.mul_add]
  have hdvd : 2 ^ k ∣ 2 ^ k * (a.toNat / 2 ^ k + b.toNat / 2 ^ k) % 2 ^ 16 :=
    (Nat.dvd_mod_iff (Nat.pow_dvd_pow 2 hk)).2 (Nat.dvd_mul_right _ _)
  exact Nat.mul_div_cancel' hdvd

end Verify

/-- **The two Python models agree**, on all integers and all numbers of approximate bits. -/
theorem addApprox_eq_addApproxHw (a b approxBits : Int) :
    Verify.addApprox a b approxBits = (Simulate.addApproxHw a b 0 16 approxBits).1 := by
  rw [Simulate.addApproxHw_eq]
  have hones (x : Int) : x.land 0xFFFF = (BitVec.ofInt 16 x).toNat := by
    rw [show (0xFFFF : Int) = (BitVec.allOnes 16).toNat from rfl, land_toNat, BitVec.and_allOnes]
  unfold Verify.addApprox
  split
  · -- every position is approximate
    rw [Simulate.word, sum_all_approx _ _ _ (by omega)]
    rfl
  split
  · -- none is
    rw [Simulate.word, sum_toNat, Int.toNat_of_nonpos ‹_›, value_zero, hones, BitVec.ofInt_add,
      BitVec.toNat_add]
    rfl
  · obtain ⟨m, hmask, hm⟩ := Verify.accurateMask_eq approxBits.toNat
    simp only [hmask, land_toNat, hones, BitVec.ofInt_add, ofInt_toNat]
    rw [Verify.mask_add_mask (by omega) (by omega) hm]
    rfl

end CimSigmoid.Adder
