import CimSigmoid.Bits.Ripple
import Mathlib.Data.Int.Bitwise

/-!
# Unbounded two's-complement integers and words

A program over unbounded integers reads single bits (`(a >> i) & 1`), masks
(`a & m`) and reassembles words (`v |= bit << i`). Each is an operation on the
word `BitVec.ofInt w a`, which holds the low `w` bits of `a`.
-/

namespace CimSigmoid.Bits

variable {w : Nat}

theorem getLsbD_ofInt (a : Int) (i : Nat) :
    (BitVec.ofInt w a).getLsbD i = (decide (i < w) && a.testBit i) := by
  cases a with
  | ofNat m => exact BitVec.getLsbD_ofNat w m i
  | negSucc m =>
    rw [BitVec.ofInt_negSucc_eq_not_ofNat, BitVec.getLsbD_not, BitVec.getLsbD_ofNat, Int.testBit]
    cases decide (i < w) <;> rfl

theorem ofInt_toNat (x : BitVec w) : BitVec.ofInt w x.toNat = x := by
  rw [BitVec.ofInt_natCast, BitVec.ofNat_toNat, BitVec.setWidth_eq]

theorem testBit_shiftRight (a : Int) (i j : Nat) : (a >>> i).testBit j = a.testBit (i + j) := by
  cases a with
  | ofNat m => exact Nat.testBit_shiftRight m
  | negSucc m => exact congrArg not (Nat.testBit_shiftRight m)

/-- A natural mask leaves a natural number, known by its bits. -/
theorem land_eq {a : Int} {m r : Nat} (h : ∀ i, r.testBit i = (a.testBit i && m.testBit i)) :
    a.land m = r := by
  cases a with
  | ofNat n =>
    refine congrArg Int.ofNat (Nat.eq_of_testBit_eq fun i => ?_)
    rw [Nat.testBit_and, h, Int.testBit]
  | negSucc n =>
    refine congrArg Int.ofNat (Nat.eq_of_testBit_eq fun i => ?_)
    rw [Nat.testBit_ldiff, h, Int.testBit, Bool.and_comm]

theorem land_one (a : Int) : a.land 1 = (a.testBit 0).toNat := by
  refine land_eq (m := 1) fun i => ?_
  cases i with
  | zero => cases a.testBit 0 <;> rfl
  | succ i => cases a.testBit 0 <;> simp [Nat.testBit_succ]

theorem shiftRight_land_one (a : Int) (i : Nat) : (a >>> i).land 1 = (a.testBit i).toNat := by
  rw [land_one, testBit_shiftRight, Nat.add_zero]

/-- A mask of `w` bits looks at the low `w` bits only. -/
theorem land_toNat (a : Int) (m : BitVec w) :
    a.land m.toNat = (BitVec.ofInt w a &&& m).toNat := by
  refine land_eq fun i => ?_
  rw [BitVec.testBit_toNat, BitVec.getLsbD_and, getLsbD_ofInt, BitVec.testBit_toNat]
  by_cases hi : i < w
  · simp [hi]
  · simp [BitVec.getLsbD_of_ge m i (Nat.not_lt.1 hi)]

theorem toNat_and_high (x : BitVec w) {m : BitVec w} {n : Nat}
    (hm : ∀ i, m.getLsbD i = (decide (i < w) && !decide (i < n))) :
    (x &&& m).toNat = 2 ^ n * (x.toNat / 2 ^ n) := by
  apply Nat.eq_of_testBit_eq
  intro i
  rw [Nat.testBit_two_pow_mul, Nat.testBit_div_two_pow, BitVec.testBit_toNat, BitVec.testBit_toNat,
    BitVec.getLsbD_and, hm]
  by_cases hn : i < n
  · simp [hn]
  · rw [Nat.sub_add_cancel (Nat.not_lt.1 hn)]
    by_cases hi : i < w
    · simp [hi, Nat.not_lt.1 hn]
    · simp [BitVec.getLsbD_of_ge x i (Nat.not_lt.1 hi)]

/-- `v |= bit << i` for the bits of a word, from bit 0 up, gives the word. -/
theorem foldl_lor_bits (x : BitVec w) : ∀ k,
    (List.range k).foldl (fun v i => v.lor (((x.getLsbD i).toNat : Int) <<< i)) 0 =
      ((x.toNat % 2 ^ k : Nat) : Int)
  | 0 => by simp [Nat.mod_one]
  | k + 1 => by
    have hlow : x.toNat % 2 ^ k < 2 ^ k := Nat.mod_lt _ (Nat.two_pow_pos k)
    have hor := Nat.shiftLeft_add_eq_or_of_lt hlow (x.getLsbD k).toNat
    rw [List.range_succ, List.foldl_concat, foldl_lor_bits x k, toNat_mod_succ, Nat.mul_comm,
      ← Nat.shiftLeft_eq, hor, Nat.or_comm]
    rfl

end CimSigmoid.Bits
