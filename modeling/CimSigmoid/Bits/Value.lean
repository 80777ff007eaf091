import Mathlib.Data.BitVec
import Mathlib.Tactic.Ring
import Mathlib.Tactic.Linarith

/-!
# Numbers given by their bits

`bitsValue n b` is the number with the bits `b 0`, …, `b (n - 1)`, lowest first. A
number laid out over cells is `bitsValue` of their contents; slices, fills and
complements of the layout are sums of such numbers.
-/

namespace CimSigmoid.Bits

def bitsValue : Nat → (Nat → Bool) → Nat
  | 0, _ => 0
  | n + 1, b => bitsValue n b + 2 ^ n * (b n).toNat

variable {n : Nat} {b c : Nat → Bool}

theorem bitsValue_congr (h : ∀ i < n, b i = c i) : bitsValue n b = bitsValue n c := by
  induction n with
  | zero => rfl
  | succ n ih => rw [bitsValue, bitsValue, ih fun i hi => h i (by omega), h n (by omega)]

theorem bitsValue_lt (n : Nat) (b : Nat → Bool) : bitsValue n b < 2 ^ n := by
  induction n with
  | zero => exact Nat.one_pos
  | succ n ih =>
    have hb := Bool.toNat_le (b n)
    have hm := Nat.mul_le_mul_left (2 ^ n) hb
    rw [bitsValue, Nat.pow_succ]
    omega

theorem bitsValue_add (m n : Nat) (b : Nat → Bool) :
    bitsValue (m + n) b = bitsValue m b + 2 ^ m * bitsValue n fun i => b (m + i) := by
  induction n with
  | zero => rfl
  | succ n ih => rw [← Nat.add_assoc, bitsValue, ih, bitsValue, Nat.pow_add]; ring

theorem bitsValue_false (n : Nat) : (bitsValue n fun _ => false) = 0 := by
  induction n with
  | zero => rfl
  | succ n ih => rw [bitsValue, ih]; rfl

theorem bitsValue_fill {m : Nat} (hmn : m ≤ n) (h : ∀ i, m ≤ i → i < n → b i = false) :
    bitsValue n b = bitsValue m b := by
  obtain ⟨k, rfl⟩ := Nat.exists_eq_add_of_le hmn
  rw [bitsValue_add, bitsValue_congr (c := fun _ => false) fun i hi => h (m + i) (by omega) (by omega),
    bitsValue_false, Nat.mul_zero, Nat.add_zero]

theorem bitsValue_eq_zero : bitsValue n b = 0 ↔ ∀ i < n, b i = false := by
  induction n with
  | zero => exact ⟨fun _ i hi => absurd hi (Nat.not_lt_zero i), fun _ => rfl⟩
  | succ n ih =>
    have hp := Nat.two_pow_pos n
    rw [bitsValue, Nat.add_eq_zero_iff, ih, Nat.mul_eq_zero, Bool.toNat_eq_zero]
    refine ⟨fun ⟨hlow, htop⟩ i hi => ?_, fun h => ⟨fun i hi => h i (by omega), .inr (h n (by omega))⟩⟩
    rcases Nat.lt_or_eq_of_le (Nat.le_of_lt_succ hi) with hi | rfl
    · exact hlow i hi
    · exact htop.resolve_left (by omega)

theorem bitsValue_not (n : Nat) (b : Nat → Bool) :
    (bitsValue n fun i => !b i) + bitsValue n b + 1 = 2 ^ n := by
  induction n with
  | zero => rfl
  | succ n ih =>
    rw [bitsValue, bitsValue, Nat.pow_succ]
    cases b n <;> simp only [Bool.not_true, Bool.not_false, Bool.toNat_true, Bool.toNat_false] <;>
      omega

theorem bitsValue_and (n : Nat) (b : Nat → Bool) (c : Bool) :
    (bitsValue n fun i => b i && c) = bitsValue n b * c.toNat := by
  cases c with
  | false => simp [bitsValue_false]
  | true => simp

theorem bitsValue_testBit (n v : Nat) : bitsValue n v.testBit = v % 2 ^ n := by
  induction n with
  | zero => rw [bitsValue, Nat.pow_zero, Nat.mod_one]
  | succ n ih => rw [bitsValue, ih, Nat.mod_pow_succ, Nat.toNat_testBit]

theorem testBit_bitsValue {i : Nat} (hi : i < n) : (bitsValue n b).testBit i = b i := by
  induction n with
  | zero => omega
  | succ n ih =>
    rw [bitsValue, Nat.add_comm]
    rcases Nat.lt_or_eq_of_le (Nat.le_of_lt_succ hi) with h | rfl
    · rw [Nat.testBit_two_pow_mul_add _ (bitsValue_lt n b), if_pos h, ih h]
    · rw [Nat.testBit_two_pow_mul_add _ (bitsValue_lt i b), if_neg (Nat.lt_irrefl i), Nat.sub_self]
      cases b i <;> rfl

theorem bitsValue_getLsbD {w : Nat} (x : BitVec w) : bitsValue w x.getLsbD = x.toNat := by
  have h : x.getLsbD = x.toNat.testBit := funext fun i => (BitVec.testBit_toNat x).symm
  rw [h, bitsValue_testBit, Nat.mod_eq_of_lt x.isLt]

/-- The top bit of a number is set when the number is at least half its range. -/
theorem bitsValue_msb (n : Nat) (b : Nat → Bool) :
    b n = decide (2 ^ n ≤ bitsValue (n + 1) b) := by
  have h := bitsValue_lt n b
  rw [bitsValue]
  cases b n with
  | false => simp [h]
  | true => simp

end CimSigmoid.Bits
