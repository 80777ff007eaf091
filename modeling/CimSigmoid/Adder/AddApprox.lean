import CimSigmoid.Bits.Ripple

/-!
# The truncated adder `ADD_APPROX`

`truncated_adder/ADD_APPROX.v` generates a ripple chain over `DATA_WIDTH` (`m`)
positions: the zero-truncation cell below `APPROX_BITS` (`n`), the full adder
from there on. Its outputs are the exact sum of the operands with their low
`n` bits cleared (`addApprox_value`); with `n` positive the carry in is lost
as well.
-/

namespace CimSigmoid.Adder

open Bits

def fullAdder1bit : Cell := fun a b cin => (a && b || b && cin || a && cin, a ^^ b ^^ cin)

def adderIMPACTZeroApproxOneBit : Cell := fun _ _ _ => (false, false)

/-- The cell generated at position `i`. -/
def adderStage (n i : Nat) : Cell := if i < n then adderIMPACTZeroApproxOneBit else fullAdder1bit

def addApprox {m : Nat} (n : Nat) (a b : BitVec m) (cin : Bool) : Bool × BitVec m :=
  chain (adderStage n) a b cin

theorem fullAdder1bit_isFull : fullAdder1bit.IsFull := by
  intro x y c
  cases x <;> cases y <;> cases c <;> rfl

theorem adderStage_isFull {n i : Nat} (h : n ≤ i) : (adderStage n i).IsFull := by
  rw [adderStage, if_neg (Nat.not_lt.2 h)]
  exact fullAdder1bit_isFull

theorem adderStage_isZero {n i : Nat} (h : i < n) : (adderStage n i).IsZero := by
  rw [adderStage, if_pos h]
  exact fun _ _ _ => rfl

def value {m : Nat} (r : Bool × BitVec m) : Nat := r.1.toNat * 2 ^ m + r.2.toNat

section

variable {m n : Nat} (a b : BitVec m) (cin : Bool)

theorem value_add_mod (hn : n ≤ m) :
    value (addApprox n a b cin) + (a.toNat % 2 ^ n + b.toNat % 2 ^ n) =
      2 ^ n * (carryAt (adderStage n) a b cin n).toNat + (addApprox n a b cin).2.toNat % 2 ^ n +
        (a.toNat + b.toNat) := by
  rw [value, Nat.mul_comm]
  exact chain_full a b cin hn fun i hi _ => adderStage_isFull hi

theorem value_zero : value (addApprox 0 a b cin) = a.toNat + b.toNat + cin.toNat := by
  have h := value_add_mod a b cin (Nat.zero_le m)
  simp only [Nat.pow_zero, Nat.mod_one, carryAt] at h
  omega

/-- What the truncation drops is what the operands have below bit `n`. -/
theorem value_add_low (h0 : 0 < n) (hn : n ≤ m) :
    value (addApprox n a b cin) + (a.toNat % 2 ^ n + b.toNat % 2 ^ n) = a.toNat + b.toNat := by
  obtain ⟨hlow, hc⟩ : (addApprox n a b cin).2.toNat % 2 ^ n = 0 ∧ _ :=
    chain_zero a b cin hn fun i hi => adderStage_isZero hi
  rw [value_add_mod a b cin hn, hlow, hc h0]
  simp

theorem value_pos (h0 : 0 < n) (hn : n ≤ m) :
    value (addApprox n a b cin) = 2 ^ n * (a.toNat / 2 ^ n + b.toNat / 2 ^ n) := by
  have h := value_add_low a b cin h0 hn
  have ha := Nat.div_add_mod a.toNat (2 ^ n)
  have hb := Nat.div_add_mod b.toNat (2 ^ n)
  rw [Nat.mul_add]
  omega

theorem sum_toNat : (addApprox n a b cin).2.toNat = value (addApprox n a b cin) % 2 ^ m := by
  rw [value, Nat.mul_add_mod_self_right, Nat.mod_eq_of_lt (addApprox n a b cin).2.isLt]

theorem sum_all_approx (hn : m ≤ n) : (addApprox n a b cin).2.toNat = 0 := by
  have hzero : ∀ i, i < m → (adderStage n i).IsZero := fun i hi => adderStage_isZero (by omega)
  rw [← toNat_mod_width (addApprox n a b cin).2]
  exact (chain_zero a b cin (Nat.le_refl m) hzero).1

theorem low_le (x y : Nat) : x % 2 ^ n + y % 2 ^ n + cin.toNat ≤ 2 ^ (n + 1) - 1 := by
  have hx := Nat.mod_lt x (Nat.two_pow_pos n)
  have hy := Nat.mod_lt y (Nat.two_pow_pos n)
  have hc := Bool.toNat_le cin
  rw [Nat.pow_succ]
  omega

end

/-- **The truncated adder.** Exact for `n = 0`; for `n` positive the sum of the operands without
their low `n` bits, which falls short of the exact result by those bits and the carry in. -/
theorem addApprox_value {m n : Nat} (hn : n ≤ m) (a b : BitVec m) (cin : Bool) :
    (n = 0 → value (addApprox n a b cin) = a.toNat + b.toNat + cin.toNat) ∧
    (1 ≤ n →
      value (addApprox n a b cin) = 2 ^ n * (a.toNat / 2 ^ n + b.toNat / 2 ^ n) ∧
      a.toNat + b.toNat + cin.toNat = value (addApprox n a b cin) +
        (a.toNat % 2 ^ n + b.toNat % 2 ^ n + cin.toNat) ∧
      a.toNat % 2 ^ n + b.toNat % 2 ^ n + cin.toNat ≤ 2 ^ (n + 1) - 1) ∧
    value (addApprox n a b cin) ≤ a.toNat + b.toNat + cin.toNat := by
  have hpos : 1 ≤ n → a.toNat + b.toNat + cin.toNat = value (addApprox n a b cin) +
      (a.toNat % 2 ^ n + b.toNat % 2 ^ n + cin.toNat) := by
    intro h
    have := value_add_low a b cin h hn
    omega
  refine ⟨?_, fun h => ⟨value_pos a b cin h hn, hpos h, low_le cin _ _⟩, ?_⟩
  · rintro rfl
    exact value_zero a b cin
  · rcases Nat.eq_zero_or_pos n with rfl | h
    · rw [value_zero]
    · rw [hpos h]
      exact Nat.le_add_right _ _

theorem addApprox_value_sixteen : value (addApprox 4 (0x0FFF#16) (0x0001#16) true) = 0x0FF0 := by
  rw [((addApprox_value (by decide) (0x0FFF#16) (0x0001#16) true).2.1 (by decide)).1]
  decide

end CimSigmoid.Adder
