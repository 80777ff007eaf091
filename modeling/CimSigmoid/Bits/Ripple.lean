import Mathlib.Data.BitVec
import Mathlib.Tactic.Ring
import Mathlib.Tactic.Linarith

/-!
# Ripple chains of one-bit cells

A cell takes one bit of each operand and the carry in, and gives the carry
out and the sum bit. `chain cell a b cin` chains `w` cells, which may differ
from position to position, over two `w`-bit operands.

`chain_full` accounts for a chain that is made of full adders from position
`n` on, whatever its first `n` cells are. `chain_zero` is what cells with
constant zero outputs leave of the first `n` positions.
-/

namespace CimSigmoid.Bits

/-- Operand bits and carry in, to carry out and sum bit. -/
abbrev Cell := Bool → Bool → Bool → Bool × Bool

def Cell.IsFull (f : Cell) : Prop :=
  ∀ x y c, (f x y c).2.toNat + 2 * (f x y c).1.toNat = x.toNat + y.toNat + c.toNat

def Cell.IsZero (f : Cell) : Prop := ∀ x y c, f x y c = (false, false)

section

variable {w : Nat} (cell : Nat → Cell) (a b : BitVec w) (cin : Bool)

/-- The carry into position `i`. -/
def carryAt : Nat → Bool
  | 0 => cin
  | i + 1 => (cell i (a.getLsbD i) (b.getLsbD i) (carryAt i)).1

def chain : Bool × BitVec w :=
  BitVec.iunfoldr (fun i c => cell i (a.getLsbD i) (b.getLsbD i) c) cin

theorem chain_fst : (chain cell a b cin).1 = carryAt cell a b cin w :=
  (BitVec.iunfoldr_getLsbD' (carryAt cell a b cin) fun _ => rfl).2

theorem chain_getLsbD {i : Nat} (hi : i < w) : (chain cell a b cin).2.getLsbD i =
    (cell i (a.getLsbD i) (b.getLsbD i) (carryAt cell a b cin i)).2 :=
  (BitVec.iunfoldr_getLsbD' (carryAt cell a b cin) fun _ => rfl).1 ⟨i, hi⟩

theorem toNat_mod_succ (x : BitVec w) (k : Nat) :
    x.toNat % 2 ^ (k + 1) = 2 ^ k * (x.getLsbD k).toNat + x.toNat % 2 ^ k := by
  rw [Nat.mod_pow_succ, Nat.add_comm, ← BitVec.testBit_toNat, Nat.toNat_testBit]

theorem toNat_mod_width (x : BitVec w) : x.toNat % 2 ^ w = x.toNat := Nat.mod_eq_of_lt x.isLt

variable {cell}

/-- A stretch of full adders from position `n` to `k` adds what the operands have there to the
carry that comes in. -/
theorem chain_full_upto {n k : Nat} (hnk : n ≤ k) (hk : k ≤ w)
    (h : ∀ i, n ≤ i → i < w → (cell i).IsFull) :
    2 ^ k * (carryAt cell a b cin k).toNat + (chain cell a b cin).2.toNat % 2 ^ k +
        (a.toNat % 2 ^ n + b.toNat % 2 ^ n) =
      2 ^ n * (carryAt cell a b cin n).toNat + (chain cell a b cin).2.toNat % 2 ^ n +
        (a.toNat % 2 ^ k + b.toNat % 2 ^ k) := by
  induction k, hnk using Nat.le_induction with
  | base => rfl
  | succ k hnk ih =>
    have hfull := h k hnk hk (a.getLsbD k) (b.getLsbD k) (carryAt cell a b cin k)
    have hsum := chain_getLsbD cell a b cin hk
    rw [← hsum] at hfull
    have hbit := congrArg (2 ^ k * ·) hfull
    simp only [toNat_mod_succ, carryAt] at ih hbit ⊢
    have hpow : 2 ^ (k + 1) = 2 * 2 ^ k := by ring
    rw [hpow]
    linarith [ih (by omega)]

theorem chain_full {n : Nat} (hn : n ≤ w) (h : ∀ i, n ≤ i → i < w → (cell i).IsFull) :
    2 ^ w * (chain cell a b cin).1.toNat + (chain cell a b cin).2.toNat +
        (a.toNat % 2 ^ n + b.toNat % 2 ^ n) =
      2 ^ n * (carryAt cell a b cin n).toNat + (chain cell a b cin).2.toNat % 2 ^ n +
        (a.toNat + b.toNat) := by
  have := chain_full_upto a b cin hn (Nat.le_refl w) h
  rwa [toNat_mod_width, toNat_mod_width, toNat_mod_width, ← chain_fst] at this

/-- **Zero cells up to position `n`** leave zeros and no carry. -/
theorem chain_zero {n : Nat} (hn : n ≤ w) (h : ∀ i, i < n → (cell i).IsZero) :
    (chain cell a b cin).2.toNat % 2 ^ n = 0 ∧ (0 < n → carryAt cell a b cin n = false) := by
  induction n with
  | zero => exact ⟨Nat.mod_one _, fun h => absurd h (Nat.lt_irrefl 0)⟩
  | succ n ih =>
    have hz := h n (Nat.lt_succ_self n) (a.getLsbD n) (b.getLsbD n) (carryAt cell a b cin n)
    obtain ⟨hlow, -⟩ := ih (by omega) fun i hi => h i (by omega)
    rw [toNat_mod_succ, hlow, chain_getLsbD cell a b cin hn, carryAt, hz]
    exact ⟨rfl, fun _ => rfl⟩

end

end CimSigmoid.Bits
