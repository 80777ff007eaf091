import Mathlib.Algebra.BigOperators.Group.List.Basic

/-!
# Bracketings of a binary operation

A bracketing says in which order and grouping an operation combines its operands. An
operation that first maps both operands by `t`, adds the images in a commutative monoid
and gives results that `t` leaves alone does not depend on it: `t` acts once on every
operand, at whatever depth it stands.
-/

namespace CimSigmoid.Trees

inductive Bracketing (α : Type*) where
  | leaf (a : α)
  | node (l r : Bracketing α)
  deriving DecidableEq, Repr

namespace Bracketing

variable {α : Type*}

def leaves : Bracketing α → List α
  | leaf a => [a]
  | node l r => l.leaves ++ r.leaves

def eval (op : α → α → α) : Bracketing α → α
  | leaf a => a
  | node l r => op (l.eval op) (r.eval op)

variable [AddCommMonoid α] {op : α → α → α} {t : α → α}

/-- Seen through `t`, an evaluation is the sum of its operands. -/
theorem map_eval (hop : ∀ a b, op a b = t a + t b) (ht : ∀ a b, t (op a b) = op a b)
    (b : Bracketing α) : t (b.eval op) = (b.leaves.map t).sum := by
  induction b with
  | leaf a => simp [eval, leaves]
  | node l r ihl ihr =>
    rw [eval, ht, hop, ihl, ihr, leaves, List.map_append, List.sum_append]

/-- With at least one operation the evaluation itself is that sum. -/
theorem eval_eq_sum (hop : ∀ a b, op a b = t a + t b) (ht : ∀ a b, t (op a b) = op a b)
    {b : Bracketing α} (hb : 2 ≤ b.leaves.length) : b.eval op = (b.leaves.map t).sum := by
  cases b with
  | leaf a => exact absurd hb (by simp [leaves])
  | node l r => rw [← map_eval hop ht, eval, ht]

/-- **Order and grouping do not matter.** -/
theorem eval_eq_of_perm (hop : ∀ a b, op a b = t a + t b) (ht : ∀ a b, t (op a b) = op a b)
    {b : Bracketing α} {xs : List α} (hxs : 2 ≤ xs.length) (hperm : b.leaves.Perm xs) :
    b.eval op = (xs.map t).sum := by
  rw [eval_eq_sum hop ht (hperm.length_eq ▸ hxs)]
  exact (hperm.map t).sum_eq

end Bracketing

end CimSigmoid.Trees
