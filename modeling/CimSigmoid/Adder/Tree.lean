import CimSigmoid.Adder.AddApprox
import CimSigmoid.Trees.Bracketing
import Mathlib.Data.BitVec
import Mathlib.Data.Nat.ModEq

/-!
# Trees of truncated additions

Several operands added with `ADD_APPROX`, without carry in and dropping the carry out.
The adder clears the low `n` bits of its operands and adds; its sum has them clear
already. So the order and the grouping of the additions do not matter, and the result
falls short by the low bits of every operand once.
-/

namespace CimSigmoid.Adder

open Trees

variable {m n : Nat}

/-- `ADD_APPROX` with `cin` low and `cout` open. -/
def addStep (n : Nat) (a b : BitVec m) : BitVec m := (addApprox n a b false).2

def addTree (n : Nat) (t : Bracketing (BitVec m)) : BitVec m := t.eval (addStep n)

def trunc (n : Nat) (a : BitVec m) : BitVec m := BitVec.ofNat m (2 ^ n * (a.toNat / 2 ^ n))

theorem trunc_toNat (n : Nat) (a : BitVec m) : (trunc n a).toNat = 2 ^ n * (a.toNat / 2 ^ n) := by
  rw [trunc, BitVec.toNat_ofNat]
  exact Nat.mod_eq_of_lt ((Nat.mul_div_le a.toNat (2 ^ n)).trans_lt a.isLt)

theorem addStep_eq (hn : n ≤ m) (a b : BitVec m) : addStep n a b = trunc n a + trunc n b := by
  apply BitVec.eq_of_toNat_eq
  rw [addStep, sum_toNat, BitVec.toNat_add, trunc_toNat, trunc_toNat, ← Nat.mul_add]
  rcases Nat.eq_zero_or_pos n with rfl | h0
  · rw [value_zero]
    simp
  · rw [value_pos a b false h0 hn]

theorem trunc_addStep (hn : n ≤ m) (a b : BitVec m) :
    trunc n (addStep n a b) = addStep n a b := by
  apply BitVec.eq_of_toNat_eq
  rw [trunc_toNat]
  apply Nat.mul_div_cancel'
  rw [addStep_eq hn, BitVec.toNat_add, trunc_toNat, trunc_toNat, ← Nat.mul_add]
  exact (Nat.dvd_mod_iff (Nat.pow_dvd_pow 2 hn)).mpr (Nat.dvd_mul_right _ _)

theorem sum_map_trunc_toNat (n : Nat) (xs : List (BitVec m)) :
    (xs.map (trunc n)).sum.toNat = 2 ^ n * (xs.map fun a => a.toNat / 2 ^ n).sum % 2 ^ m := by
  induction xs with
  | nil => simp
  | cons a xs ih =>
    rw [List.map_cons, List.sum_cons, BitVec.toNat_add, ih, trunc_toNat, Nat.add_mod_mod,
      List.map_cons, List.sum_cons, Nat.mul_add]

/-- Operands split into a multiple of `2 ^ n` and their low bits. -/
theorem sum_div_add_sum_mod (n : Nat) (xs : List (BitVec m)) :
    2 ^ n * (xs.map fun a => a.toNat / 2 ^ n).sum + (xs.map fun a => a.toNat % 2 ^ n).sum =
      (xs.map BitVec.toNat).sum := by
  induction xs with
  | nil => simp
  | cons a xs ih =>
    have ha := Nat.div_add_mod a.toNat (2 ^ n)
    simp only [List.map_cons, List.sum_cons, Nat.mul_add]
    omega

/-- **Trees of truncated additions.** However two or more operands are ordered and grouped, the
result is the sum of their truncations, and what it lacks is the low bits of each. -/
theorem addTree_value (hn : n ≤ m) {xs : List (BitVec m)} (hxs : 2 ≤ xs.length)
    {t : Bracketing (BitVec m)} (ht : t.leaves.Perm xs) :
    (addTree n t).toNat = 2 ^ n * (xs.map fun a => a.toNat / 2 ^ n).sum % 2 ^ m ∧
    (addTree n t).toNat + (xs.map fun a => a.toNat % 2 ^ n).sum ≡
      (xs.map BitVec.toNat).sum [MOD 2 ^ m] ∧
    ∀ t' : Bracketing (BitVec m), t'.leaves.Perm xs → addTree n t' = addTree n t := by
  have heval : ∀ t' : Bracketing (BitVec m), t'.leaves.Perm xs →
      addTree n t' = (xs.map (trunc n)).sum := fun t' ht' =>
    Bracketing.eval_eq_of_perm (addStep_eq hn) (trunc_addStep hn) hxs ht'
  have hvalue : (addTree n t).toNat = 2 ^ n * (xs.map fun a => a.toNat / 2 ^ n).sum % 2 ^ m := by
    rw [heval t ht]
    exact sum_map_trunc_toNat n xs
  refine ⟨hvalue, ?_, fun t' ht' => (heval t' ht').trans (heval t ht).symm⟩
  rw [hvalue, ← sum_div_add_sum_mod n xs]
  exact (Nat.mod_modEq _ _).add_right _

theorem addTree_value_three :
    addTree 2 (.node (.leaf (7#8)) (.node (.leaf (255#8)) (.leaf (14#8)))) = 12#8 ∧
    addTree 2 (.node (.node (.leaf (14#8)) (.leaf (7#8))) (.leaf (255#8))) = 12#8 := by
  have hperm : (Bracketing.node (.leaf (7#8)) (.node (.leaf (255#8)) (.leaf (14#8)))).leaves.Perm
      [7#8, 255#8, 14#8] := List.Perm.refl _
  have h := addTree_value (by decide : 2 ≤ 8) (by decide) hperm
  have hfirst : addTree 2 (.node (.leaf (7#8)) (.node (.leaf (255#8)) (.leaf (14#8)))) = 12#8 :=
    BitVec.eq_of_toNat_eq (h.1.trans (by decide))
  exact ⟨hfirst, (h.2.2 _ (by decide)).trans hfirst⟩

end CimSigmoid.Adder
