import Mathlib.Logic.Function.Basic
import Mathlib.Data.List.Basic

/-!
# Sequences of stores

A memory is a function from addresses to values; `stores l M` is `M` after
the stores `l`, first to last. A location that no store of `l` names keeps
its value (`stores_of_forall_ne`); one that `l` names, always with the same
value, has that value (`stores_of_forall_eq`). `updates f l M` changes the
locations `l` in place.
-/

namespace CimSigmoid.Mem

variable {A V : Type} [DecidableEq A]

def stores (l : List (A × V)) (M : A → V) : A → V :=
  l.foldl (fun M p => Function.update M p.1 p.2) M

theorem stores_cons (p : A × V) (l : List (A × V)) (M : A → V) :
    stores (p :: l) M = stores l (Function.update M p.1 p.2) := rfl

theorem stores_append (l₁ l₂ : List (A × V)) (M : A → V) :
    stores (l₁ ++ l₂) M = stores l₂ (stores l₁ M) := List.foldl_append

theorem stores_concat (l : List (A × V)) (p : A × V) (M : A → V) :
    stores (l ++ [p]) M = Function.update (stores l M) p.1 p.2 := stores_append l [p] M

/-- **Frame**: a location that is not stored to keeps its value. -/
theorem stores_of_forall_ne {l : List (A × V)} {M : A → V} {a : A} (h : ∀ p ∈ l, p.1 ≠ a) :
    stores l M a = M a := by
  induction l generalizing M with
  | nil => rfl
  | cons p l ih =>
    rw [stores_cons, ih fun q hq => h q (List.mem_cons_of_mem p hq)]
    exact Function.update_of_ne (h p List.mem_cons_self).symm _ _

theorem stores_of_forall_eq {l : List (A × V)} {M : A → V} {a : A} {v : V} (hm : (a, v) ∈ l)
    (h : ∀ p ∈ l, p.1 = a → p.2 = v) : stores l M a = v := by
  induction l generalizing M with
  | nil => cases hm
  | cons p l ih =>
    rw [stores_cons]
    have hl : ∀ q ∈ l, q.1 = a → q.2 = v := fun q hq => h q (List.mem_cons_of_mem p hq)
    by_cases hmem : (a, v) ∈ l
    · exact ih hmem hl
    · obtain rfl : (a, v) = p := (List.mem_cons.1 hm).resolve_right hmem
      rw [stores_of_forall_ne fun q hq hqa => hmem ?_]
      · exact Function.update_self ..
      · rwa [show (a, v) = q from Prod.ext hqa.symm (hl q hq hqa).symm]

/-- The values at the locations `l` replaced by their images under `f`, first to last. -/
def updates (f : V → V) (l : List A) (M : A → V) : A → V :=
  l.foldl (fun M a => Function.update M a (f (M a))) M

theorem updates_cons (f : V → V) (a : A) (l : List A) (M : A → V) :
    updates f (a :: l) M = updates f l (Function.update M a (f (M a))) := rfl

/-- With an idempotent `f`, a location may be listed more than once. -/
theorem updates_apply {f : V → V} (hf : ∀ v, f (f v) = f v) (l : List A) (M : A → V) (a : A) :
    updates f l M a = if a ∈ l then f (M a) else M a := by
  induction l generalizing M with
  | nil => rfl
  | cons b l ih =>
    rw [updates_cons, ih]
    by_cases hab : a = b
    · subst hab
      simp [hf]
    · simp [hab]

end CimSigmoid.Mem
