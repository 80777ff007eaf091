import Mathlib.Data.Finset.Basic
import Mathlib.Data.List.Nodup

/-!
# First-fit pools of cells

A pool hands out cells of a fixed list, first those that stand first in it, and takes
them back in any order. `first k` are the `k` cells the next request of `k` gets. A
client that may at some time hold all of `C` and ask for `m` more cells stays inside
`first (C.length + m)` of the pool it started from (`first_alloc_subset`), so the number
of cells that a client needs bounds the part of the pool that it touches.
-/

namespace CimSigmoid.Mem

theorem take_filter_subset {K : Type} {p : K → Bool} (l : List K) (m : Nat) :
    ∀ c ∈ (l.filter p).take m, c ∈ l.take ((l.filter fun c => !p c).length + m) := by
  induction l generalizing m with
  | nil => simp
  | cons a l ih =>
    intro c hc
    cases hp : p a with
    | true =>
      simp only [List.filter_cons, hp, if_pos, Bool.not_true, Bool.false_eq_true, if_false] at hc ⊢
      cases m with
      | zero => simp at hc
      | succ m =>
        rw [← Nat.add_assoc, List.take_succ_cons]
        rw [List.take_succ_cons] at hc
        rcases List.mem_cons.mp hc with rfl | hc
        · exact List.mem_cons_self
        · exact List.mem_cons_of_mem _ (ih m c hc)
    | false =>
      simp only [List.filter_cons, hp, Bool.not_false, if_pos, Bool.false_eq_true, if_false,
        List.length_cons] at hc ⊢
      rw [Nat.add_right_comm, List.take_succ_cons]
      exact List.mem_cons_of_mem _ (ih m c hc)

/-- Cells to hand out, and those that are taken. -/
structure Pool (K : Type) [DecidableEq K] where
  cells : List K
  nodup : cells.Nodup
  allocated : Finset K

namespace Pool

variable {K : Type} [DecidableEq K]

@[ext]
theorem ext {P P' : Pool K} (hc : P.cells = P'.cells) (ha : P.allocated = P'.allocated) :
    P = P' := by
  cases P
  cases P'
  cases hc
  cases ha
  rfl

def free (P : Pool K) : List K := P.cells.filter (· ∉ P.allocated)

/-- The cells that a request of `k` gets. -/
def first (P : Pool K) (k : Nat) : List K := P.free.take k

def alloc (P : Pool K) (C : List K) : Pool K := { P with allocated := P.allocated ∪ C.toFinset }

def release (P : Pool K) (C : List K) : Pool K := { P with allocated := P.allocated \ C.toFinset }

variable {P : Pool K} {C D : List K} {c : K} {k m : Nat}

theorem mem_free : c ∈ P.free ↔ c ∈ P.cells ∧ c ∉ P.allocated := by simp [free]

theorem nodup_free : P.free.Nodup := P.nodup.filter _

theorem nodup_first : (P.first k).Nodup := nodup_free.sublist (List.take_sublist ..)

theorem mem_free_of_first (h : c ∈ P.first k) : c ∈ P.free := List.mem_of_mem_take h

theorem length_first (h : k ≤ P.free.length) : (P.first k).length = k := by
  rw [first, List.length_take, Nat.min_eq_left h]

theorem first_mono (h : k ≤ m) (hc : c ∈ P.first k) : c ∈ P.first m :=
  (List.take_sublist_take_left h).subset hc

theorem free_alloc : (P.alloc C).free = P.free.filter (· ∉ C) := by
  simp only [free, alloc, List.filter_filter]
  refine List.filter_congr fun c _ => ?_
  simp only [Finset.mem_union, List.mem_toFinset, not_or, Bool.decide_and, Bool.and_comm]

theorem mem_free_alloc : c ∈ (P.alloc C).free ↔ c ∈ P.free ∧ c ∉ C := by
  simp [free_alloc]

theorem length_filter_mem_le : (P.free.filter (· ∈ C)).length ≤ C.length := by
  refine (List.Nodup.subperm (nodup_free.filter _) fun c hc => ?_).length_le
  exact of_decide_eq_true (List.mem_filter.mp hc).2

/-- Taking `C` costs at most its length. -/
theorem length_free_alloc : P.free.length ≤ C.length + (P.alloc C).free.length := by
  have hsplit := List.length_eq_length_filter_add (l := P.free) (· ∈ C)
  have hle := length_filter_mem_le (P := P) (C := C)
  rw [free_alloc]
  simp only [decide_not] at hsplit ⊢
  omega

/-- **What `m` cells beside `C` reach**, seen from the pool before `C` was taken. -/
theorem first_alloc_subset (h : c ∈ (P.alloc C).first m) : c ∈ P.first (C.length + m) := by
  have hle := length_filter_mem_le (P := P) (C := C)
  rw [first, free_alloc] at h
  have := take_filter_subset _ _ c h
  simp only [decide_not, Bool.not_not] at this
  exact first_mono (by omega) this

theorem alloc_comm : (P.alloc C).alloc D = (P.alloc D).alloc C := by
  ext <;> simp [alloc, or_comm]

theorem release_alloc (h : ∀ c ∈ C, c ∉ P.allocated) : (P.alloc C).release C = P := by
  ext c
  · rfl
  · simp only [alloc, release, Finset.mem_sdiff, Finset.mem_union, List.mem_toFinset]
    constructor
    · rintro ⟨h1 | h1, h2⟩
      · exact h1
      · exact absurd h1 h2
    · exact fun h1 => ⟨.inl h1, fun h2 => h c h2 h1⟩

end Pool

end CimSigmoid.Mem
