import Mathlib.Data.Finset.Prod
import Mathlib.Data.List.Nodup

/-!
# First-fit pools over banks

Every bank has the same cells, and a request names the banks in which it wants its cells:
it gets the first cells that are free in all of them. Requests for different banks may
share a cell, so what is taken is a set of pairs.

A client of some of the banks may use a cell that another bank has taken. What bounds the
cells it reaches is not how many are free for it, but how many are free everywhere:
`Within k c` says that fewer than `k` such cells stand before `c`. A request of `k` cells
stays within `k` (`within_first`), and taking the cells `D` costs at most their number
(`within_alloc`, `available_alloc`).
-/

namespace CimSigmoid.Mem

/-- The cells of every bank, and those that are taken. -/
structure Banked (B C : Type) [DecidableEq B] [DecidableEq C] where
  cells : List C
  nodup : cells.Nodup
  banks : List B
  taken : Finset (B × C)

namespace Banked

variable {B C : Type} [DecidableEq B] [DecidableEq C]

@[ext]
theorem ext {P P' : Banked B C} (hc : P.cells = P'.cells) (hb : P.banks = P'.banks)
    (ht : P.taken = P'.taken) : P = P' := by
  cases P
  cases P'
  cases hc
  cases hb
  cases ht
  rfl

def free (P : Banked B C) (S : List B) : List C :=
  P.cells.filter fun c => ∀ b ∈ S, (b, c) ∉ P.taken

/-- The cells that a request of `k` in the banks `S` gets. -/
def first (P : Banked B C) (S : List B) (k : Nat) : List C := (P.free S).take k

def alloc (P : Banked B C) (X : Finset (B × C)) : Banked B C := { P with taken := P.taken ∪ X }

def release (P : Banked B C) (X : Finset (B × C)) : Banked B C := { P with taken := P.taken \ X }

def block (S : List B) (D : List C) : Finset (B × C) := S.toFinset ×ˢ D.toFinset

/-- The cell `c` of bank `b` may be handed out. -/
def Open (P : Banked B C) (b : B) (c : C) : Prop := b ∈ P.banks ∧ c ∈ P.cells ∧ (b, c) ∉ P.taken

def available (P : Banked B C) : Nat := P.cells.countP (· ∈ P.free P.banks)

/-- Fewer than `k` cells that are free in every bank stand before `c`. -/
def Within (P : Banked B C) (k : Nat) (c : C) : Prop :=
  (P.cells.takeWhile (· ≠ c)).countP (· ∈ P.free P.banks) < k

variable {P : Banked B C} {S T : List B} {X Y : Finset (B × C)} {D : List C} {b : B} {c : C}
  {k m : Nat}

theorem mem_free : c ∈ P.free S ↔ c ∈ P.cells ∧ ∀ b ∈ S, (b, c) ∉ P.taken := by simp [free]

theorem nodup_first : (P.first S k).Nodup :=
  (P.nodup.filter _).sublist (List.take_sublist ..)

theorem mem_block : (b, c) ∈ block S D ↔ b ∈ S ∧ c ∈ D := by simp [block]

theorem free_sublist (h : S ⊆ T) : (P.free T).Sublist (P.free S) := by
  refine List.monotone_filter_right _ fun c hc => ?_
  simp only [decide_eq_true_eq] at hc ⊢
  exact fun b hb => hc b (h hb)

theorem length_first (hS : S ⊆ P.banks) (h : k ≤ P.available) : (P.first S k).length = k := by
  have hlen : P.available ≤ (P.free S).length := by
    rw [available, List.countP_eq_length_filter]
    refine List.Sublist.length_le ?_
    refine List.Sublist.trans ?_ (free_sublist hS)
    rw [free]
    refine List.monotone_filter_right _ fun c hc => ?_
    simpa using (mem_free.mp (of_decide_eq_true hc)).2
  rw [first, List.length_take, Nat.min_eq_left (h.trans hlen)]

theorem open_of_first (hS : S ⊆ P.banks) (hc : c ∈ P.first S k) (hb : b ∈ S) : P.Open b c := by
  obtain ⟨h, h'⟩ := mem_free.mp (List.mem_of_mem_take hc)
  exact ⟨hS hb, h, h' b hb⟩

theorem Within.mono (h : P.Within k c) (hkm : k ≤ m) : P.Within m c := Nat.lt_of_lt_of_le h hkm

theorem countP_takeWhile_lt {p q : C → Bool} (hqp : ∀ d, q d = true → p d = true) (l : List C)
    (k : Nat) (h : c ∈ (l.filter p).take k) : (l.takeWhile (· ≠ c)).countP q < k := by
  induction l generalizing k with
  | nil => simp at h
  | cons a l ih =>
    have hk : 0 < k := by
      rcases k with _ | k
      · simp at h
      · exact Nat.succ_pos k
    by_cases hac : a = c
    · simpa [hac] using hk
    · rw [List.takeWhile_cons_of_pos (by simpa using hac), List.countP_cons]
      cases hp : p a with
      | true =>
        rw [List.filter_cons_of_pos hp, List.take_cons hk] at h
        have := ih (k - 1) ((List.mem_cons.mp h).resolve_left (Ne.symm hac))
        split <;> omega
      | false =>
        rw [List.filter_cons_of_neg (by simp [hp])] at h
        have hq : ¬q a = true := fun hq => by simp [hqp a hq] at hp
        rw [if_neg hq]
        exact ih k h

/-- **What a request reaches.** -/
theorem within_first (hS : S ⊆ P.banks) (hc : c ∈ P.first S k) : P.Within k c := by
  refine countP_takeWhile_lt (fun d hd => ?_) P.cells k hc
  have := (mem_free.mp (of_decide_eq_true hd)).2
  exact decide_eq_true fun b hb => this b (hS hb)

theorem countP_le_add {p q : C → Bool} {l : List C} (hl : l.Nodup)
    (h : ∀ d ∈ l, p d = true → q d = true ∨ d ∈ D) : l.countP p ≤ D.length + l.countP q := by
  have hD : (l.filter (· ∈ D)).length ≤ D.length :=
    (List.Nodup.subperm (hl.filter _) fun d hd => of_decide_eq_true (List.mem_filter.mp hd).2).length_le
  have hpq : l.countP p ≤ l.countP (· ∈ D) + l.countP q := by
    clear hD
    induction l with
    | nil => simp
    | cons a l ih =>
      have ha := h a List.mem_cons_self
      have := ih (List.nodup_cons.mp hl).2 fun d hd => h d (List.mem_cons_of_mem _ hd)
      simp only [List.countP_cons, decide_eq_true_eq]
      by_cases hp : p a = true
      · rcases ha hp with hq | hD
        · rw [if_pos hp, if_pos hq]
          omega
        · rw [if_pos hp, if_pos hD]
          omega
      · rw [if_neg hp]
        omega
  rw [List.countP_eq_length_filter (p := fun d => decide (d ∈ D))] at hpq
  omega

theorem free_alloc_or (hX : ∀ e ∈ X, e.2 ∈ D) {d : C} (hd : d ∈ P.free P.banks) :
    d ∈ (P.alloc X).free (P.alloc X).banks ∨ d ∈ D := by
  by_cases h : d ∈ D
  · exact .inr h
  · obtain ⟨hd, hd'⟩ := mem_free.mp hd
    refine .inl (mem_free.mpr ⟨hd, fun b hb hm => ?_⟩)
    rcases Finset.mem_union.mp hm with hm | hm
    · exact hd' b hb hm
    · exact h (hX _ hm)

/-- Taking cells of `D` costs at most their number. -/
theorem available_alloc (hX : ∀ e ∈ X, e.2 ∈ D) : P.available ≤ D.length + (P.alloc X).available :=
  countP_le_add P.nodup fun _ _ hd =>
    (free_alloc_or hX (of_decide_eq_true hd)).imp_left decide_eq_true

/-- **What `k` cells beside `D` reach**, seen from the pool before `D` was taken. -/
theorem within_alloc (hX : ∀ e ∈ X, e.2 ∈ D) (h : (P.alloc X).Within k c) :
    P.Within (D.length + k) c := by
  have := countP_le_add (D := D) (p := (· ∈ P.free P.banks))
    (q := (· ∈ (P.alloc X).free (P.alloc X).banks))
    (P.nodup.sublist (List.takeWhile_sublist (· ≠ c)))
    fun _ _ hd => (free_alloc_or hX (of_decide_eq_true hd)).imp_left decide_eq_true
  have h' : (P.cells.takeWhile (· ≠ c)).countP (· ∈ (P.alloc X).free (P.alloc X).banks) < k := h
  show (P.cells.takeWhile (· ≠ c)).countP (· ∈ P.free P.banks) < D.length + k
  omega

theorem Open.of_alloc (h : (P.alloc X).Open b c) : P.Open b c :=
  ⟨h.1, h.2.1, fun h' => h.2.2 (Finset.mem_union_left _ h')⟩

theorem open_alloc : (P.alloc X).Open b c ↔ P.Open b c ∧ (b, c) ∉ X := by
  simp only [Open, alloc, Finset.mem_union, not_or]
  tauto

theorem alloc_alloc : (P.alloc X).alloc Y = P.alloc (X ∪ Y) := by
  ext e
  · rfl
  · rfl
  · simp [alloc]

theorem alloc_empty : P.alloc ∅ = P := by
  ext e
  · rfl
  · rfl
  · simp [alloc]

theorem release_alloc (h : ∀ e ∈ Y, e ∉ P.taken) : (P.alloc X).release Y = P.alloc (X \ Y) := by
  ext e
  · rfl
  · rfl
  · have := h e
    simp only [alloc, release, Finset.mem_sdiff, Finset.mem_union]
    tauto

end Banked

end CimSigmoid.Mem
