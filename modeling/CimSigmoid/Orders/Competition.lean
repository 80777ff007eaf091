import Mathlib.Data.List.Sort

/-!
# Competition ranks

Ranking a list by a key in either direction: the competition rank of an item is one
more than the number of items better than it, so ties share a rank and the rank after
them skips their number. It is a count, so the order of the list does not matter
(`competitionRank_perm`). In a sorted list the rank of an item is told by the items in
front of its group of ties (`competitionRank_of_split`, `better_of_mem_dropWhile`).
-/

namespace CimSigmoid.Orders

/-! ## Directions -/

section

variable {κ : Type} [LinearOrder κ] (descending : Bool) {a b c : κ}

/-- `a` may stand in front of `b`. -/
def NoWorse (a b : κ) : Prop := if descending then b ≤ a else a ≤ b

/-- `a` must stand in front of `b`. -/
def Better (a b : κ) : Prop := if descending then b < a else a < b

instance : DecidableRel (@NoWorse κ _ descending) := fun a b =>
  inferInstanceAs (Decidable (if descending then b ≤ a else a ≤ b))

instance : DecidableRel (@Better κ _ descending) := fun a b =>
  inferInstanceAs (Decidable (if descending then b < a else a < b))

variable {descending}

theorem NoWorse.trans (h1 : NoWorse descending a b) (h2 : NoWorse descending b c) :
    NoWorse descending a c := by
  cases descending with
  | true => exact le_trans (α := κ) h2 h1
  | false => exact le_trans (α := κ) h1 h2

theorem noWorse_total (a b : κ) : NoWorse descending a b ∨ NoWorse descending b a := by
  cases descending with
  | true => exact le_total b a
  | false => exact le_total a b

theorem not_better_iff : ¬ Better descending a b ↔ NoWorse descending b a := by
  cases descending with
  | true => exact not_lt (α := κ)
  | false => exact not_lt (α := κ)

theorem not_better_self (a : κ) : ¬ Better descending a a :=
  not_better_iff.2 ((noWorse_total a a).elim id id)

theorem NoWorse.better (h : NoWorse descending a b) (hne : b ≠ a) : Better descending a b := by
  cases descending with
  | true => exact lt_of_le_of_ne (α := κ) h hne
  | false => exact lt_of_le_of_ne (α := κ) h hne.symm

theorem Better.trans_noWorse (h1 : Better descending a b) (h2 : NoWorse descending b c) :
    Better descending a c := by
  cases descending with
  | true => exact lt_of_le_of_lt (α := κ) h2 h1
  | false => exact lt_of_lt_of_le (α := κ) h1 h2

theorem Better.asymm (h : Better descending a b) : ¬ Better descending b a := by
  cases descending with
  | true => exact lt_asymm (α := κ) h
  | false => exact lt_asymm (α := κ) h

end

/-! ## Lists -/

section

variable {ι κ : Type} [LinearOrder κ] {descending : Bool} {key : ι → κ}

def sortBy (descending : Bool) (key : ι → κ) (l : List ι) : List ι :=
  l.insertionSort fun x y => NoWorse descending (key x) (key y)

/-- One more than the number of items better than `x`. -/
def competitionRank (descending : Bool) (key : ι → κ) (l : List ι) (x : ι) : Nat :=
  1 + l.countP fun y => Better descending (key y) (key x)

theorem sortBy_perm (l : List ι) : (sortBy descending key l).Perm l := List.perm_insertionSort _ l

theorem sortBy_pairwise (l : List ι) :
    (sortBy descending key l).Pairwise fun x y => NoWorse descending (key x) (key y) := by
  have : Std.Total fun x y : ι => NoWorse descending (key x) (key y) :=
    ⟨fun x y => noWorse_total (key x) (key y)⟩
  have : IsTrans ι fun x y => NoWorse descending (key x) (key y) := ⟨fun _ _ _ => NoWorse.trans⟩
  exact List.pairwise_insertionSort _ l

theorem competitionRank_perm {l l' : List ι} (h : l.Perm l') (x : ι) :
    competitionRank descending key l x = competitionRank descending key l' x := by
  rw [competitionRank, competitionRank, h.countP_eq]

theorem competitionRank_of_split {front back : List ι} {x : ι}
    (hf : ∀ y ∈ front, Better descending (key y) (key x))
    (hb : ∀ y ∈ back, ¬ Better descending (key y) (key x)) :
    competitionRank descending key (front ++ back) x = front.length + 1 := by
  have hfront := List.countP_eq_length.2 fun y hy => decide_eq_true (hf y hy)
  have hback := List.countP_eq_zero.2 fun y hy => mt of_decide_eq_true (hb y hy)
  rw [competitionRank, List.countP_append, hfront, hback]
  omega

theorem better_of_mem_dropWhile {l : List ι} {v : κ}
    (hs : l.Pairwise fun x y => NoWorse descending (key x) (key y))
    (hv : ∀ y ∈ l, NoWorse descending v (key y)) :
    ∀ y ∈ l.dropWhile fun x => key x = v, Better descending v (key y) := by
  induction l with
  | nil => simp
  | cons x l ih =>
    rw [List.pairwise_cons] at hs
    by_cases hx : key x = v
    · rw [List.dropWhile_cons_of_pos (by simpa using hx)]
      exact ih hs.2 fun y hy => hv y (List.mem_cons_of_mem x hy)
    · rw [List.dropWhile_cons_of_neg (by simpa using hx)]
      have hxv := (hv x List.mem_cons_self).better hx
      rintro y (_ | ⟨_, hy⟩)
      · exact hxv
      · exact hxv.trans_noWorse (hs.1 y hy)

end

end CimSigmoid.Orders
