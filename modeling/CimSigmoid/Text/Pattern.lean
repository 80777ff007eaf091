import Mathlib.Data.List.DropRight
import Mathlib.Data.List.Infix

/-!
# Patterns with groups

The regular expressions that are fixed texts with groups `(class+)` between them.
`matchAt` tries a match at the start of the text, each group as long as possible and
shorter when the rest fails; `search` takes the leftmost start that matches.

`Fits` is what such a pattern means, without a strategy. `Absent` and `First` say in its
terms what a line holds, and `search_eq_none` and `search_of_first` that `search` sees it.
-/

namespace CimSigmoid.Text

/-- A piece of a pattern: a text, or a group of one or more characters of a class. -/
inductive Item where
  | lit (text : List Char)
  | run (p : Char → Bool)

/-! ## The matcher -/

/-- A group of `n` characters, or else of fewer. -/
def longestFirst (rest : List Char → Option (List (List Char))) (cs : List Char) :
    Nat → Option (List (List Char))
  | 0 => none
  | n + 1 =>
    match rest (cs.drop (n + 1)) with
    | some gs => some (cs.take (n + 1) :: gs)
    | none => longestFirst rest cs n

def matchAt : List Item → List Char → Option (List (List Char))
  | [], _ => some []
  | .lit l :: items, cs => if cs.take l.length = l then matchAt items (cs.drop l.length) else none
  | .run p :: items, cs => longestFirst (matchAt items) cs (cs.takeWhile p).length

def search (items : List Item) : List Char → Option (List (List Char))
  | [] => matchAt items []
  | c :: cs =>
    match matchAt items (c :: cs) with
    | some gs => some gs
    | none => search items cs

/-! ## What a pattern means -/

/-- The text begins with an instance of the pattern that has these groups. -/
inductive Fits : List Item → List (List Char) → List Char → Prop where
  | nil {cs : List Char} : Fits [] [] cs
  | lit {l cs : List Char} {items : List Item} {gs : List (List Char)} :
      Fits items gs cs → Fits (.lit l :: items) gs (l ++ cs)
  | run {p : Char → Bool} {g cs : List Char} {items : List Item} {gs : List (List Char)} :
      g ≠ [] → (∀ c ∈ g, p c = true) → Fits items gs cs → Fits (.run p :: items) (g :: gs) (g ++ cs)

/-- The same with groups that no character of their class follows. -/
inductive FitsWhole : List Item → List (List Char) → List Char → Prop where
  | nil {cs : List Char} : FitsWhole [] [] cs
  | lit {l cs : List Char} {items : List Item} {gs : List (List Char)} :
      FitsWhole items gs cs → FitsWhole (.lit l :: items) gs (l ++ cs)
  | run {p : Char → Bool} {g cs : List Char} {items : List Item} {gs : List (List Char)} :
      g ≠ [] → (∀ c ∈ g, p c = true) → (∀ c ∈ cs.head?, p c = false) →
      FitsWhole items gs cs → FitsWhole (.run p :: items) (g :: gs) (g ++ cs)

/-- No instance of the pattern begins anywhere in the line. -/
def Absent (items : List Item) (line : List Char) : Prop :=
  ∀ s, s <:+ line → ∀ gs, ¬Fits items gs s

/-- The line has an instance with these groups, and none begins before it. -/
def First (items : List Item) (gs : List (List Char)) (line : List Char) : Prop :=
  ∃ before cs, line = before ++ cs ∧ FitsWhole items gs cs ∧
    ∀ s, s <:+ before → s ≠ [] → ∀ gs', ¬Fits items gs' (s ++ cs)

variable {items : List Item} {gs : List (List Char)} {cs line : List Char}

theorem First.of_fitsWhole (h : FitsWhole items gs line) : First items gs line := by
  refine ⟨[], line, rfl, h, fun s hs hne => ?_⟩
  exact absurd (List.suffix_nil.1 hs) hne

theorem absent_of_lit {l : List Char} (h : (line.tails.any fun s => l.isPrefixOf s) = false) :
    Absent (.lit l :: items) line := by
  rintro s hs gs (_ | ⟨hfit⟩)
  have hpre : (line.tails.any fun s => l.isPrefixOf s) = true :=
    List.any_eq_true.2 ⟨_, (List.mem_tails _ _).2 hs, by simp⟩
  rw [h] at hpre
  cases hpre

/-! ## The matcher finds what the pattern means -/

theorem longestFirst_some {rest : List Char → Option (List (List Char))} {n : Nat}
    (h : longestFirst rest cs n = some gs) :
    ∃ k gs', k < n ∧ rest (cs.drop (k + 1)) = some gs' ∧ gs = cs.take (k + 1) :: gs' := by
  induction n with
  | zero => cases h
  | succ n ih =>
    rw [longestFirst] at h
    split at h
    · rename_i gs' hgs
      exact ⟨n, gs', Nat.lt_succ_self n, hgs, (Option.some.inj h).symm⟩
    · obtain ⟨k, gs', hk, hrest⟩ := ih h
      exact ⟨k, gs', Nat.lt_succ_of_lt hk, hrest⟩

theorem longestFirst_isSome {rest : List Char → Option (List (List Char))} {k n : Nat}
    (hk : k < n) (h : (rest (cs.drop (k + 1))).isSome = true) :
    (longestFirst rest cs n).isSome = true := by
  induction n with
  | zero => omega
  | succ n ih =>
    rw [longestFirst]
    split
    · rfl
    · rename_i hnone
      refine ih (Nat.lt_of_le_of_ne (Nat.lt_succ_iff.1 hk) ?_)
      rintro rfl
      rw [hnone] at h
      cases h

theorem mem_take_of_lt_takeWhile {p : Char → Bool} {k : Nat} (hk : k < (cs.takeWhile p).length) :
    ∀ c ∈ cs.take (k + 1), p c = true := by
  intro c hc
  obtain ⟨t, ht⟩ := List.takeWhile_prefix p (l := cs)
  rw [← ht, List.take_append_of_le_length hk] at hc
  exact List.mem_takeWhile_imp (List.mem_of_mem_take hc)

theorem fits_of_matchAt (h : matchAt items cs = some gs) : Fits items gs cs := by
  induction items generalizing cs gs with
  | nil =>
    cases h
    exact .nil
  | cons item items ih =>
    cases item with
    | lit l =>
      rw [matchAt] at h
      split at h
      · rename_i hl
        have hcs : l ++ cs.drop l.length = cs := by
          have := List.take_append_drop l.length cs
          rwa [hl] at this
        have hfit := Fits.lit (l := l) (ih h)
        rwa [hcs] at hfit
      · cases h
    | run p =>
      obtain ⟨k, gs', hk, hrest, rfl⟩ := longestFirst_some h
      have hne : cs.take (k + 1) ≠ [] := by
        intro hnil
        simp_all
      have := Fits.run hne (mem_take_of_lt_takeWhile hk) (ih hrest)
      rwa [List.take_append_drop] at this

/-- Where there is an instance, there is a match. -/
theorem matchAt_isSome (h : Fits items gs cs) : (matchAt items cs).isSome = true := by
  induction h with
  | nil => rfl
  | lit _ ih =>
    rw [matchAt, if_pos (by simp), List.drop_left]
    exact ih
  | @run p g cs items gs hne hg _ ih =>
    have hpos : 0 < g.length := List.length_pos_of_ne_nil hne
    refine longestFirst_isSome (k := g.length - 1) ?_ ?_
    · rw [List.takeWhile_append_of_pos hg, List.length_append]
      omega
    · rwa [Nat.sub_add_cancel hpos, List.drop_left]

/-- An instance with whole groups is the first that is tried. -/
theorem matchAt_of_fitsWhole (h : FitsWhole items gs cs) : matchAt items cs = some gs := by
  induction h with
  | nil => rfl
  | lit _ ih =>
    rw [matchAt, if_pos (by simp), List.drop_left]
    exact ih
  | @run p g cs items gs hne hg hend _ ih =>
    have hstop : cs.takeWhile p = [] := by
      cases cs with
      | nil => rfl
      | cons c cs => exact List.takeWhile_cons_of_neg (by simp [hend c rfl])
    obtain ⟨n, hn⟩ := Nat.exists_eq_succ_of_ne_zero (List.length_pos_of_ne_nil hne).ne'
    rw [matchAt, List.takeWhile_append_of_pos hg, hstop, List.append_nil, hn, longestFirst,
      ← Nat.succ_eq_add_one, ← hn, List.drop_left, ih, List.take_left]

theorem matchAt_eq_none : matchAt items cs = none ↔ ∀ gs, ¬Fits items gs cs := by
  refine ⟨fun h gs hf => ?_, fun h => ?_⟩
  · have := matchAt_isSome hf
    rw [h] at this
    cases this
  · cases hm : matchAt items cs with
    | none => rfl
    | some gs => exact absurd (fits_of_matchAt hm) (h gs)

theorem search_eq_none : search items line = none ↔ Absent items line := by
  induction line with
  | nil =>
    rw [search, matchAt_eq_none, Absent]
    simp
  | cons c line ih =>
    have hsplit : Absent items (c :: line) ↔
        (∀ gs, ¬Fits items gs (c :: line)) ∧ Absent items line := by
      simp only [Absent, List.suffix_cons_iff, or_imp, forall_and, forall_eq]
    rw [hsplit, ← ih, ← matchAt_eq_none, search]
    cases matchAt items (c :: line) <;> simp

theorem search_of_first (h : First items gs line) : search items line = some gs := by
  obtain ⟨before, cs, rfl, hfit, hnone⟩ := h
  induction before with
  | nil =>
    have := matchAt_of_fitsWhole hfit
    cases cs with
    | nil => exact this
    | cons c cs => simp [search, this]
  | cons c before ih =>
    have hc := matchAt_eq_none.2 (hnone (c :: before) (List.suffix_refl _) (by simp))
    rw [List.cons_append] at hc ⊢
    rw [search, hc]
    exact ih fun s hs => hnone s (hs.trans (List.suffix_cons c before))

end CimSigmoid.Text
