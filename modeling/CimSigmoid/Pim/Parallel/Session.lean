import CimSigmoid.Pim.Parallel.Simulator

/-!
# Operations with intermediate cells

`IntermediateAllocator` of `parallel/AritPIM.py`, kept beside the simulator, and what the
operations of that file leave alone. They take and give back intermediate cells in no
nested order, so a proof follows an operation with a `Session`: the cells that it holds,
and that everything it has changed so far is its output or was free when it began. A
session that holds nothing any more is a `Step`.
-/

namespace CimSigmoid.Pim.Parallel

open Machine Mem Bits

variable {P W : Nat} {ι : Type}

/-- The addresses of an array of length `k`. -/
def listing (k : Nat) (t : Nat → Fin W) : List (Fin W) := (List.range k).map t

/-- `malloc`, as an array. A partition that the allocator does not have is no key of its
dictionary. -/
def malloc [NeZero W] (k : Nat) (S : List (Fin P)) : ParallelM P W ι (Nat → Fin W) := do
  check (1 ≤ k)
  let s ← get
  check (S ⊆ s.inter.banks)
  let allocation := s.inter.first S k
  check (allocation.length = k)
  set (s.withInter (s.inter.alloc (Banked.block S allocation)))
  pure fun i => allocation.getD i 0

def free (k : Nat) (t : Nat → Fin W) (S : List (Fin P)) : ParallelM P W ι Unit := do
  let s ← get
  check (S ⊆ s.inter.banks)
  check (listing k t ⊆ s.inter.cells)
  set (s.withInter (s.inter.release (Banked.block S (listing k t))))

/-- `malloc(1, partitions)`, which gives an address and no array. -/
def mallocOne [NeZero W] (S : List (Fin P)) : ParallelM P W ι (Fin W) := do
  let t ← malloc 1 S
  pure (t 0)

def freeOne (c : Fin W) (S : List (Fin P)) : ParallelM P W ι Unit := free 1 (fun _ => c) S

def scratch [NeZero W] (k : Nat) (S : List (Fin P)) (body : (Nat → Fin W) → ParallelM P W ι Unit) :
    ParallelM P W ι Unit := do
  let t ← malloc k S
  body t
  free k t S

def scratchOne [NeZero W] (S : List (Fin P)) (body : Fin W → ParallelM P W ι Unit) :
    ParallelM P W ι Unit := scratch 1 S fun t => body (t 0)

/-- The number that row `r` holds in a cell of `N` partitions. -/
def num (N : Nat) (ps : Nat → Fin P) (x : Fin W) (m : Fin W → Fin P → ι → Bool) (r : ι) : Nat :=
  bitsValue N fun j => m x (ps j) r

def Held (Q : Banked (Fin P) (Fin W)) (S : List (Fin P)) (c : Fin W) : Prop :=
  ∀ q ∈ S, ¬Q.Open q c

/-! ## What an operation changes -/

/-- Only the cells `T` change, at the cost `w`, and the highest cell written is one of them. -/
structure Changes (T : Fin W → Fin P → Prop) (w : Nat × Nat) (s s' : ParallelSimulator P W ι) :
    Prop where
  memory : ∀ c q, ¬T c q → s'.memory c q = s.memory c q
  cost : s'.cost = s.cost + w
  maxUsed : s'.maxUsed = s.maxUsed ∨ ∃ c q, T c q ∧ s'.maxUsed = c

def Reach (T : Fin W → Fin P → Prop) (Q : Banked (Fin P) (Fin W)) (k : Nat) (c : Fin W)
    (q : Fin P) : Prop := T c q ∨ Q.Open q c ∧ Q.Within k c

/-- Every intermediate cell is given back, and only `T` and free cells within the first `k`
change, at the cost `w`. -/
structure Step (T : Fin W → Fin P → Prop) (k : Nat) (w : Nat × Nat)
    (s s' : ParallelSimulator P W ι) : Prop where
  inter : s'.inter = s.inter
  changes : Changes (Reach T s.inter k) w s s'

/-- The cells that one holds who has allocated `H`, each entry in its partitions. -/
def holdings (H : List (List (Fin P) × Fin W)) : Finset (Fin P × Fin W) :=
  H.foldr (fun e X => Banked.block e.1 [e.2] ∪ X) ∅

/-- In the middle of an operation that began at `s`: it has allocated `H`. -/
structure Session (T : Fin W → Fin P → Prop) (k : Nat) (s : ParallelSimulator P W ι)
    (H : List (List (Fin P) × Fin W)) (w : Nat × Nat) (s' : ParallelSimulator P W ι) : Prop where
  inter : s'.inter = s.inter.alloc (holdings H)
  mine : ∀ e ∈ H, ∀ q ∈ e.1, s.inter.Open q e.2 ∧ s.inter.Within k e.2
  apart : H.Pairwise fun e f => ∀ q ∈ e.1, q ∈ f.1 → e.2 ≠ f.2
  changes : Changes (Reach T s.inter k) w s s'

section

variable {T U : Fin W → Fin P → Prop} {s s' s'' : ParallelSimulator P W ι} {k m : Nat}
  {w w' : Nat × Nat} {H H' : List (List (Fin P) × Fin W)} {S : List (Fin P)} {c o : Fin W}
  {q : Fin P}

theorem Changes.refl : Changes T 0 s s := ⟨fun _ _ _ => rfl, rfl, .inl rfl⟩

theorem Changes.mono (h : Changes T w s s') (hT : ∀ c q, T c q → U c q) : Changes U w s s' :=
  ⟨fun c q hc => h.memory c q fun h' => hc (hT c q h'), h.cost,
    h.maxUsed.imp id fun ⟨c, q, hc, e⟩ => ⟨c, q, hT c q hc, e⟩⟩

theorem Changes.trans (h : Changes T w s s') (h' : Changes T w' s' s'') :
    Changes T (w + w') s s'' := by
  refine ⟨fun c q hc => (h'.memory c q hc).trans (h.memory c q hc), ?_, ?_⟩
  · rw [h'.cost, h.cost, add_assoc]
  · rcases h'.maxUsed with e | e
    · rw [e]
      exact h.maxUsed
    · exact .inr e

theorem Changes.withInter (h : Changes T w s s') (Q : Banked (Fin P) (Fin W)) :
    Changes T w s (s'.withInter Q) := ⟨h.memory, h.cost, h.maxUsed⟩

theorem changes_fill (hS : ∀ q ∈ S, T o q) (h0 : S ≠ []) (v : Fin P → ι → Bool) (n : Nat) :
    Changes T (n, n * S.length) s (s.fill S o v n) := by
  refine ⟨fun c q hc => ?_, rfl, ?_⟩
  · rw [ParallelSimulator.fill_memory]
    by_cases hco : c = o
    · subst hco
      rw [Function.update_self, if_neg fun hq => hc (hS q hq)]
    · rw [Function.update_of_ne hco]
  · rcases Nat.le_total o s.maxUsed with h | h
    · exact .inl (Nat.max_eq_left h)
    · obtain ⟨q, hq⟩ := List.exists_mem_of_ne_nil S h0
      exact .inr ⟨o, q, hS q hq, Nat.max_eq_right h⟩

theorem Changes.of_cost (h : Changes T w s s') (e : w = w') : Changes T w' s s' := e ▸ h

theorem Changes.fill (h : Changes T w s s') (h0 : S ≠ []) (hS : ∀ q ∈ S, T o q)
    {v : Fin P → ι → Bool} {n : Nat} : Changes T (w + (n, n * S.length)) s (s'.fill S o v n) :=
  h.trans (changes_fill hS h0 v n)

theorem step_fill (hS : ∀ q ∈ S, T o q) (h0 : S ≠ []) (v : Fin P → ι → Bool) (n : Nat) :
    Step T k (n, n * S.length) s (s.fill S o v n) :=
  ⟨rfl, changes_fill (fun q hq => .inl (hS q hq)) h0 v n⟩

theorem Step.refl : Step T k 0 s s := ⟨rfl, .refl⟩

theorem Step.mono (h : Step T k w s s') (hT : ∀ c q, T c q → U c q) (hk : k ≤ m) :
    Step U m w s s' :=
  ⟨h.inter, h.changes.mono fun c q => Or.imp (hT c q) (And.imp_right fun h => h.mono hk)⟩

theorem Step.trans (h : Step T k w s s') (h' : Step T k w' s' s'') : Step T k (w + w') s s'' := by
  obtain ⟨hi, hc⟩ := h'
  rw [h.inter] at hi hc
  exact ⟨hi, h.changes.trans hc⟩

theorem Step.of_cost (h : Step T k w s s') (e : w = w') : Step T k w' s s' := e ▸ h

/-- A cell that is neither free nor written keeps its contents. -/
theorem Step.memory_eq (h : Step T k w s s') (hc : ¬s.inter.Open q c) (hT : ¬T c q) :
    s'.memory c q = s.memory c q :=
  h.changes.memory c q fun hr => hr.elim hT fun hf => hc hf.1

theorem Step.memory_eq_zero (h : Step T 0 w s s') (hT : ¬T c q) : s'.memory c q = s.memory c q :=
  h.changes.memory c q fun hr => hr.elim hT fun hf => absurd hf.2 (Nat.not_lt_zero _)

/-! ## Sessions -/

theorem mem_holdings : (q, c) ∈ holdings H ↔ ∃ e ∈ H, q ∈ e.1 ∧ c = e.2 := by
  induction H with
  | nil => simp [holdings]
  | cons e H ih =>
    rw [holdings, List.foldr_cons, Finset.mem_union, Banked.mem_block]
    simp only [List.mem_cons, List.not_mem_nil, or_false, exists_eq_or_imp]
    exact or_congr_right ih

theorem holdings_cells : ∀ e ∈ holdings H, e.2 ∈ H.map Prod.snd := by
  rintro ⟨q, c⟩ he
  obtain ⟨e, heH, -, rfl⟩ := mem_holdings.mp he
  exact List.mem_map_of_mem heH

theorem Session.start : Session T k s [] 0 s :=
  ⟨Banked.alloc_empty.symm, fun _ h => absurd h List.not_mem_nil, .nil, .refl⟩

theorem Session.finish (h : Session T k s [] w s') : Step T k w s s' :=
  ⟨h.inter.trans Banked.alloc_empty, h.changes⟩

theorem Session.of_cost (h : Session T k s H w s') (e : w = w') : Session T k s H w' s' := e ▸ h

theorem Session.mono (h : Session T k s H w s') (hT : ∀ c q, T c q → U c q) :
    Session U k s H w s' :=
  ⟨h.inter, h.mine, h.apart, h.changes.mono fun c q => Or.imp_left (hT c q)⟩

theorem Session.banks (h : Session T k s H w s') : s'.inter.banks = s.inter.banks := by
  rw [h.inter]
  rfl

/-- What the session has allocated is free no more. -/
theorem Session.own (h : Session T k s H w s') (hH : (S, c) ∈ H) : Held s'.inter S c := by
  intro q hq
  rw [h.inter, Banked.open_alloc]
  exact fun h => h.2 (mem_holdings.mpr ⟨_, hH, hq, rfl⟩)

theorem Session.not_open (h : Session T k s H w s') (hc : ¬s.inter.Open q c) :
    ¬s'.inter.Open q c := by
  rw [h.inter]
  exact fun h => hc h.of_alloc

theorem Session.keeps (h : Session T k s H w s') (hc : Held s.inter S c) : Held s'.inter S c :=
  fun q hq => h.not_open (hc q hq)

theorem Session.memory_eq (h : Session T k s H w s') (hc : ¬s.inter.Open q c) (hT : ¬T c q) :
    s'.memory c q = s.memory c q :=
  h.changes.memory c q fun hr => hr.elim hT fun hf => hc hf.1

theorem Session.available (h : Session T k s H w s') (hk : H.length + m ≤ s.inter.available) :
    m ≤ s'.inter.available := by
  have := Banked.available_alloc (P := s.inter) (holdings_cells (H := H))
  rw [List.length_map] at this
  rw [h.inter]
  omega

/-- A part of an operation that allocates some of its cells, inside a session. -/
theorem Session.trans (h : Session T k s H w s') (h' : Session U m s' H' w' s'')
    (hT : ∀ c q, U c q → T c q ∨ ∃ e ∈ H, q ∈ e.1 ∧ c = e.2) (hk : H.length + m ≤ k) :
    Session T k s (H' ++ H) (w + w') s'' := by
  have hfree : ∀ q c, s'.inter.Open q c ∧ s'.inter.Within m c →
      s.inter.Open q c ∧ s.inter.Within k c := by
    rintro q c ⟨ho, hw⟩
    rw [h.inter] at ho hw
    refine ⟨ho.of_alloc, (Banked.within_alloc holdings_cells hw).mono ?_⟩
    rwa [List.length_map]
  refine ⟨?_, fun e he q hq => ?_, List.pairwise_append.mpr ⟨h'.apart, h.apart, ?_⟩, ?_⟩
  · rw [h'.inter, h.inter, Banked.alloc_alloc]
    congr 1
    ext ⟨q, c⟩
    simp only [Finset.mem_union, mem_holdings, List.mem_append, or_and_right, exists_or]
    exact or_comm
  · rcases List.mem_append.mp he with he | he
    · exact hfree q e.2 (h'.mine e he q hq)
    · exact h.mine e he q hq
  · intro e he f hf q hq hqf hef
    exact h.own (S := f.1) (c := f.2) hf q hqf (hef ▸ (h'.mine e he q hq).1)
  · refine h.changes.trans (h'.changes.mono fun c q hc => ?_)
    rcases hc with hc | hc
    · rcases hT c q hc with hc | ⟨e, he, hq, rfl⟩
      · exact .inl hc
      · exact .inr (h.mine e he q hq)
    · exact .inr (hfree q c hc)

theorem Step.session (h : Step T k w s s') : Session T k s [] w s' :=
  ⟨h.inter.trans Banked.alloc_empty.symm, fun _ h => absurd h List.not_mem_nil, .nil, h.changes⟩

theorem Session.step (h : Session T k s H w s') (h' : Step U m w' s' s'')
    (hT : ∀ c q, U c q → T c q ∨ ∃ e ∈ H, q ∈ e.1 ∧ c = e.2) (hk : H.length + m ≤ k) :
    Session T k s H (w + w') s'' := h.trans h'.session hT hk

theorem Session.gate {p : ParallelM P W ι Unit} {v : Fin P → ι → Bool} {n : Nat}
    (h : Session T k s H w s') (hp : p.run s' = some ((), s'.fill S o v n)) (h0 : S ≠ [])
    (hS : ∀ q ∈ S, T o q ∨ ∃ e ∈ H, q ∈ e.1 ∧ o = e.2) (hk : H.length ≤ k) :
    Ends p s' fun _ s'' => s'' = s'.fill S o v n ∧ Session T k s H (w + (n, n * S.length)) s'' := by
  refine ends_of_run hp ⟨rfl, h.step (step_fill (T := fun c q => c = o ∧ q ∈ S) (k := 0)
    (fun q hq => ⟨rfl, hq⟩) h0 v n) ?_ hk⟩
  rintro c q ⟨rfl, hq⟩
  exact hS q hq

theorem Session.seq {A : Type} {p : ParallelM P W ι Unit} {f : Unit → ParallelM P W ι A}
    {R : A → ParallelSimulator P W ι → Prop} {v : Fin P → ι → Bool} {n : Nat}
    (h : Session T k s H w s') (hp : p.run s' = some ((), s'.fill S o v n)) (h0 : S ≠ [])
    (hS : ∀ q ∈ S, T o q ∨ ∃ e ∈ H, q ∈ e.1 ∧ o = e.2) (hk : H.length ≤ k)
    (hf : Session T k s H (w + (n, n * S.length)) (s'.fill S o v n) →
      Ends (f ()) (s'.fill S o v n) R) : Ends (p >>= f) s' R := by
  refine (h.gate hp h0 hS hk).bind ?_
  rintro _ _ ⟨rfl, h'⟩
  exact hf h'

/-- A gate inside a session, from what it leaves in its cell and that it leaves the others alone. -/
theorem Session.seqOf {A : Type} {p : ParallelM P W ι Unit} {f : Unit → ParallelM P W ι A}
    {R : A → ParallelSimulator P W ι → Prop} {v : Fin P → ι → Bool} {n : Nat}
    (h : Session T k s H w s') (hp : p.run s' = some ((), s'.fill S o v n)) (h0 : S ≠ [])
    (hS : ∀ q ∈ S, T o q ∨ ∃ e ∈ H, q ∈ e.1 ∧ o = e.2) (hk : H.length ≤ k)
    (hf : ∀ s'', Session T k s H (w + (n, n * S.length)) s'' → (∀ q ∈ S, s''.memory o q = v q) →
      (∀ c, c ≠ o → s''.memory c = s'.memory c) → Ends (f ()) s'' R) : Ends (p >>= f) s' R := by
  refine h.seq hp h0 hS hk fun h' => hf _ h' (fun q hq => ?_) fun c hc => ?_
  · rw [ParallelSimulator.fill_memory, Function.update_self, if_pos hq]
  · rw [ParallelSimulator.fill_memory, Function.update_of_ne hc]

end

/-! ## Allocation -/

structure Fresh (Q : Banked (Fin P) (Fin W)) (S : List (Fin P)) (k : Nat) (t : Nat → Fin W) :
    Prop where
  opened : ∀ i < k, ∀ q ∈ S, Q.Open q (t i)
  within : ∀ i < k, Q.Within k (t i)
  inj : ∀ i < k, ∀ j < k, t i = t j → i = j

section

variable {s s' : ParallelSimulator P W ι} {k m n : Nat} {S : List (Fin P)} {t : Nat → Fin W}
  {c : Fin W}

theorem mem_listing : c ∈ listing k t ↔ ∃ i < k, t i = c := by simp [listing]

theorem length_listing : (listing k t).length = k := by simp [listing]

theorem Held.ne {Q : Banked (Fin P) (Fin W)} (hc : Held Q S c) {d : Fin W} (h0 : S ≠ [])
    (hd : ∀ q ∈ S, Q.Open q d) : d ≠ c := by
  obtain ⟨q, hq⟩ := List.exists_mem_of_ne_nil S h0
  exact fun e => hc q hq (e ▸ hd q hq)

theorem Held.alloc {Q : Banked (Fin P) (Fin W)} {X : Finset (Fin P × Fin W)} (hc : Held Q S c) :
    Held (Q.alloc X) S c := fun q hq h => hc q hq h.of_alloc

theorem held_block {Q : Banked (Fin P) (Fin W)} {D : List (Fin W)} (hc : c ∈ D) :
    Held (Q.alloc (Banked.block S D)) S c :=
  fun _ hq h => (Banked.open_alloc.mp h).2 (Banked.mem_block.mpr ⟨hq, hc⟩)

theorem Fresh.ne {Q : Banked (Fin P) (Fin W)} (h : Fresh Q S k t) (h0 : S ≠ []) (hc : Held Q S c)
    (i : Nat) (hi : i < k) : t i ≠ c := hc.ne h0 (h.opened i hi)

theorem Fresh.eq_iff {Q : Banked (Fin P) (Fin W)} (h : Fresh Q S k t) (i j : Nat) (hi : i < k)
    (hj : j < k) : t i = t j ↔ i = j := ⟨h.inj i hi j hj, fun e => e ▸ rfl⟩

theorem available_alloc_block {Q : Banked (Fin P) (Fin W)} {D : List (Fin W)}
    (h : D.length + m ≤ Q.available) : m ≤ (Q.alloc (Banked.block S D)).available := by
  have := Banked.available_alloc (P := Q) (X := Banked.block S D) (D := D) fun e he =>
    (Banked.mem_block.mp he).2
  omega

theorem run_malloc [NeZero W] (hk : 1 ≤ k) (hS : S ⊆ s.inter.banks) (hf : k ≤ s.inter.available) :
    (malloc k S).run s = some (fun i => (s.inter.first S k).getD i 0,
      s.withInter (s.inter.alloc (Banked.block S (s.inter.first S k)))) := by
  have h1 : (check (1 ≤ k)).run s = some ((), s) := run_check hk
  have h2 : (check (S ⊆ s.inter.banks)).run s = some ((), s) := run_check hS
  have h3 : (check ((s.inter.first S k).length = k)).run s = some ((), s) :=
    run_check (Banked.length_first hS hf)
  simp [malloc, h1, h2, h3]

theorem ends_malloc [NeZero W] (hk : 1 ≤ k) (hS : S ⊆ s.inter.banks) (hf : k ≤ s.inter.available) :
    Ends (malloc k S) s fun t s' => Fresh s.inter S k t ∧
      s' = s.withInter (s.inter.alloc (Banked.block S (listing k t))) := by
  have hlen := Banked.length_first hS hf
  have hmem : ∀ i < k, (s.inter.first S k).getD i 0 ∈ s.inter.first S k := fun i hi => by
    rw [List.getD_eq_getElem _ _ (by omega)]
    exact List.getElem_mem _
  refine ⟨_, _, run_malloc hk hS hf, ⟨fun i hi q hq => ?_, fun i hi => ?_, fun i hi j hj e => ?_⟩, ?_⟩
  · exact Banked.open_of_first hS (hmem i hi) hq
  · exact Banked.within_first hS (hmem i hi)
  · rw [List.getD_eq_getElem _ _ (by omega), List.getD_eq_getElem _ _ (by omega)] at e
    exact (List.Nodup.getElem_inj_iff Banked.nodup_first).mp e
  · congr 3
    refine List.ext_getElem (by rw [length_listing, hlen]) fun i h1 h2 => ?_
    simp [listing, List.getD_eq_getElem?_getD, List.getElem?_eq_getElem h1]

theorem run_free (hS : S ⊆ s.inter.banks) (h : listing k t ⊆ s.inter.cells) :
    (free k t S).run s =
      some ((), s.withInter (s.inter.release (Banked.block S (listing k t)))) := by
  have h1 : (check (S ⊆ s.inter.banks)).run s = some ((), s) := run_check hS
  have h2 : (check (listing k t ⊆ s.inter.cells)).run s = some ((), s) := run_check h
  simp [free, h1, h2]

end

section

variable {T : Fin W → Fin P → Prop} {s s' : ParallelSimulator P W ι} {k m : Nat}
  {w : Nat × Nat} {H A B : List (List (Fin P) × Fin W)} {S : List (Fin P)} {c : Fin W}

theorem ends_mallocOne [NeZero W] (hS : S ⊆ s.inter.banks) (hf : 1 ≤ s.inter.available) :
    Ends (mallocOne S) s fun c s' => Session T 1 s [(S, c)] 0 s' ∧ s'.memory = s.memory ∧
      ∀ q ∈ S, s.inter.Open q c := by
  refine Ends.bind (ends_malloc (Nat.le_refl 1) hS hf) ?_
  rintro t _ ⟨ht, rfl⟩
  refine ends_pure ⟨⟨?_, fun e he q hq => ?_, List.pairwise_singleton .., Changes.refl.withInter _⟩,
    rfl, ht.opened 0 Nat.one_pos⟩
  · rw [holdings, List.foldr_cons, List.foldr_nil, Finset.union_empty]
    rfl
  · obtain rfl := List.mem_singleton.mp he
    exact ⟨ht.opened 0 Nat.one_pos q hq, ht.within 0 Nat.one_pos⟩

theorem Session.mallocOne [NeZero W] (h : Session T k s H w s') (hS : S ⊆ s.inter.banks)
    (hk : H.length + 1 ≤ k) (hf : k ≤ s.inter.available) :
    Ends (mallocOne S) s' fun c s'' => Session T k s ((S, c) :: H) w s'' ∧
      s''.memory = s'.memory ∧ ∀ q ∈ S, s'.inter.Open q c := by
  have hb : S ⊆ s'.inter.banks := by
    rw [h.inter]
    exact hS
  refine Ends.mono (ends_mallocOne (T := fun _ _ => False) hb (h.available (hk.trans hf))) ?_
  rintro c s'' ⟨hs, hm, ho⟩
  exact ⟨h.trans hs (fun _ _ => False.elim) hk, hm, ho⟩

theorem Session.freeOne (h : Session T k s H w s') (hH : H = A ++ (S, c) :: B) (h0 : S ≠ []) :
    Ends (freeOne c S) s' fun _ s'' => Session T k s (A ++ B) w s'' ∧ s''.memory = s'.memory := by
  subst hH
  have hmem : (S, c) ∈ A ++ (S, c) :: B := by simp
  obtain ⟨p, hp⟩ := List.exists_mem_of_ne_nil S h0
  refine ends_of_run (run_free (fun q hq => ?_) fun d hd => ?_) ⟨⟨?_, fun e he => h.mine e ?_,
    h.apart.sublist ?_, h.changes.withInter _⟩, rfl⟩
  · rw [h.inter]
    exact (h.mine _ hmem q hq).1.1
  · obtain ⟨i, -, rfl⟩ := mem_listing.mp hd
    rw [h.inter]
    exact (h.mine _ hmem p hp).1.2.1
  · rw [ParallelSimulator.withInter_inter, h.inter, Banked.release_alloc]
    · -- the other entries do not have this cell in any of these partitions
      congr 1
      ext ⟨q, d⟩
      have hap := List.pairwise_append.mp h.apart
      have hB := List.pairwise_cons.mp hap.2.1
      rw [Finset.mem_sdiff, Banked.mem_block, mem_holdings, mem_holdings]
      simp only [List.mem_append, List.mem_cons, listing, List.range_one, List.map_cons,
        List.map_nil, List.not_mem_nil, or_false]
      constructor
      · rintro ⟨⟨e, he | rfl | he, hq, rfl⟩, hn⟩
        · exact ⟨e, .inl he, hq, rfl⟩
        · exact absurd ⟨hq, rfl⟩ hn
        · exact ⟨e, .inr he, hq, rfl⟩
      · rintro ⟨e, he | he, hq, rfl⟩
        · exact ⟨⟨e, .inl he, hq, rfl⟩, fun hn =>
            hap.2.2 e he (S, c) List.mem_cons_self q hq hn.1 hn.2⟩
        · exact ⟨⟨e, .inr (.inr he), hq, rfl⟩, fun hn => hB.1 e he q hn.1 hq hn.2.symm⟩
    · rintro ⟨q, d⟩ he
      obtain ⟨hq, hd⟩ := Banked.mem_block.mp he
      obtain ⟨i, -, rfl⟩ := mem_listing.mp hd
      exact (h.mine _ hmem q hq).1.2.2
  · rcases List.mem_append.mp he with he | he
    · exact List.mem_append_left _ he
    · exact List.mem_append_right _ (List.mem_cons_of_mem _ he)
  · exact List.Sublist.append_left (List.sublist_cons_self ..) A

/-- **The rule of an allocation** that is given back. -/
theorem ends_scratch [NeZero W] {body : (Nat → Fin W) → ParallelM P W ι Unit}
    {Q : (Fin W → Fin P → ι → Bool) → Prop} (hk : 1 ≤ k) (h0 : S ≠ []) (hS : S ⊆ s.inter.banks)
    (hf : k + m ≤ s.inter.available)
    (hbody : ∀ t, Fresh s.inter S k t →
      Ends (body t) (s.withInter (s.inter.alloc (Banked.block S (listing k t)))) fun _ s' =>
        Step (fun c q => T c q ∨ q ∈ S ∧ ∃ i < k, t i = c) m w
          (s.withInter (s.inter.alloc (Banked.block S (listing k t)))) s' ∧ Q s'.memory) :
    Ends (scratch k S body) s fun _ s' => Step T (k + m) w s s' ∧ Q s'.memory := by
  refine (ends_malloc hk hS (by omega)).bind ?_
  rintro t _ ⟨ht, rfl⟩
  refine (hbody t ht).bind ?_
  rintro _ s' ⟨hs, hq⟩
  obtain ⟨p, hp⟩ := List.exists_mem_of_ne_nil S h0
  have hin : s'.inter = s.inter.alloc (Banked.block S (listing k t)) := hs.inter
  have hmine : ∀ q ∈ S, ∀ c ∈ listing k t, s.inter.Open q c ∧ s.inter.Within k c := by
    intro q hq c hc
    obtain ⟨i, hi, rfl⟩ := mem_listing.mp hc
    exact ⟨ht.opened i hi q hq, ht.within i hi⟩
  refine ends_of_run (run_free ?_ fun c hc => ?_) ⟨⟨?_, ?_⟩, hq⟩
  · rw [hin]
    exact hS
  · rw [hin]
    exact (hmine p hp c hc).1.2.1
  · rw [ParallelSimulator.withInter_inter, hin, Banked.release_alloc, Finset.sdiff_self,
      Banked.alloc_empty]
    rintro ⟨q, c⟩ he
    obtain ⟨hq, hc⟩ := Banked.mem_block.mp he
    exact (hmine q hq c hc).1.2.2
  · have hc := (hs.changes.mono (U := Reach T s.inter (k + m)) fun c q hc => ?_).withInter
      (s'.inter.release (Banked.block S (listing k t)))
    · exact ⟨hc.memory, hc.cost, hc.maxUsed⟩
    · rcases hc with (hc | ⟨hq, i, hi, rfl⟩) | ⟨ho, hw⟩
      · exact .inl hc
      · exact .inr ⟨ht.opened i hi q hq, (ht.within i hi).mono (by omega)⟩
      · have := Banked.within_alloc (D := listing k t) (fun e he => (Banked.mem_block.mp he).2) hw
        rw [length_listing] at this
        exact .inr ⟨ho.of_alloc, this⟩

theorem ends_scratchOne [NeZero W] {body : Fin W → ParallelM P W ι Unit}
    {Q : (Fin W → Fin P → ι → Bool) → Prop} (h0 : S ≠ []) (hS : S ⊆ s.inter.banks)
    (hf : 1 + m ≤ s.inter.available)
    (hbody : ∀ t, (∀ q ∈ S, s.inter.Open q t) →
      Ends (body t) (s.withInter (s.inter.alloc (Banked.block S [t]))) fun _ s' =>
        Step (fun c q => T c q ∨ q ∈ S ∧ c = t) m w
          (s.withInter (s.inter.alloc (Banked.block S [t]))) s' ∧ Q s'.memory) :
    Ends (scratchOne S body) s fun _ s' => Step T (1 + m) w s s' ∧ Q s'.memory := by
  refine ends_scratch (Nat.le_refl 1) h0 hS hf fun t ht => ?_
  refine (hbody (t 0) (ht.opened 0 Nat.one_pos)).mono ?_
  rintro _ s' ⟨hs, hq⟩
  refine ⟨hs.mono (fun c q hc => hc.imp_right (And.imp_right ?_)) (Nat.le_refl m), hq⟩
  rintro rfl
  exact ⟨0, Nat.one_pos, rfl⟩

end

end CimSigmoid.Pim.Parallel
