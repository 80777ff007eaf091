import CimSigmoid.Loops.While
import CimSigmoid.Mem.Store
import CimSigmoid.Orders.Competition
import Mathlib.Data.List.TakeWhile
import Mathlib.Data.Prod.Lex

/-!
# Ranking the configurations

`RankingEngine` and `compute_overall_scores` of `f6_dashboard.py` rank the results of
all configurations. The results are objects that the lists share, so a list holds
references and a heap holds the objects; a rank is written into an attribute of an
object while its metrics stay.

Both ranking functions run the same two nested loops over a sorted copy of the list:
the inner one finds the end of a group of ties, the outer one writes the group's rank.
The outer loop is always between two groups (`RankInv`), and what it leaves is the
competition rank in every object of the list (`ranked`), whatever the order of the list
and the ties in it.
-/

namespace CimSigmoid.F6

open Loops Mem Orders

/-! ## Objects -/

/-- What is measured of a configuration: `α` for the counts, `β` for the rates. -/
structure Metrics (α β : Type) where
  latency : α
  energy : α
  area : α
  throughputTops : β
  energyEfficiency : β

/-- The attributes that `compute_overall_scores` adds, under their names less the underscore. -/
structure OverallAttrs where
  latencyRank : Nat
  energyRank : Nat
  areaRank : Nat
  throughputRank : Nat
  efficiencyRank : Nat
  overallScore : Nat
  tmpRank : Nat

structure ConfigResult (α β : Type) extends Metrics α β where
  throughputRank : Nat
  efficiencyRank : Nat
  combinedScore : Nat
  overall : OverallAttrs

abbrev Ref := Nat

abbrev Heap (α β : Type) := Ref → ConfigResult α β

variable {α β : Type}

/-- An attribute that a rank is written into: no metric, and read back as written. -/
structure RankAttr (α β : Type) where
  get : ConfigResult α β → Nat
  set : Nat → ConfigResult α β → ConfigResult α β
  get_set : ∀ n c, get (set n c) = n
  set_set : ∀ n c, set n (set n c) = set n c
  metrics : ∀ n c, (set n c).toMetrics = c.toMetrics

namespace RankAttr

def throughputRank : RankAttr α β where
  get c := c.throughputRank
  set n c := { c with throughputRank := n }
  get_set _ _ := rfl
  set_set _ _ := rfl
  metrics _ _ := rfl

def efficiencyRank : RankAttr α β where
  get c := c.efficiencyRank
  set n c := { c with efficiencyRank := n }
  get_set _ _ := rfl
  set_set _ _ := rfl
  metrics _ _ := rfl

def tmpRank : RankAttr α β where
  get c := c.overall.tmpRank
  set n c := { c with overall := { c.overall with tmpRank := n } }
  get_set _ _ := rfl
  set_set _ _ := rfl
  metrics _ _ := rfl

end RankAttr

/-- An assignment to the attributes of `compute_overall_scores`; made twice it is made once. -/
structure OverallUpdate where
  run : OverallAttrs → OverallAttrs
  idem : ∀ o, run (run o) = run o

namespace OverallUpdate

def clear : OverallUpdate := ⟨fun o => ⟨0, 0, 0, 0, 0, 0, o.tmpRank⟩, fun _ => rfl⟩

def clearTmp : OverallUpdate := ⟨fun o => { o with tmpRank := 0 }, fun _ => rfl⟩

def saveLatency : OverallUpdate := ⟨fun o => { o with latencyRank := o.tmpRank }, fun _ => rfl⟩

def saveEnergy : OverallUpdate := ⟨fun o => { o with energyRank := o.tmpRank }, fun _ => rfl⟩

def saveArea : OverallUpdate := ⟨fun o => { o with areaRank := o.tmpRank }, fun _ => rfl⟩

def saveThroughput : OverallUpdate :=
  ⟨fun o => { o with throughputRank := o.tmpRank }, fun _ => rfl⟩

def saveEfficiency : OverallUpdate :=
  ⟨fun o => { o with efficiencyRank := o.tmpRank }, fun _ => rfl⟩

def score : OverallUpdate :=
  ⟨fun o => { o with overallScore :=
    o.latencyRank + o.energyRank + o.areaRank + o.throughputRank + o.efficiencyRank }, fun _ => rfl⟩

end OverallUpdate

/-- `for r in l: ...` with an assignment for each object. -/
def forEach (u : OverallUpdate) (l : List Ref) (heap : Heap α β) : Heap α β :=
  updates (fun c => { c with overall := u.run c.overall }) l heap

/-! ## The loops -/

def keyAt {κ : Type} (key : Metrics α β → κ) (heap : Heap α β) (r : Ref) : κ :=
  key (heap r).toMetrics

section

variable {κ : Type} [LinearOrder κ]

structure Scan (α β : Type) where
  heap : Heap α β
  currentRank : Nat
  i : Nat

/-- The inner loop's condition: `j` is an index and the item there has the value `v`. -/
def tied (key : Metrics α β → κ) (items : List Ref) (heap : Heap α β) (v : κ) (j : Nat) : Bool :=
  match items[j]? with
  | some r => decide (keyAt key heap r = v)
  | none => false

def assignGroup (attr : RankAttr α β) (key : Metrics α β → κ) (items : List Ref) (fuel : Nat)
    (s : Scan α β) : Option (Scan α β) :=
  items[s.i]?.bind fun r =>
    let currentValue := keyAt key s.heap r
    (whileLoop (tied key items s.heap currentValue) (fun j => some (j + 1)) fuel s.i).map fun j =>
      { heap := updates (attr.set s.currentRank) ((items.take j).drop s.i) s.heap
        currentRank := j + 1
        i := j }

/-- The text that both ranking functions share. -/
def assignSorted (attr : RankAttr α β) (key : Metrics α β → κ) (reverse : Bool) (fuel : Nat)
    (results : List Ref) (heap : Heap α β) : Option (Heap α β) :=
  let items := sortBy reverse (keyAt key heap) results
  (whileLoop (fun s => decide (s.i < items.length)) (assignGroup attr key items fuel) fuel
    ⟨heap, 1, 0⟩).map (·.heap)

def assignCompetitionRanks (fuel : Nat) (results : List Ref) (key : Metrics α β → κ)
    (rankAttr : RankAttr α β) (descending : Bool) (heap : Heap α β) : Option (Heap α β) :=
  assignSorted rankAttr key descending fuel results heap

/-- `assign_ranks` of `compute_overall_scores`. -/
def assignRanks (fuel : Nat) (items : List Ref) (keyFn : Metrics α β → κ) (ascending : Bool)
    (heap : Heap α β) : Option (Heap α β) :=
  assignSorted .tmpRank keyFn (!ascending) fuel items heap

end

section

variable [LinearOrder α] [LinearOrder β]

/-- The key of `rank`'s sort. -/
def sortKey [Neg β] (c : ConfigResult α β) : Nat ×ₗ (α ×ₗ β) :=
  toLex (c.combinedScore, toLex (c.area, -c.throughputTops))

/-- `r.combined_score = r.throughput_rank + r.efficiency_rank`. -/
def scoreCombined (c : ConfigResult α β) : ConfigResult α β :=
  { c with combinedScore := c.throughputRank + c.efficiencyRank }

/-- `RankingEngine.rank`: the objects afterwards and the list returned. -/
def rank [Neg β] (fuel : Nat) (results : List Ref) (heap : Heap α β) :
    Option (Heap α β × List Ref) :=
  if results.isEmpty then some (heap, [])
  else do
    let h ← assignCompetitionRanks fuel results (·.throughputTops) .throughputRank true heap
    let h ← assignCompetitionRanks fuel results (·.energyEfficiency) .efficiencyRank true h
    let h := updates scoreCombined results h
    let sortedResults := sortBy false (fun r => sortKey (h r)) results
    return (h, sortedResults.take 4)

/-- `assign_ranks` on one metric, then the copy of `_tmp_rank` into its own attribute. -/
def rankMetric {κ : Type} [LinearOrder κ] (fuel : Nat) (results : List Ref)
    (keyFn : Metrics α β → κ) (ascending : Bool) (save : OverallUpdate) (heap : Heap α β) :
    Option (Heap α β) :=
  (assignRanks fuel results keyFn ascending heap).map (forEach save results)

def computeOverallScores (fuel : Nat) (results : List Ref) (heap : Heap α β) :
    Option (Heap α β × List Ref) := do
  let h := forEach .clear results heap
  let h := forEach .clearTmp (sortBy false (keyAt (·.latency) h) results) h
  let h ← rankMetric fuel results (·.latency) true .saveLatency h
  let h ← rankMetric fuel results (·.energy) true .saveEnergy h
  let h ← rankMetric fuel results (·.area) true .saveArea h
  let h ← rankMetric fuel results (·.throughputTops) false .saveThroughput h
  let h ← rankMetric fuel results (·.energyEfficiency) false .saveEfficiency h
  let h := forEach .score results h
  return (h, sortBy false (fun r => (h r).overall.overallScore) results)

end

/-! ## One group -/

section

variable {κ : Type} [LinearOrder κ] (key : Metrics α β → κ) (heap : Heap α β)

theorem tied_append_cons (front : List Ref) (r : Ref) (back : List Ref) (v : κ) :
    tied key (front ++ r :: back) heap v front.length = decide (keyAt key heap r = v) := by
  rw [tied, List.getElem?_append_right (Nat.le_refl _), Nat.sub_self]
  rfl

theorem tied_append_nil (front : List Ref) (v : κ) :
    tied key (front ++ []) heap v front.length = false := by
  rw [tied, List.append_nil, List.getElem?_eq_none (Nat.le_refl _)]

/-- The items at the start of a list that have the value `v`. -/
def group (v : κ) (back : List Ref) : List Ref :=
  back.takeWhile fun r => keyAt key heap r = v

def behind (v : κ) (back : List Ref) : List Ref :=
  back.dropWhile fun r => keyAt key heap r = v

theorem group_append_behind (v : κ) (back : List Ref) :
    group key heap v back ++ behind key heap v back = back :=
  List.takeWhile_append_dropWhile

theorem keyAt_of_mem_group {v : κ} {back : List Ref} {r : Ref} (h : r ∈ group key heap v back) :
    keyAt key heap r = v := by
  simpa using List.mem_takeWhile_imp h

theorem group_cons_of_eq {v : κ} {r : Ref} (h : keyAt key heap r = v) (back : List Ref) :
    group key heap v (r :: back) = r :: group key heap v back :=
  List.takeWhile_cons_of_pos (by simpa using h)

theorem group_cons_of_ne {v : κ} {r : Ref} (h : keyAt key heap r ≠ v) (back : List Ref) :
    group key heap v (r :: back) = [] :=
  List.takeWhile_cons_of_neg (by simpa using h)

/-- The inner loop stops behind the group. -/
theorem inner_loop (v : κ) (front back : List Ref) (fuel : Nat) (hf : back.length < fuel) :
    whileLoop (tied key (front ++ back) heap v) (fun j => some (j + 1)) fuel front.length =
      some (front ++ group key heap v back).length := by
  induction back generalizing front fuel with
  | nil =>
    obtain ⟨n, rfl⟩ : ∃ n, fuel = n + 1 := ⟨fuel - 1, by simp at hf; omega⟩
    rw [whileLoop_of_false (tied_append_nil key heap front v)]
    simp [group]
  | cons r back ih =>
    obtain ⟨n, rfl⟩ : ∃ n, fuel = n + 1 := ⟨fuel - 1, by simp at hf; omega⟩
    have hc := tied_append_cons key heap front r back v
    by_cases hr : keyAt key heap r = v
    · rw [decide_eq_true hr] at hc
      have h := ih (front ++ [r]) n (by simp at hf; omega)
      rw [List.append_assoc, List.append_assoc, List.singleton_append, List.length_append] at h
      rw [group_cons_of_eq key heap hr, whileLoop, if_pos hc]
      exact h
    · rw [decide_eq_false hr] at hc
      rw [whileLoop_of_false hc, group_cons_of_ne key heap hr, List.append_nil]

/-- One round of the outer loop ranks the items tied with the first one. -/
theorem assignGroup_eq (attr : RankAttr α β) {front back : List Ref} {r : Ref} {fuel : Nat}
    {s : Scan α β} (hi : s.i = front.length) (hf : (front ++ r :: back).length < fuel) :
    assignGroup attr key (front ++ r :: back) fuel s = some
      { heap := updates (attr.set s.currentRank) (group key s.heap (keyAt key s.heap r) (r :: back))
          s.heap
        currentRank := (front ++ group key s.heap (keyAt key s.heap r) (r :: back)).length + 1
        i := (front ++ group key s.heap (keyAt key s.heap r) (r :: back)).length } := by
  have hr : (front ++ r :: back)[front.length]? = some r := by
    rw [List.getElem?_append_right (Nat.le_refl _), Nat.sub_self]
    rfl
  have hloop := inner_loop key s.heap (keyAt key s.heap r) front (r :: back) fuel
    (by rw [List.length_append] at hf; omega)
  have hslice : ∀ g h : List Ref,
      ((front ++ (g ++ h)).take (front ++ g).length).drop front.length = g := fun g h => by
    rw [← List.append_assoc, List.take_left, List.drop_left]
  have hgroup := hslice (group key s.heap (keyAt key s.heap r) (r :: back))
    (behind key s.heap (keyAt key s.heap r) (r :: back))
  rw [group_append_behind] at hgroup
  simp only [assignGroup, hi, hr, Option.bind_some, hloop, Option.map_some, hgroup]

end

/-! ## All groups -/

section

variable {κ : Type} [LinearOrder κ] (attr : RankAttr α β) (key : Metrics α β → κ) (reverse : Bool)

/-- The objects with the competition ranks of a list written into those of `done`. -/
def rankedIn (items done : List Ref) (heap : Heap α β) : Heap α β := fun r =>
  if r ∈ done then attr.set (competitionRank reverse (keyAt key heap) items r) (heap r)
  else heap r

def ranked (results : List Ref) (heap : Heap α β) : Heap α β :=
  rankedIn attr key reverse results results heap

/-- The loop stands between two groups, and all in front of it is ranked. -/
structure RankInv (items : List Ref) (heap : Heap α β) (front back : List Ref) (s : Scan α β) :
    Prop where
  items_eq : items = front ++ back
  better : ∀ x ∈ front, ∀ y ∈ back, Better reverse (keyAt key heap x) (keyAt key heap y)
  i_eq : s.i = front.length
  rank_eq : s.currentRank = front.length + 1
  heap_eq : s.heap = rankedIn attr key reverse items front heap

variable {attr key reverse} {items front back : List Ref} {heap : Heap α β}

theorem rankedIn_metrics (items done : List Ref) (heap : Heap α β) (r : Ref) :
    (rankedIn attr key reverse items done heap r).toMetrics = (heap r).toMetrics := by
  unfold rankedIn
  split
  · exact attr.metrics _ _
  · rfl

theorem ranked_perm {l l' : List Ref} (h : l.Perm l') (heap : Heap α β) :
    ranked attr key reverse l heap = ranked attr key reverse l' heap := by
  funext r
  rw [ranked, ranked, rankedIn, rankedIn, competitionRank_perm h]
  simp only [h.mem_iff]

theorem keyAt_ranked {κ' : Type} (key' : Metrics α β → κ') (results : List Ref)
    (heap : Heap α β) : keyAt key' (ranked attr key reverse results heap) = keyAt key' heap := by
  funext r
  rw [keyAt, ranked, rankedIn_metrics, keyAt]

theorem ranked_of_mem {results : List Ref} {r : Ref} (h : r ∈ results) :
    ranked attr key reverse results heap r =
      attr.set (competitionRank reverse (keyAt key heap) results r) (heap r) := if_pos h

theorem updates_rankedIn {ties rest : List Ref} {v : κ} (hitems : items = front ++ (ties ++ rest))
    (hfront : ∀ x ∈ front, Better reverse (keyAt key heap x) v)
    (hties : ∀ x ∈ ties, keyAt key heap x = v)
    (hrest : ∀ x ∈ rest, Better reverse v (keyAt key heap x)) :
    updates (attr.set (front.length + 1)) ties (rankedIn attr key reverse items front heap) =
      rankedIn attr key reverse items (front ++ ties) heap := by
  funext r
  rw [updates_apply (attr.set_set _)]
  by_cases hr : r ∈ ties
  · have hv := hties r hr
    have hnot : r ∉ front := fun h => not_better_self v (hv ▸ hfront r h)
    have hrank : competitionRank reverse (keyAt key heap) items r = front.length + 1 := by
      rw [hitems]
      refine competitionRank_of_split (fun y hy => hv ▸ hfront y hy) fun y hy => ?_
      rw [hv]
      rcases List.mem_append.1 hy with hy | hy
      · rw [hties y hy]
        exact not_better_self v
      · exact (hrest y hy).asymm
    rw [if_pos hr, rankedIn, rankedIn, if_neg hnot, if_pos (List.mem_append_right _ hr), hrank]
  · rw [if_neg hr, rankedIn, rankedIn]
    simp [hr]

/-- In a sorted list, the items behind the first one's group are worse than it. -/
theorem better_of_mem_behind {r : Ref}
    (hs : (r :: back).Pairwise fun x y => NoWorse reverse (keyAt key heap x) (keyAt key heap y)) :
    ∀ y ∈ behind key heap (keyAt key heap r) (r :: back),
      Better reverse (keyAt key heap r) (keyAt key heap y) := by
  refine better_of_mem_dropWhile hs fun y hy => ?_
  rcases List.mem_cons.1 hy with rfl | hy
  · exact (noWorse_total _ _).elim id id
  · exact (List.pairwise_cons.1 hs).1 y hy

theorem RankInv.keyAt_heap {s : Scan α β}
    (hs : RankInv attr key reverse items heap front back s) :
    keyAt key s.heap = keyAt key heap := by
  funext r
  rw [keyAt, hs.heap_eq, rankedIn_metrics, keyAt]

theorem RankInv.init (items : List Ref) (heap : Heap α β) :
    RankInv attr key reverse items heap [] items ⟨heap, 1, 0⟩ :=
  ⟨rfl, by simp, rfl, rfl, by funext r; simp [rankedIn]⟩

theorem RankInv.done {s : Scan α β} (hs : RankInv attr key reverse items heap front back s)
    (hi : ¬ s.i < items.length) : s.heap = ranked attr key reverse items heap := by
  have hback : back = [] := by
    rw [hs.items_eq, hs.i_eq, List.length_append] at hi
    exact List.length_eq_zero_iff.1 (by omega)
  rw [hs.heap_eq, ranked, hs.items_eq, hback, List.append_nil]

theorem RankInv.round {fuel : Nat} {s : Scan α β}
    (hsorted : items.Pairwise fun x y => NoWorse reverse (keyAt key heap x) (keyAt key heap y))
    (hfuel : items.length < fuel) (hs : RankInv attr key reverse items heap front back s)
    (hi : s.i < items.length) :
    ∃ s' front' back', assignGroup attr key items fuel s = some s' ∧
      RankInv attr key reverse items heap front' back' s' ∧ s.i < s'.i := by
  have hkey := hs.keyAt_heap
  have hgr : group key s.heap = group key heap := by
    unfold group
    rw [hkey]
  have hitems := hs.items_eq
  cases back with
  | nil =>
    rw [hitems, List.append_nil, hs.i_eq] at hi
    exact absurd hi (Nat.lt_irrefl _)
  | cons r back =>
    have hstep := assignGroup_eq key attr hs.i_eq (hitems ▸ hfuel)
    rw [hkey, hgr, ← hitems] at hstep
    have hback := (List.pairwise_append.1 (hitems ▸ hsorted)).2.1
    have hsplit : items = front ++ (group key heap (keyAt key heap r) (r :: back) ++
        behind key heap (keyAt key heap r) (r :: back)) := by
      rw [group_append_behind, hitems]
    refine ⟨_, _, _, hstep, ⟨hsplit.trans (List.append_assoc ..).symm, ?_, rfl, rfl, ?_⟩, ?_⟩
    · intro x hx y hy
      rcases List.mem_append.1 hx with hx | hx
      · exact hs.better x hx y (List.dropWhile_subset _ hy)
      · rw [keyAt_of_mem_group key heap hx]
        exact better_of_mem_behind hback y hy
    · rw [hs.heap_eq, hs.rank_eq]
      exact updates_rankedIn hsplit (fun x hx => hs.better x hx r List.mem_cons_self)
        (fun x hx => keyAt_of_mem_group key heap hx) (better_of_mem_behind hback)
    · rw [hs.i_eq, group_cons_of_eq key heap rfl, List.length_append]
      simp

variable (attr key reverse)

/-- **Ranking.** With fuel for one round per item, what the loops leave is the competition rank in
every object of the list. -/
theorem assignSorted_eq (results : List Ref) (heap : Heap α β) (fuel : Nat) :
    assignSorted attr key reverse (results.length + 1 + fuel) results heap =
      some (ranked attr key reverse results heap) := by
  unfold assignSorted
  have hperm : (sortBy reverse (keyAt key heap) results).Perm results := sortBy_perm results
  have hsorted : (sortBy reverse (keyAt key heap) results).Pairwise fun x y =>
    NoWorse reverse (keyAt key heap x) (keyAt key heap y) := sortBy_pairwise results
  have hlen := hperm.length_eq
  generalize sortBy reverse (keyAt key heap) results = items at hperm hsorted hlen
  have hround : ∀ s, (∃ front back, RankInv attr key reverse items heap front back s) →
      decide (s.i < items.length) = true →
      ∃ s', assignGroup attr key items (results.length + 1 + fuel) s = some s' ∧
        (∃ front back, RankInv attr key reverse items heap front back s') ∧
        items.length - s'.i < items.length - s.i := by
    rintro s ⟨front, back, hs⟩ hc
    have hi : s.i < items.length := of_decide_eq_true hc
    have hfuel : items.length < results.length + 1 + fuel := by omega
    obtain ⟨s', front', back', hb, hs', hlt⟩ := hs.round hsorted hfuel hi
    exact ⟨s', hb, ⟨front', back', hs'⟩, by omega⟩
  obtain ⟨s, ⟨front, back, hs⟩, hc, hrun⟩ := whileLoop_total hround ⟨[], items, .init items heap⟩
  have hdone := hs.done (of_decide_eq_false hc)
  simp only
  rw [hrun _ (by show items.length - 0 < _; omega), Option.map_some, hdone, ranked_perm hperm]

end

/-! ## `rank` -/

section

variable [LinearOrder β] {results : List Ref} {heap : Heap α β} {r : Ref}

def afterRank (results : List Ref) (heap : Heap α β) : Heap α β :=
  updates scoreCombined results
    (ranked .efficiencyRank (·.energyEfficiency) true results
      (ranked .throughputRank (·.throughputTops) true results heap))

/-- The objects ranked are scored by the sum of their two ranks. -/
theorem afterRank_of_mem (h : r ∈ results) : afterRank results heap r =
    { heap r with
      throughputRank := competitionRank true (keyAt (·.throughputTops) heap) results r
      efficiencyRank := competitionRank true (keyAt (·.energyEfficiency) heap) results r
      combinedScore := competitionRank true (keyAt (·.throughputTops) heap) results r +
        competitionRank true (keyAt (·.energyEfficiency) heap) results r } := by
  rw [afterRank, updates_apply (f := scoreCombined) fun _ => rfl, if_pos h, ranked_of_mem h,
    keyAt_ranked, ranked_of_mem h]
  rfl

variable [LinearOrder α]

theorem rank_eq [Neg β] (results : List Ref) (heap : Heap α β) (fuel : Nat) :
    rank (results.length + 1 + fuel) results heap = some (afterRank results heap,
      (sortBy false (fun r => sortKey (afterRank results heap r)) results).take 4) := by
  cases results with
  | nil =>
    have : afterRank [] heap = heap := by
      funext r
      simp [afterRank, updates, ranked, rankedIn]
    rw [this]
    rfl
  | cons r results =>
    simp only [rank, List.isEmpty_cons, Bool.false_eq_true, if_false, assignCompetitionRanks,
      assignSorted_eq]
    rfl

theorem take_four [Neg β] (results : List Ref) (heap : Heap α β) :
    let sorted := sortBy false (fun r => sortKey (heap r)) results
    (sorted.take 4).length = min 4 results.length ∧
    ((sorted.take 4).Pairwise fun a b => sortKey (heap a) ≤ sortKey (heap b)) ∧
    results.Perm (sorted.take 4 ++ sorted.drop 4) ∧
    ∀ a ∈ sorted.drop 4, ∀ b ∈ sorted.take 4, ¬ sortKey (heap a) < sortKey (heap b) := by
  intro sorted
  have hperm : sorted.Perm results := sortBy_perm results
  have hsorted : sorted.Pairwise fun a b => NoWorse false (sortKey (heap a)) (sortKey (heap b)) :=
    sortBy_pairwise results
  rw [← List.take_append_drop 4 sorted, List.pairwise_append] at hsorted
  refine ⟨by rw [List.length_take, hperm.length_eq], hsorted.1, ?_, fun a ha b hb => ?_⟩
  · rw [List.take_append_drop]
    exact hperm.symm
  · exact not_lt.2 (hsorted.2.2 b hb a ha)

/-- **The ranking engine.** On every list of references, whatever the metrics: ranking ends and
gives every result its competition rank, in any order of the list, and so does the function that
`compute_overall_scores` has for it; `rank` returns the first four results, sorted. -/
theorem ranking_correct [Neg β] {κ : Type} [LinearOrder κ] (key : Metrics α β → κ)
    (rankAttr : RankAttr α β) (descending : Bool) (results : List Ref) (heap : Heap α β)
    (fuel : Nat) :
    (∃ h, assignCompetitionRanks (results.length + 1 + fuel) results key rankAttr descending heap =
        some h ∧
      (∀ r ∈ results, rankAttr.get (h r) = 1 + results.countP fun q =>
        Better descending (key (heap q).toMetrics) (key (heap r).toMetrics)) ∧
      (∀ results', results'.Perm results → assignCompetitionRanks (results.length + 1 + fuel)
        results' key rankAttr descending heap = some h) ∧
      ∃ h', assignRanks (results.length + 1 + fuel) results key (!descending) heap = some h' ∧
        ∀ r ∈ results, (h' r).overall.tmpRank = rankAttr.get (h r)) ∧
    ∃ h top, rank (results.length + 1 + fuel) results heap = some (h, top) ∧
      top.length = min 4 results.length ∧
      (∀ r ∈ results, (h r).toMetrics = (heap r).toMetrics ∧ (h r).combinedScore =
        (1 + results.countP fun q => decide ((heap r).throughputTops < (heap q).throughputTops)) +
        (1 + results.countP fun q =>
          decide ((heap r).energyEfficiency < (heap q).energyEfficiency))) ∧
      (top.Pairwise fun a b => sortKey (h a) ≤ sortKey (h b)) ∧
      ∃ rest, results.Perm (top ++ rest) ∧
        ∀ a ∈ rest, ∀ b ∈ top, ¬ sortKey (h a) < sortKey (h b) := by
  refine ⟨⟨_, assignSorted_eq rankAttr key descending results heap fuel, fun r hr => ?_,
    fun results' hp => ?_, _, assignSorted_eq _ _ _ _ _ _, fun r hr => ?_⟩,
    _, _, rank_eq results heap fuel, ?_⟩
  · rw [ranked_of_mem hr, rankAttr.get_set]
    rfl
  · have h := assignSorted_eq rankAttr key descending results' heap fuel
    rw [hp.length_eq, ranked_perm hp] at h
    exact h
  · rw [ranked_of_mem hr, ranked_of_mem hr, rankAttr.get_set, Bool.not_not]
    rfl
  · obtain ⟨hlen, hsorted, hperm, hrest⟩ := take_four results (afterRank results heap)
    refine ⟨hlen, fun r hr => ?_, hsorted, _, hperm, hrest⟩
    rw [afterRank_of_mem hr]
    exact ⟨rfl, rfl⟩

end

/-! ## `compute_overall_scores` -/

section

variable {results : List Ref} {heap : Heap α β} {r : Ref}

theorem forEach_apply (u : OverallUpdate) (l : List Ref) (heap : Heap α β) (r : Ref) :
    forEach u l heap r =
      if r ∈ l then { heap r with overall := u.run (heap r).overall } else heap r :=
  updates_apply (fun c => by simp only [u.idem]) l heap r

theorem keyAt_forEach {κ : Type} (key : Metrics α β → κ) (u : OverallUpdate) (l : List Ref)
    (heap : Heap α β) : keyAt key (forEach u l heap) = keyAt key heap := by
  funext r
  rw [keyAt, forEach_apply, keyAt]
  split <;> rfl

variable {κ : Type} [LinearOrder κ] (keyFn : Metrics α β → κ) (ascending : Bool)
  (save : OverallUpdate)

def savedRank (results : List Ref) (heap : Heap α β) : Heap α β :=
  forEach save results (ranked .tmpRank keyFn (!ascending) results heap)

theorem rankMetric_eq (fuel : Nat) (results : List Ref) (heap : Heap α β) :
    rankMetric (results.length + 1 + fuel) results keyFn ascending save heap =
      some (savedRank keyFn ascending save results heap) := by
  rw [rankMetric, assignRanks, assignSorted_eq]
  rfl

theorem savedRank_of_mem (h : r ∈ results) : savedRank keyFn ascending save results heap r =
    { heap r with
      overall := save.run { (heap r).overall with
        tmpRank := competitionRank (!ascending) (keyAt keyFn heap) results r } } := by
  rw [savedRank, forEach_apply, if_pos h, ranked_of_mem h]
  rfl

theorem keyAt_savedRank {κ' : Type} (key : Metrics α β → κ') :
    keyAt key (savedRank keyFn ascending save results heap) = keyAt key heap := by
  rw [savedRank, keyAt_forEach, keyAt_ranked]

end

section

variable [LinearOrder α] [LinearOrder β]

def afterOverall (results : List Ref) (heap : Heap α β) : Heap α β :=
  let h := forEach .clear results heap
  let h := forEach .clearTmp (sortBy false (keyAt (·.latency) h) results) h
  let h := savedRank (·.latency) true .saveLatency results h
  let h := savedRank (·.energy) true .saveEnergy results h
  let h := savedRank (·.area) true .saveArea results h
  let h := savedRank (·.throughputTops) false .saveThroughput results h
  let h := savedRank (·.energyEfficiency) false .saveEfficiency results h
  forEach .score results h

/-- Every result is scored by the sum of its competition ranks on the five metrics. -/
theorem afterOverall_of_mem {results : List Ref} {heap : Heap α β} {r : Ref} (h : r ∈ results) :
    (afterOverall results heap r).overall.overallScore =
      competitionRank false (keyAt (·.latency) heap) results r +
      competitionRank false (keyAt (·.energy) heap) results r +
      competitionRank false (keyAt (·.area) heap) results r +
      competitionRank true (keyAt (·.throughputTops) heap) results r +
      competitionRank true (keyAt (·.energyEfficiency) heap) results r := by
  simp only [afterOverall, forEach_apply .score, if_pos h, savedRank_of_mem _ _ _ h,
    keyAt_savedRank, keyAt_forEach]
  rfl

/-- **Overall scores.** All results are returned, sorted by score. -/
theorem computeOverallScores_eq (results : List Ref) (heap : Heap α β) (fuel : Nat) :
    computeOverallScores (results.length + 1 + fuel) results heap = some (afterOverall results heap,
      sortBy false (fun r => (afterOverall results heap r).overall.overallScore) results) := by
  simp only [computeOverallScores, rankMetric_eq]
  rfl

end

end CimSigmoid.F6
