import Mathlib.Data.List.Basic

/-!
# Queues with a fixed delay

Entries come in at any time and leave `d` ticks later. The history of such a queue
fixes its contents: `stamps` lists the entries with the tick after which they came,
`waiting` those that are still inside and `released` those that have left, with the
tick at which they did. Stamps do not decrease along the history, so entries leave
in the order in which they came (`released_append_waiting`). The lemmas on a history
extended by one event are the steps of a simulation.
-/

namespace CimSigmoid.Queue

inductive Event (α : Type*) where
  | put (a : α)
  | tick

variable {α : Type*}

def ticks : List (Event α) → Nat
  | [] => 0
  | .put _ :: es => ticks es
  | .tick :: es => ticks es + 1

/-- The entries of a history that starts after `now` ticks, each with its time. -/
def stamps (now : Nat) : List (Event α) → List (α × Nat)
  | [] => []
  | .put a :: es => (a, now) :: stamps now es
  | .tick :: es => stamps (now + 1) es

/-- The entries that came less than `d` ticks ago. -/
def waiting (d : Nat) (es : List (Event α)) : List (α × Nat) :=
  (stamps 0 es).filter fun i => ticks es < i.2 + d

/-- The entries that came `d` ticks ago or earlier, with the tick that let them go. -/
def released (d : Nat) (es : List (Event α)) : List (α × Nat) :=
  ((stamps 0 es).filter fun i => i.2 + d ≤ ticks es).map fun i => (i.1, i.2 + d)

/-! ## Histories -/

@[simp] theorem ticks_append (es es' : List (Event α)) :
    ticks (es ++ es') = ticks es + ticks es' := by
  induction es with
  | nil => simp [ticks]
  | cons e es ih =>
    cases e with
    | put a => simp only [List.cons_append, ticks, ih]
    | tick =>
      simp only [List.cons_append, ticks, ih]
      omega

theorem stamps_append (now : Nat) (es es' : List (Event α)) :
    stamps now (es ++ es') = stamps now es ++ stamps (now + ticks es) es' := by
  induction es generalizing now with
  | nil => rfl
  | cons e es ih =>
    cases e with
    | put a => simp only [List.cons_append, stamps, ticks, ih]
    | tick =>
      simp only [List.cons_append, stamps, ticks, ih]
      rw [Nat.add_right_comm, Nat.add_assoc]

theorem stamps_put (es : List (Event α)) (a : α) :
    stamps 0 (es ++ [.put a]) = stamps 0 es ++ [(a, ticks es)] := by
  rw [stamps_append, Nat.zero_add]
  rfl

theorem stamps_tick (es : List (Event α)) : stamps 0 (es ++ [.tick]) = stamps 0 es := by
  rw [stamps_append]
  exact List.append_nil _

theorem mem_stamps {now : Nat} {es : List (Event α)} {i : α × Nat} (h : i ∈ stamps now es) :
    now ≤ i.2 ∧ i.2 ≤ now + ticks es := by
  induction es generalizing now with
  | nil => cases h
  | cons e es ih =>
    cases e with
    | put a =>
      rcases List.mem_cons.1 h with rfl | h
      · simp
      · exact ih h
    | tick =>
      have := ih h
      simp only [ticks]
      omega

theorem stamps_pairwise (now : Nat) (es : List (Event α)) :
    (stamps now es).Pairwise fun i j => i.2 ≤ j.2 := by
  induction es generalizing now with
  | nil => exact .nil
  | cons e es ih =>
    cases e with
    | put a => exact .cons (fun i hi => (mem_stamps hi).1) (ih now)
    | tick => exact ih (now + 1)

/-! ## Order -/

theorem filter_append_filter {l : List (α × Nat)} (hl : l.Pairwise fun i j => i.2 ≤ j.2)
    (c d : Nat) :
    (l.filter fun i => i.2 + d ≤ c) ++ (l.filter fun i => c < i.2 + d) = l := by
  induction hl with
  | nil => rfl
  | @cons a l ha hl ih =>
    by_cases h : a.2 + d ≤ c
    · rw [List.filter_cons_of_pos (by simpa using h), List.filter_cons_of_neg (by simpa using h),
        List.cons_append, ih]
    · have hnone : (l.filter fun i => i.2 + d ≤ c) = [] := by
        rw [List.filter_eq_nil_iff]
        intro i hi
        have := ha i hi
        simp
        omega
      have hall : (l.filter fun i => c < i.2 + d) = l := by
        rw [List.filter_eq_self]
        intro i hi
        have := ha i hi
        simp
        omega
      rw [List.filter_cons_of_neg (by simpa using h),
        List.filter_cons_of_pos (by simpa using h), hnone, hall, List.nil_append]

/-- **First in, first out**, and every entry once. -/
theorem released_append_waiting (d : Nat) (es : List (Event α)) :
    (released d es).map Prod.fst ++ (waiting d es).map Prod.fst = (stamps 0 es).map Prod.fst := by
  have hsplit := filter_append_filter (stamps_pairwise 0 es) (ticks es) d
  rw [released, waiting, List.map_map]
  conv_rhs => rw [← hsplit, List.map_append]
  rfl

/-! ## Steps -/

section

variable {d : Nat} (es : List (Event α))

theorem waiting_put (hd : 0 < d) (a : α) :
    waiting d (es ++ [.put a]) = waiting d es ++ [(a, ticks es)] := by
  simp only [waiting, stamps_put, ticks_append, ticks, Nat.add_zero, List.filter_append]
  rw [List.filter_cons_of_pos (by simpa using hd), List.filter_nil]

theorem released_put (hd : 0 < d) (a : α) : released d (es ++ [.put a]) = released d es := by
  simp only [released, stamps_put, ticks_append, ticks, Nat.add_zero, List.filter_append]
  rw [List.filter_cons_of_neg (by simp; omega), List.filter_nil, List.append_nil]

theorem waiting_tick :
    waiting d (es ++ [.tick]) = (waiting d es).filter fun i => ticks es + 1 < i.2 + d := by
  rw [waiting, waiting, List.filter_filter, stamps_tick]
  apply List.filter_congr
  intro i _
  simp [ticks]
  omega

theorem released_tick : released d (es ++ [.tick]) = released d es ++
    ((waiting d es).filter fun i => i.2 + d ≤ ticks es + 1).map fun i => (i.1, ticks es + 1) := by
  have hsorted := (stamps_pairwise 0 es).filter fun i => decide (i.2 + d ≤ ticks es + 1)
  have hsplit := filter_append_filter hsorted (ticks es) d
  have hold : (stamps 0 es).filter (fun i => decide (i.2 + d ≤ ticks es)) =
      ((stamps 0 es).filter fun i => i.2 + d ≤ ticks es + 1).filter
        fun i => i.2 + d ≤ ticks es := by
    rw [List.filter_filter]
    apply List.filter_congr
    intro i _
    simp
    omega
  have hnew : (waiting d es).filter (fun i => decide (i.2 + d ≤ ticks es + 1)) =
      ((stamps 0 es).filter fun i => i.2 + d ≤ ticks es + 1).filter
        fun i => ticks es < i.2 + d := List.filter_comm ..
  have htick : ticks (es ++ [.tick]) = ticks es + 1 := ticks_append es [.tick]
  rw [released, released, stamps_tick, htick, hold, hnew]
  conv_lhs => rw [← hsplit, List.map_append]
  congr 1
  -- among those released up to now, those not released before are due at this very tick
  apply List.map_congr_left
  intro i hi
  simp only [List.mem_filter, decide_eq_true_eq] at hi
  rw [show i.2 + d = ticks es + 1 by omega]

end

end CimSigmoid.Queue
