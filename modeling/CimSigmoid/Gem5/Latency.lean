import CimSigmoid.Gem5.Bram
import CimSigmoid.Queue.Delay

/-!
# Latency of the wrapper

`tick` erases from `pendingTransactions` while it walks over it. Here the wrapper is
shown to be a queue with a fixed delay of `max latency 1` ticks: after any enqueues
and ticks it holds the transactions that came less than that many ticks ago, and the
others have left, each once, in order and on time (`latency_exact`).
-/

namespace CimSigmoid.Gem5

open Machine

namespace BRAMWrapper

theorem tickAll_eq (ts : List BRAMTransaction) :
    tickAll ts = (ts.filter fun t => 1 < t.cyclesRemaining).map countDown := by
  induction ts with
  | nil => rfl
  | cons t ts ih =>
    rw [tickAll, countDown_cyclesRemaining, ih]
    split
    · rw [List.filter_cons_of_neg (by simp; omega)]
    · rw [List.filter_cons_of_pos (by simp; omega), List.map_cons]

theorem completed_eq (ts : List BRAMTransaction) :
    completed ts = (ts.filter fun t => t.cyclesRemaining ≤ 1).map BRAMTransaction.access := by
  induction ts with
  | nil => rfl
  | cons t ts ih =>
    rw [completed, countDown_cyclesRemaining, ih]
    split
    · rw [List.filter_cons_of_pos (by simp; omega), List.map_cons]
    · rw [List.filter_cons_of_neg (by simp; omega)]

end BRAMWrapper

/-- The wrapper with a clock and a record of the transactions that left and when. -/
structure TimedWrapper where
  wrapper : BRAMWrapper
  now : Nat
  left : List (Access × Nat)

/-- Calls of `enqueue`, each made when `canAccept` holds, and of `tick`. -/
def wrapperQueue (w : BRAMWrapper) : System TimedWrapper (Queue.Event Access) Fault where
  init := ⟨w, 0, []⟩
  enabled s
    | .put a => s.wrapper.canAccept a.addr a.isWrite = true
    | .tick => True
  step s
    | .put a =>
      if s.wrapper.canAccept a.addr a.isWrite then
        .ok { s with wrapper := s.wrapper.enqueue a.addr a.isWrite }
      else .error .assertion
    | .tick =>
      .ok
        { wrapper := s.wrapper.tick
          now := s.now + 1
          left := s.left ++ (BRAMWrapper.completed s.wrapper.pendingTransactions).map
            fun a => (a, s.now + 1) }

/-- A transaction enqueued after `i.2` ticks, as it stands in the queue after `now` ticks. -/
def transaction (latency now : Nat) (i : Access × Nat) : BRAMTransaction :=
  ⟨i.1.addr, i.1.isWrite, latency - (now - i.2)⟩

/-- Ticks from `enqueue` to completion. -/
def delay (latency : Nat) : Nat := max latency 1

theorem countDown_transaction {latency now : Nat} {i : Access × Nat} (hi : i.2 ≤ now) :
    BRAMWrapper.countDown (transaction latency now i) = transaction latency (now + 1) i := by
  have hnext : latency - (now - i.2) - 1 = latency - (now + 1 - i.2) := by omega
  unfold BRAMWrapper.countDown
  split
  · simp only [transaction, hnext]
  · have hzero : latency - (now - i.2) = 0 := Nat.eq_zero_of_not_pos ‹_›
    rw [transaction, transaction, ← hnext, hzero]

theorem cyclesRemaining_le_one_iff (latency : Nat) {now : Nat} {i : Access × Nat} (hi : i.2 ≤ now) :
    (transaction latency now i).cyclesRemaining ≤ 1 ↔ i.2 + delay latency ≤ now + 1 := by
  unfold transaction delay
  simp only
  omega

section

variable {latency now : Nat} {l : List (Access × Nat)} (h : ∀ i ∈ l, i.2 ≤ now)
include h

/-- A tick brings every entry of a queue one tick on and erases those that are due. -/
theorem tickAll_transactions : BRAMWrapper.tickAll (l.map (transaction latency now)) =
    (l.filter fun i => now + 1 < i.2 + delay latency).map (transaction latency (now + 1)) := by
  have hkept : l.filter (fun i => decide (1 < (transaction latency now i).cyclesRemaining)) =
      l.filter fun i => now + 1 < i.2 + delay latency := by
    apply List.filter_congr
    intro i hi
    have := cyclesRemaining_le_one_iff latency (h i hi)
    simp
    omega
  rw [BRAMWrapper.tickAll_eq, List.filter_map, List.map_map]
  simp only [Function.comp_def]
  rw [hkept]
  apply List.map_congr_left
  intro i hi
  exact countDown_transaction (h i (List.mem_of_mem_filter hi))

theorem completed_transactions : BRAMWrapper.completed (l.map (transaction latency now)) =
    (l.filter fun i => i.2 + delay latency ≤ now + 1).map Prod.fst := by
  have hdue : l.filter (fun i => decide ((transaction latency now i).cyclesRemaining ≤ 1)) =
      l.filter fun i => i.2 + delay latency ≤ now + 1 := by
    apply List.filter_congr
    intro i hi
    simp only [cyclesRemaining_le_one_iff latency (h i hi)]
  rw [BRAMWrapper.completed_eq, List.filter_map, List.map_map]
  simp only [Function.comp_def]
  rw [hdue]
  rfl

end

/-- The wrapper after the events: the entries that wait, and a record of those released. -/
structure TimedWrapper.Holds (w : BRAMWrapper) (es : List (Queue.Event Access))
    (s : TimedWrapper) : Prop where
  now : s.now = Queue.ticks es
  left : s.left = Queue.released (delay w.latency) es
  wrapper : s.wrapper = { w with
    pendingTransactions :=
      (Queue.waiting (delay w.latency) es).map (transaction w.latency (Queue.ticks es)) }

namespace TimedWrapper

variable {w : BRAMWrapper} {es : List (Queue.Event Access)} {s : TimedWrapper}

theorem Holds.new (hw : w.pendingTransactions = []) : Holds w [] ⟨w, 0, []⟩ := by
  refine ⟨rfl, rfl, ?_⟩
  cases w
  cases hw
  rfl

theorem delay_pos (latency : Nat) : 0 < delay latency := by
  unfold delay
  omega

theorem Holds.enqueue (h : s.Holds w es) (a : Access) :
    Holds w (es ++ [.put a]) { s with wrapper := s.wrapper.enqueue a.addr a.isWrite } := by
  have hticks : Queue.ticks (es ++ [.put a]) = Queue.ticks es := Queue.ticks_append es [.put a]
  refine ⟨h.now.trans hticks.symm, ?_, ?_⟩
  · rw [Queue.released_put es (delay_pos _)]
    exact h.left
  · have hnew : transaction w.latency (Queue.ticks es) (a, Queue.ticks es) =
        ⟨a.addr, a.isWrite, w.latency⟩ := by
      simp [transaction]
    rw [Queue.waiting_put es (delay_pos _), hticks, List.map_append, List.map_singleton, hnew,
      h.wrapper]
    rfl

theorem Holds.tick (h : s.Holds w es) :
    Holds w (es ++ [.tick])
      { wrapper := s.wrapper.tick
        now := s.now + 1
        left := s.left ++ (BRAMWrapper.completed s.wrapper.pendingTransactions).map
          fun a => (a, s.now + 1) } := by
  have hticks : Queue.ticks (es ++ [.tick]) = Queue.ticks es + 1 := Queue.ticks_append es [.tick]
  have hpast : ∀ i ∈ Queue.waiting (delay w.latency) es, i.2 ≤ Queue.ticks es := by
    intro i hi
    have := (Queue.mem_stamps (List.mem_of_mem_filter hi)).2
    omega
  refine ⟨?_, ?_, ?_⟩
  · rw [hticks, ← h.now]
  · simp only [h.left, h.wrapper, h.now]
    rw [Queue.released_tick, completed_transactions hpast, List.map_map]
    rfl
  · rw [Queue.waiting_tick, hticks, ← tickAll_transactions hpast, h.wrapper]
    rfl

end TimedWrapper

theorem wrapperQueue_holds {w : BRAMWrapper} (hw : w.pendingTransactions = [])
    {es : List (Queue.Event Access)} {s : TimedWrapper} (h : (wrapperQueue w).Run es s) :
    s.Holds w es := by
  induction h with
  | nil => exact .new hw
  | @snoc es e s s' _ he hs ih =>
    cases e with
    | put a =>
      simp only [wrapperQueue] at he hs
      rw [if_pos he] at hs
      cases hs
      exact ih.enqueue a
    | tick =>
      cases hs
      exact ih.tick

theorem wrapperQueue_length {w : BRAMWrapper} (hw : w.pendingTransactions = [])
    {es : List (Queue.Event Access)} {s : TimedWrapper} (h : (wrapperQueue w).Run es s) :
    s.wrapper.pendingTransactions.length ≤ s.wrapper.queueSize := by
  refine System.Run.inv (P := fun s =>
    s.wrapper.pendingTransactions.length ≤ s.wrapper.queueSize) ?_ (fun s e s' ih he hs => ?_) h
  · simp [wrapperQueue, hw]
  cases e with
  | put a =>
    simp only [wrapperQueue] at he hs
    rw [if_pos he] at hs
    cases hs
    simp only [BRAMWrapper.canAccept, Bool.and_eq_true, decide_eq_true_eq] at he
    simp only [BRAMWrapper.enqueue, List.length_append, List.length_singleton]
    omega
  | tick =>
    cases hs
    exact (BRAMWrapper.tickAll_length_le _).trans ih

/-- **Latency of the wrapper.** A transaction leaves at the `max latency 1`-th tick after it was
enqueued and waits until then; all leave in the order in which they came, each once; and the queue
keeps within its size. -/
theorem latency_exact {p : Params} {w : BRAMWrapper} (hw : BRAMWrapper.new p = some w)
    {es : List (Queue.Event Access)} {s : TimedWrapper} (h : (wrapperQueue w).Run es s) :
    s.now = Queue.ticks es ∧
    s.left = ((Queue.stamps 0 es).filter fun i => i.2 + max w.latency 1 ≤ s.now).map
      (fun i => (i.1, i.2 + max w.latency 1)) ∧
    s.wrapper.pendingTransactions =
      ((Queue.stamps 0 es).filter fun i => s.now < i.2 + max w.latency 1).map
        (transaction w.latency s.now) ∧
    s.left.map Prod.fst ++ s.wrapper.pendingTransactions.map BRAMTransaction.access =
      (Queue.stamps 0 es).map Prod.fst ∧
    s.wrapper.pendingTransactions.length ≤ s.wrapper.queueSize := by
  have hempty := BRAMWrapper.new_pendingTransactions hw
  obtain ⟨hnow, hleft, hwrapper⟩ := wrapperQueue_holds hempty h
  have hpending := congrArg BRAMWrapper.pendingTransactions hwrapper
  refine ⟨hnow, ?_, ?_, ?_, wrapperQueue_length hempty h⟩
  · rw [hnow]
    exact hleft
  · rw [hnow]
    exact hpending
  · rw [hleft, hpending, List.map_map]
    exact Queue.released_append_waiting _ es

theorem latency_exact_two : ∃ s,
    (wrapperQueue ⟨4, 16384, 2, 16, []⟩).Run
      [.put ⟨0, false⟩, .tick, .put ⟨4, true⟩, .tick] s ∧
    s.left = [(⟨0, false⟩, 2)] ∧ s.wrapper.pendingTransactions = [⟨4, true, 1⟩] := by
  have hw : BRAMWrapper.new ⟨64, 4, 2⟩ = some ⟨4, 16384, 2, 16, []⟩ := by decide
  have h1 : (wrapperQueue ⟨4, 16384, 2, 16, []⟩).Run [.put ⟨0, false⟩] _ :=
    .snoc .nil rfl rfl
  have h2 : (wrapperQueue ⟨4, 16384, 2, 16, []⟩).Run [.put ⟨0, false⟩, .tick] _ :=
    .snoc h1 trivial rfl
  have h3 : (wrapperQueue ⟨4, 16384, 2, 16, []⟩).Run
      [.put ⟨0, false⟩, .tick, .put ⟨4, true⟩] _ := .snoc h2 rfl rfl
  have h4 : (wrapperQueue ⟨4, 16384, 2, 16, []⟩).Run
      [.put ⟨0, false⟩, .tick, .put ⟨4, true⟩, .tick] _ := .snoc h3 trivial rfl
  obtain ⟨-, hleft, hpending, -⟩ := latency_exact hw h4
  exact ⟨_, h4, hleft, hpending⟩

end CimSigmoid.Gem5
