import CimSigmoid.Gem5.Memory

/-!
# `resetStats` and the simulation

`resetStats` clears the wrapper's queue along with nothing that is a statistic. Two
runs are compared here, one with the call and one without, by what they let one see:
the transactions each tick completes and the answer to each request. The answers are
the same (`reset_keeps_decisions`), since they depend on the counts only. The
completions are the same exactly if nothing was pending (`reset_iff`).
-/

namespace CimSigmoid.Gem5

open Machine

inductive Observation where
  | request (answer : Except Fault Bool)
  | completed (accesses : List Access)
  | other

def observe (s : BRAM) : MemoryEvent → Observation
  | .timing (.recvTimingReq pkt) => .request ((s.recvTimingReq pkt).map Prod.fst)
  | .timing .tick => .completed (BRAMWrapper.completed s.wrapper.pendingTransactions)
  | .timing (.sendResponseEvent _) => .other
  | .timing (.recvRespRetry _) => .other
  | .idleTick => .other
  | .resetStats => .other

/-! ## Ticks empty the queue -/

variable {w : BRAMWrapper}

theorem tick_wrapper (s : BRAM) : (s.tick true).wrapper = s.wrapper.tick :=
  congrArg Prod.fst s.tick_books

theorem trace_tick (s : BRAM) (es : List MemoryEvent) :
    (memory w).trace observe s (.timing .tick :: es) =
      .completed (BRAMWrapper.completed s.wrapper.pendingTransactions) ::
        (memory w).trace observe (s.tick true) es :=
  System.trace_cons_ok rfl es

/-- Ticks of an empty queue complete nothing. -/
theorem trace_ticks_nil {s : BRAM} (hs : s.wrapper.pendingTransactions = []) (n : Nat) :
    (memory w).trace observe s (List.replicate n (.timing .tick)) =
      List.replicate n (.completed []) := by
  induction n generalizing s with
  | zero => rfl
  | succ n ih =>
    have hnext : (s.tick true).wrapper.pendingTransactions = [] := by
      rw [tick_wrapper, BRAMWrapper.tick, hs]
      rfl
    rw [List.replicate_succ, List.replicate_succ, trace_tick, ih hnext, hs]
    rfl

/-- Ticks complete the first transaction of a queue in the end. -/
theorem trace_ticks_cons {s : BRAM} {t : BRAMTransaction} {ts : List BRAMTransaction}
    (hs : s.wrapper.pendingTransactions = t :: ts) : ∃ n,
    (memory w).trace observe s (List.replicate n (.timing .tick)) ≠
      List.replicate n (.completed []) := by
  induction hr : t.cyclesRemaining using Nat.strong_induction_on generalizing s t ts with
  | _ r ih =>
    have hcount := BRAMWrapper.countDown_cyclesRemaining t
    by_cases hlast : t.cyclesRemaining ≤ 1
    · refine ⟨1, fun h => ?_⟩
      rw [List.replicate_one, trace_tick, hs, BRAMWrapper.completed, if_pos (by omega)] at h
      cases h
    · -- the first transaction stays; what else the tick completes does not matter
      have hnext : (s.tick true).wrapper.pendingTransactions =
          BRAMWrapper.countDown t :: BRAMWrapper.tickAll ts := by
        rw [tick_wrapper, BRAMWrapper.tick, hs, BRAMWrapper.tickAll, if_neg (by omega)]
      obtain ⟨n, hn⟩ := ih _ (by omega) hnext rfl
      refine ⟨n + 1, fun h => hn ?_⟩
      rw [List.replicate_succ, List.replicate_succ, trace_tick] at h
      exact (List.cons.inj h).2

theorem resetStats_eq_self {s : BRAM} (hs : s.wrapper.pendingTransactions = []) :
    s.resetStats = s := by
  obtain ⟨⟨_, _, _, _, ts⟩, _⟩ := s
  cases hs
  rfl

/-- **A reset is harmless exactly if nothing is pending.** -/
theorem reset_iff (s : BRAM) :
    (∀ es, (memory w).trace observe s.resetStats es = (memory w).trace observe s es) ↔
      s.wrapper.pendingTransactions = [] := by
  constructor
  · intro hsame
    cases hs : s.wrapper.pendingTransactions with
    | nil => rfl
    | cons t ts =>
      obtain ⟨n, hn⟩ := trace_ticks_cons (w := w) hs
      rw [← hsame, trace_ticks_nil rfl] at hn
      exact absurd rfl hn
  · intro hs es
    rw [resetStats_eq_self hs]

/-- A read is in flight when the statistics are reset: the next tick completes it in the one run
and nothing in the other. -/
theorem reset_loses_read : ∃ s,
    (memory defaultWrapper).Run [.timing (.recvTimingReq aRead)] s ∧
    (memory defaultWrapper).trace observe s [.timing .tick] = [.completed [⟨0, false⟩]] ∧
    (memory defaultWrapper).trace observe s.resetStats [.timing .tick] = [.completed []] ∧
    (memory defaultWrapper).trace observe s.resetStats [.timing .tick] ≠
      (memory defaultWrapper).trace observe s [.timing .tick] := by
  have hrun : (memory defaultWrapper).Run [.timing (.recvTimingReq aRead)] _ :=
    .snoc .nil trivial rfl
  exact ⟨_, hrun, rfl, rfl, nofun⟩

/-! ## Answers to requests -/

namespace BRAM

/-- The object with another queue in its wrapper. -/
def withPending (ts : List BRAMTransaction) (s : BRAM) : BRAM :=
  { s with wrapper := { s.wrapper with pendingTransactions := ts } }

variable (s : BRAM) (ts : List BRAMTransaction)

/-! The queue matters to `enqueue` and `tick` only. -/

theorem accessAndRespond_withPending (pkt : Packet) :
    (s.withPending ts).accessAndRespond pkt = (s.accessAndRespond pkt).map (withPending ts) := by
  cases hr : s.retryResp <;> cases hs : s.scheduled <;> cases hn : pkt.needsResponse <;>
    simp [accessAndRespond, schedule, withPending, hr, hs, hn, Except.map]

theorem sendResponse_withPending (success : Bool) :
    (s.withPending ts).sendResponse success = (s.sendResponse success).map (withPending ts) := by
  obtain ⟨wrapper, port, retryReq, retryResp, outstandingReads, outstandingWrites, reads, writes,
    responseQueue, scheduled, drainDone, queued, acceptedReads⟩ := s
  cases retryResp with
  | true => rfl
  | false =>
    cases responseQueue with
    | nil => rfl
    | cons pkt rest =>
      cases success with
      | false => cases scheduled <;> rfl
      | true =>
        simp only [sendResponse, schedule, withPending, nbrOutstanding, signalDrainDone, bind,
          Except.bind, Except.map]
        cases rest <;> cases scheduled <;> simp <;> split <;> rfl

theorem recvRespRetry_withPending (success : Bool) :
    (s.withPending ts).recvRespRetry success = (s.recvRespRetry success).map (withPending ts) := by
  cases hr : s.retryResp with
  | false => simp [recvRespRetry, withPending, hr, Except.map]
  | true =>
    have hsend := sendResponse_withPending
      { s with port := { s.port with refused := false }, retryResp := false } ts success
    simpa [recvRespRetry, withPending, hr] using hsend

theorem tick_eq : s.tick true = { s with
    wrapper := s.wrapper.tick
    retryReq := s.retryReq && !decide (s.nbrOutstanding < s.wrapper.queueSize) } := by
  have hroom : { s with wrapper := s.wrapper.tick }.nbrOutstanding = s.nbrOutstanding := rfl
  have hsize : s.wrapper.tick.queueSize = s.wrapper.queueSize := rfl
  simp only [tick, if_true, hroom, hsize]
  cases hr : s.retryReq <;> cases hd : decide (s.nbrOutstanding < s.wrapper.queueSize) <;> simp

theorem tick_withPending :
    (s.withPending ts).tick true = (s.tick true).withPending (BRAMWrapper.tickAll ts) := by
  rw [tick_eq, tick_eq]
  rfl

/-- The wrapper looks at its queue only for room. -/
theorem canAccept_withPending {addr : Nat} {isWrite : Bool}
    (hroom : s.wrapper.pendingTransactions.length < s.wrapper.queueSize)
    (hroom' : ts.length < s.wrapper.queueSize) :
    (s.withPending ts).wrapper.canAccept addr isWrite = s.wrapper.canAccept addr isWrite := by
  rw [BRAMWrapper.canAccept, BRAMWrapper.canAccept, decide_eq_true hroom]
  exact congrArg (· && _) (decide_eq_true hroom')

theorem enqueue_withPending {c : Bool} (pkt : Packet)
    (hroom : c = true → s.wrapper.pendingTransactions.length < s.wrapper.queueSize)
    (hroom' : c = true → ts.length < s.wrapper.queueSize) :
    ∃ ts', (s.withPending ts).enqueue c pkt =
      (s.enqueue c pkt).map fun r => (r.1, r.2.withPending ts') := by
  cases c with
  | false => exact ⟨ts, rfl⟩
  | true =>
    refine ⟨ts ++ [⟨pkt.addr, pkt.isWrite, s.wrapper.latency⟩], ?_⟩
    simp only [enqueue, if_true, canAccept_withPending s ts (hroom rfl) (hroom' rfl)]
    split <;> rfl

theorem answer_enqueue_withPending (pkt : Packet)
    (hroom : s.wrapper.pendingTransactions.length < s.wrapper.queueSize)
    (hroom' : ts.length < s.wrapper.queueSize) :
    ∃ ts', ((s.withPending ts).accessAndRespond pkt >>= fun t => t.enqueue true pkt) =
      (s.accessAndRespond pkt >>= fun t => t.enqueue true pkt).map
        fun r => (r.1, r.2.withPending ts') := by
  rw [accessAndRespond_withPending]
  cases ht : s.accessAndRespond pkt with
  | error f => exact ⟨ts, rfl⟩
  | ok t =>
    have hw : t.wrapper = s.wrapper := congrArg Prod.fst (accessAndRespond_books ht)
    obtain ⟨ts', h⟩ := enqueue_withPending t ts (c := true) pkt (fun _ => hw ▸ hroom)
      (fun _ => hw ▸ hroom')
    exact ⟨ts', h⟩

theorem recvTimingReq_withPending (pkt : Packet)
    (hroom : s.nbrOutstanding < s.wrapper.queueSize →
      s.wrapper.pendingTransactions.length < s.wrapper.queueSize)
    (hroom' : s.nbrOutstanding < s.wrapper.queueSize → ts.length < s.wrapper.queueSize) :
    ∃ ts', (s.withPending ts).recvTimingReq pkt =
      (s.recvTimingReq pkt).map fun r => (r.1, r.2.withPending ts') := by
  have hretry : (s.withPending ts).retryReq = s.retryReq := rfl
  have hcount : (s.withPending ts).nbrOutstanding = s.nbrOutstanding := rfl
  have hsize : (s.withPending ts).wrapper.queueSize = s.wrapper.queueSize := rfl
  simp only [recvTimingReq, hretry, hcount, hsize]
  split
  · exact ⟨ts, rfl⟩
  split
  · exact ⟨ts, rfl⟩
  split
  · split
    · rename_i htaken
      have htaken := of_decide_eq_true htaken
      exact enqueue_withPending (s.countRead pkt) ts pkt (fun _ => hroom htaken)
        (fun _ => hroom' htaken)
    · exact ⟨ts, rfl⟩
  split
  · split
    · rename_i htaken
      have htaken := of_decide_eq_true htaken
      exact answer_enqueue_withPending (s.countWrite pkt) ts pkt (hroom htaken) (hroom' htaken)
    · exact ⟨ts, rfl⟩
  · refine ⟨ts, ?_⟩
    rw [accessAndRespond_withPending]
    cases s.accessAndRespond pkt <;> rfl

end BRAM

/-- Two states that differ in the queue only, both within their counts. -/
def Alike (w : BRAMWrapper) (s t : BRAM) : Prop :=
  BRAM.Bounded w s.books ∧ BRAM.Bounded w t.books ∧ ∃ ts, t = s.withPending ts

theorem Alike.recvTimingReq {s t : BRAM} (h : Alike w s t) (pkt : Packet) :
    ∃ ts, t.recvTimingReq pkt = (s.recvTimingReq pkt).map fun r => (r.1, r.2.withPending ts) := by
  obtain ⟨hs, ht, ts, rfl⟩ := h
  exact s.recvTimingReq_withPending ts pkt (bounded_room hs) (bounded_room ht)

theorem Alike.step {s t : BRAM} (h : Alike w s t) (e : MemoryEvent) :
    ∃ ts, (memory w).step t e = ((memory w).step s e).map (BRAM.withPending ts) := by
  cases e with
  | timing e =>
    cases e with
    | recvTimingReq pkt =>
      obtain ⟨ts, hts⟩ := h.recvTimingReq pkt
      refine ⟨ts, ?_⟩
      simp only [memory, timingMemory, hts]
      cases s.recvTimingReq pkt <;> rfl
    | tick =>
      obtain ⟨-, -, ts, rfl⟩ := h
      exact ⟨_, congrArg Except.ok (s.tick_withPending ts)⟩
    | sendResponseEvent success =>
      obtain ⟨-, -, ts, rfl⟩ := h
      exact ⟨ts, BRAM.sendResponse_withPending { s with scheduled := false } ts success⟩
    | recvRespRetry success =>
      obtain ⟨-, -, ts, rfl⟩ := h
      exact ⟨ts, s.recvRespRetry_withPending ts success⟩
  | idleTick =>
    obtain ⟨-, -, ts, rfl⟩ := h
    exact ⟨ts, rfl⟩
  | resetStats =>
    obtain ⟨-, -, ts, rfl⟩ := h
    exact ⟨[], rfl⟩

def decision (s : BRAM) : MemoryEvent → Option (Except Fault Bool)
  | .timing (.recvTimingReq pkt) => some ((s.recvTimingReq pkt).map Prod.fst)
  | _ => none

theorem Alike.decision_eq {s t : BRAM} (h : Alike w s t) (e : MemoryEvent) :
    decision s e = decision t e := by
  match e with
  | .timing (.recvTimingReq pkt) =>
    obtain ⟨ts, hts⟩ := h.recvTimingReq pkt
    rw [decision, decision, hts]
    cases s.recvTimingReq pkt <;> rfl
  | .timing .tick => rfl
  | .timing (.sendResponseEvent _) => rfl
  | .timing (.recvRespRetry _) => rfl
  | .idleTick => rfl
  | .resetStats => rfl

/-- A reset does not change the answer to any later request. -/
theorem reset_keeps_decisions {p : Params} (hw : BRAMWrapper.new p = some w)
    {es : List MemoryEvent} {s : BRAM} (h : (memory w).Run es s) (es' : List MemoryEvent) :
    (memory w).trace decision s.resetStats es' = (memory w).trace decision s es' := by
  have hs := memory_bounded (BRAMWrapper.new_pendingTransactions hw) h
  have hreset : Alike w s s.resetStats :=
    ⟨hs, bounded_step (e := .resetStats) hs rfl, [], rfl⟩
  refine (System.trace_eq_of_sim (fun _ _ e ha => ha.decision_eq e) (fun s t e ha => ?_)
    hreset es').symm
  obtain ⟨ts, hts⟩ := ha.step e
  cases hstep : (memory w).step s e with
  | error f =>
    rw [hstep] at hts
    exact .inr ⟨f, f, rfl, hts⟩
  | ok s' =>
    rw [hstep] at hts
    exact .inl ⟨s', _, rfl, hts, bounded_step ha.1 hstep, bounded_step ha.2.1 hts, ts, rfl⟩

end CimSigmoid.Gem5
