import CimSigmoid.Gem5.Response

/-!
# Outstanding transactions

The memory object counts the reads and writes it has handed to the wrapper; the
wrapper keeps the transactions. `timingMemory` runs both, with requests, ticks,
response sends and retries in any order.

Only `readComplete` and `writeComplete` lower the counts, and the wrapper never
calls them: a transaction that completes in `tick` is erased and stays counted.
So counts and transactions agree along a run exactly if no tick of it completes a
transaction (`outstanding_iff`).
-/

namespace CimSigmoid.Gem5

open Machine

namespace BRAM

/-- What the counts are about: the wrapper, the counts and the reads accepted. -/
def books (s : BRAM) : BRAMWrapper × Nat × Nat × List Packet :=
  (s.wrapper, s.nbrOutstandingReads, s.nbrOutstandingWrites, s.acceptedReads)

/-! ## The response path leaves the books alone -/

theorem schedule_books {s s' : BRAM} (h : s.schedule = .ok s') : s'.books = s.books := by
  unfold schedule at h
  split at h
  · cases h
  · cases h
    rfl

theorem accessAndRespond_books {s s' : BRAM} {pkt : Packet} (h : s.accessAndRespond pkt = .ok s') :
    s'.books = s.books := by
  simp only [accessAndRespond] at h
  split at h
  · split at h
    · exact (schedule_books h).trans rfl
    · cases h
      rfl
  · cases h
    rfl

theorem sendResponse_books {s s' : BRAM} {success : Bool} (h : s.sendResponse success = .ok s') :
    s'.books = s.books := by
  simp only [sendResponse] at h
  split at h
  · cases h
  split at h
  · cases h
  split at h
  · have hsignal (t : BRAM) :
        (if t.nbrOutstanding = 0 then t.signalDrainDone else t).books = t.books := by
      split <;> rfl
    split at h
    · obtain ⟨t, ht, hs⟩ := ok_of_bind h
      cases hs
      exact (hsignal t).trans ((schedule_books ht).trans rfl)
    · cases h
      exact hsignal _
  · split at h
    · cases h
    · cases h
      rfl

theorem recvRespRetry_books {s s' : BRAM} {success : Bool} (h : s.recvRespRetry success = .ok s') :
    s'.books = s.books := by
  simp only [recvRespRetry] at h
  split at h
  · exact (sendResponse_books h).trans rfl
  · cases h

/-! ## Requests -/

theorem enqueue_true {s s' : BRAM} {pkt : Packet} {taken : Bool}
    (h : s.enqueue true pkt = .ok (taken, s')) :
    s'.books = (s.wrapper.enqueue pkt.addr pkt.isWrite, s.books.2) := by
  simp only [enqueue, if_true] at h
  split at h
  · cases h
    rfl
  · cases h

theorem enqueue_false {s s' : BRAM} {pkt : Packet} {taken : Bool}
    (h : s.enqueue false pkt = .ok (taken, s')) : s'.books = s.books := by
  cases h
  rfl

/-- A request leaves the books alone or, where the counts leave room, adds a transaction to the
wrapper and one to the counts. -/
theorem recvTimingReq_books {s s' : BRAM} {pkt : Packet} {taken : Bool}
    (h : s.recvTimingReq pkt = .ok (taken, s')) :
    s'.books = s.books ∨
    s.nbrOutstanding < s.wrapper.queueSize ∧
      (s'.books = (s.wrapper.enqueue pkt.addr pkt.isWrite, s.nbrOutstandingReads + 1,
        s.nbrOutstandingWrites, s.acceptedReads ++ [pkt]) ∨
      s'.books = (s.wrapper.enqueue pkt.addr pkt.isWrite, s.nbrOutstandingReads,
        s.nbrOutstandingWrites + 1, s.acceptedReads)) := by
  rcases recvTimingReq_cases pkt s with ⟨t, e⟩ | e | ⟨hroom, e⟩ | ⟨hroom, e⟩ | e <;> rw [e] at h
  · cases h
    exact .inl rfl
  · exact .inl (enqueue_false h)
  · exact .inr ⟨hroom, .inl (enqueue_true h)⟩
  · obtain ⟨t, ht, hs⟩ := ok_of_bind h
    have hbooks := accessAndRespond_books ht
    have hw : t.wrapper = s.wrapper := congrArg Prod.fst hbooks
    refine .inr ⟨hroom, .inr ?_⟩
    rw [enqueue_true hs, hbooks, hw]
    rfl
  · obtain ⟨t, ht, hs⟩ := ok_of_bind h
    cases hs
    exact .inl (accessAndRespond_books ht)

theorem tick_books (s : BRAM) : (s.tick true).books = (s.wrapper.tick, s.books.2) := by
  simp only [tick, if_true]
  split <;> rfl

/-- The counts are the pending transactions, and with none of these and no response left the
object is idle and every accepted read has been answered. -/
structure Consistent (s : BRAM) : Prop where
  count : s.nbrOutstandingReads + s.nbrOutstandingWrites = s.wrapper.pendingTransactions.length
  idle : s.wrapper.pendingTransactions = [] → s.responseQueue = [] →
    s.nbrOutstanding = 0 ∧ s.drain = .Drained ∧ ∀ pkt ∈ s.acceptedReads, pkt ∈ s.queued

def Counted : BRAMWrapper × Nat × Nat × List Packet → Prop
  | (w, reads, writes, accepted) =>
    reads + writes = w.pendingTransactions.length ∧ accepted.length = reads

theorem consistent_of_counted {s : BRAM} (h : Counted s.books) : s.Consistent := by
  obtain ⟨hcount, hreads⟩ := h
  refine ⟨hcount, fun hp hq => ?_⟩
  rw [hp, List.length_nil] at hcount
  have hzero : s.nbrOutstanding = 0 := by
    rw [nbrOutstanding, hq]
    exact hcount
  have hnone : s.acceptedReads = [] := List.eq_nil_of_length_eq_zero (by omega)
  refine ⟨hzero, by simp [drain, hzero], ?_⟩
  rw [hnone]
  nofun

theorem recvTimingReq_counted {s s' : BRAM} {pkt : Packet} {taken : Bool} (hs : Counted s.books)
    (h : s.recvTimingReq pkt = .ok (taken, s')) : Counted s'.books := by
  obtain ⟨hcount, hreads⟩ := hs
  have hlen : (s.wrapper.enqueue pkt.addr pkt.isWrite).pendingTransactions.length =
      s.wrapper.pendingTransactions.length + 1 := List.length_append
  rcases recvTimingReq_books h with hb | ⟨-, hb | hb⟩ <;> rw [hb]
  · exact ⟨hcount, hreads⟩
  · refine ⟨?_, by rw [List.length_append, hreads]; rfl⟩
    rw [hlen]
    omega
  · refine ⟨?_, hreads⟩
    rw [hlen]
    omega

end BRAM

/-! ## Runs -/

inductive TimingEvent where
  | recvTimingReq (pkt : Packet)
  | tick
  | sendResponseEvent (success : Bool)
  | recvRespRetry (success : Bool)

def timingMemory (w : BRAMWrapper) : System BRAM TimingEvent Fault where
  init := BRAM.new w
  enabled s
    | .recvTimingReq _ => True
    | .tick => True
    | .sendResponseEvent _ => s.scheduled = true
    | .recvRespRetry _ => s.port.refused = true
  step s
    | .recvTimingReq pkt => (s.recvTimingReq pkt).map Prod.snd
    | .tick => .ok (s.tick true)
    | .sendResponseEvent success => s.sendResponseEvent success
    | .recvRespRetry success => s.recvRespRetry success

theorem attended_step {w : BRAMWrapper} {s s' : BRAM} {e : TimingEvent} (hs : s.Attended)
    (he : (timingMemory w).enabled s e) (hstep : (timingMemory w).step s e = .ok s') :
    s'.Attended := by
  cases e with
  | recvTimingReq pkt =>
    obtain ⟨r, hr, hmap⟩ := ok_of_map hstep
    exact hmap ▸ hs.recvTimingReq hr
  | tick =>
    cases hstep
    exact hs.tick true
  | sendResponseEvent success =>
    obtain ⟨t, ht, hatt, -⟩ := hs.sendResponseEvent he success
    cases ht.symm.trans hstep
    exact hatt
  | recvRespRetry success =>
    obtain ⟨t, ht, hatt, -⟩ := hs.recvRespRetry he success
    cases ht.symm.trans hstep
    exact hatt

/-- The response queue stays attended in every interleaving of requests, ticks and responses. -/
theorem timingMemory_attended {w : BRAMWrapper} {es : List TimingEvent} {s : BRAM}
    (h : (timingMemory w).Run es s) : s.Attended :=
  System.Run.inv (.new w) (fun _ _ _ => attended_step) h

def CompletingTick (s : BRAM) : TimingEvent → Prop
  | .tick => s.wrapper.Completes
  | _ => False

theorem counted_step {w : BRAMWrapper} {s s' : BRAM} {e : TimingEvent} (hs : BRAM.Counted s.books)
    (h : (timingMemory w).step s e = .ok s') (he : ¬ CompletingTick s e) :
    BRAM.Counted s'.books := by
  cases e with
  | recvTimingReq pkt =>
    obtain ⟨r, hr, hmap⟩ := ok_of_map h
    exact hmap ▸ BRAM.recvTimingReq_counted hs hr
  | tick =>
    cases h
    rw [BRAM.tick_books]
    exact ⟨hs.1.trans ((BRAMWrapper.tick_length_eq_iff _).2 he).symm, hs.2⟩
  | sendResponseEvent success => exact (BRAM.sendResponse_books h).trans rfl ▸ hs
  | recvRespRetry success => exact BRAM.recvRespRetry_books h ▸ hs

theorem not_consistent_step {w : BRAMWrapper} {s s' : BRAM} {e : TimingEvent}
    (hs : BRAM.Counted s.books) (h : (timingMemory w).step s e = .ok s') (he : CompletingTick s e) :
    ¬ s'.Consistent := by
  cases e with
  | tick =>
    cases h
    intro hcons
    have hbooks := s.tick_books
    have hcount := hcons.count
    simp only [BRAM.books, Prod.mk.injEq] at hbooks
    rw [hbooks.1, hbooks.2.1, hbooks.2.2.1, hs.1] at hcount
    exact (BRAMWrapper.tick_length_eq_iff _).1 hcount.symm he
  | recvTimingReq | sendResponseEvent | recvRespRetry => exact he.elim

/-- **Counts and transactions** agree along a run exactly if no tick of it completes a
transaction. -/
theorem outstanding_iff {p : Params} {w : BRAMWrapper} (hw : BRAMWrapper.new p = some w)
    {es : List TimingEvent} {s : BRAM} (h : (timingMemory w).Run es s) :
    (timingMemory w).Along BRAM.Consistent es ↔ (timingMemory w).Avoids CompletingTick es := by
  have hnew : BRAM.Counted (timingMemory w).init.books :=
    ⟨(congrArg List.length (BRAMWrapper.new_pendingTransactions hw)).symm, rfl⟩
  exact System.Run.along_iff (J := fun s => BRAM.Counted s.books) hnew
    (fun _ => BRAM.consistent_of_counted) (fun _ _ _ hs _ hstep he => counted_step hs hstep he)
    (fun _ _ _ hs _ hstep he => not_consistent_step hs hstep he) h

/-- A write and a tick, with two cycles of latency: the tick completes nothing. -/
theorem outstanding_iff_write : ∃ s,
    (timingMemory { defaultWrapper with latency := 2 }).Run [.recvTimingReq aWrite, .tick] s ∧
    s.wrapper.pendingTransactions = [⟨4, true, 1⟩] ∧
    (timingMemory { defaultWrapper with latency := 2 }).Along BRAM.Consistent
      [.recvTimingReq aWrite, .tick] := by
  have hw : BRAMWrapper.new ⟨64, 4, 2⟩ = some { defaultWrapper with latency := 2 } := by decide
  have h1 : (timingMemory { defaultWrapper with latency := 2 }).Run [.recvTimingReq aWrite] _ :=
    .snoc .nil trivial rfl
  have h2 : (timingMemory { defaultWrapper with latency := 2 }).Run
      [.recvTimingReq aWrite, .tick] _ := .snoc h1 trivial rfl
  refine ⟨_, h2, rfl, (outstanding_iff hw h2).2 fun es e s hp hrun => ?_⟩
  -- the step is the write, or the tick in the one state the write leads to
  rcases List.prefix_concat_iff.1 (show es ++ [e] <+: [.recvTimingReq aWrite] ++ [.tick] from hp)
    with heq | hp
  · obtain ⟨rfl, hlast⟩ := List.append_inj' heq rfl
    cases hlast
    obtain rfl := h1.unique hrun
    rintro ⟨t, ht, hle⟩
    rw [List.mem_singleton.1 ht] at hle
    exact absurd hle (by decide)
  · have he : e ∈ [TimingEvent.recvTimingReq aWrite] := hp.subset (by simp)
    rw [List.mem_singleton.1 he]
    exact id

/-- A read and the tick that completes it: the wrapper is empty, the read is counted for ever and
its response was never queued. -/
theorem read_never_completes : ∃ s,
    (timingMemory defaultWrapper).Run [.recvTimingReq aRead, .tick] s ∧
    s.wrapper.pendingTransactions = [] ∧ s.responseQueue = [] ∧ s.nbrOutstanding = 1 ∧
    s.drain = .Draining ∧ aRead ∈ s.acceptedReads ∧ aRead ∉ s.queued ∧ ¬ s.Consistent := by
  have h1 : (timingMemory defaultWrapper).Run [.recvTimingReq aRead] _ := .snoc .nil trivial rfl
  have h2 : (timingMemory defaultWrapper).Run [.recvTimingReq aRead, .tick] _ :=
    .snoc h1 trivial rfl
  refine ⟨_, h2, rfl, rfl, rfl, rfl, .head _, nofun, fun h => ?_⟩
  exact absurd h.count (by decide)

end CimSigmoid.Gem5
