import CimSigmoid.Gem5.Bram

/-!
# The response path

Responses enter the queue through `accessAndRespond` and leave it through
`sendResponse`, which is called by `sendResponseEvent` or, after a refusal, by
the peer's `recvRespRetry`. `responsePath` takes these three in any order.

The queue is non-empty exactly if someone will come for it: the event is
scheduled or the peer owes a retry, and never both (`BRAM.Attended`). All four
entry points keep this, so no assertion fails, the event is not scheduled twice
and responses leave in the order in which they came. `BRAM.Moved` says which of
them a call delivers: the head of the queue if the peer accepts it, else none.
-/

namespace CimSigmoid.Gem5

open Machine

/-- The queue is attended, and holds what was queued and not yet delivered. -/
structure BRAM.Attended (s : BRAM) : Prop where
  refused : s.port.refused = s.retryResp
  wake : (s.scheduled || s.retryResp) = !s.responseQueue.isEmpty
  once : (s.scheduled && s.retryResp) = false
  order : s.port.delivered ++ s.responseQueue = s.queued

/-- `sendResponse` may be called: nobody else will come for the queue. -/
structure BRAM.Sendable (s : BRAM) : Prop where
  refused : s.port.refused = false
  retryResp : s.retryResp = false
  scheduled : s.scheduled = false
  nonempty : s.responseQueue ≠ []
  order : s.port.delivered ++ s.responseQueue = s.queued

/-- From `s` to `s'` an accepted send moved the head of the queue to the peer; otherwise nothing was
delivered and `new` was queued. -/
def BRAM.Moved (accepted : Bool) (new : List Packet) (s s' : BRAM) : Prop :=
  if accepted then ∃ pkt, s.responseQueue = pkt :: s'.responseQueue ∧
    s'.port.delivered = s.port.delivered ++ [pkt]
  else s'.responseQueue = s.responseQueue ++ new ∧ s'.port.delivered = s.port.delivered

namespace BRAM

variable {s : BRAM}

theorem Attended.new (w : BRAMWrapper) : (BRAM.new w).Attended := ⟨rfl, rfl, rfl, rfl⟩

theorem Attended.signal (h : s.Attended) {t : BRAM} {accepted : Bool} {new : List Packet}
    (hm : Moved accepted new t s) :
    (if s.nbrOutstanding = 0 then s.signalDrainDone else s).Attended ∧
    (if s.nbrOutstanding = 0 then s.signalDrainDone else s).queued = s.queued ∧
    Moved accepted new t (if s.nbrOutstanding = 0 then s.signalDrainDone else s) := by
  split
  · exact ⟨⟨h.refused, h.wake, h.once, h.order⟩, rfl, hm⟩
  · exact ⟨h, rfl, hm⟩

/-- `sendResponse` meets no assertion and leaves the queue attended. -/
theorem Sendable.sendResponse (h : s.Sendable) (success : Bool) :
    ∃ s', s.sendResponse success = .ok s' ∧ s'.Attended ∧ s'.queued = s.queued ∧
      Moved success [] s s' := by
  obtain ⟨hrefused, hretry, hsched, hne, horder⟩ := h
  obtain ⟨pkt, rest, hq⟩ := List.exists_cons_of_ne_nil hne
  rw [hq] at horder
  have hsent : s.port.delivered ++ [pkt] ++ rest = s.queued := by
    rw [List.append_assoc, ← horder]
    rfl
  simp only [BRAM.sendResponse, hretry, hq, Bool.false_eq_true, if_false]
  cases success with
  | false =>
    rw [if_neg nofun, hsched]
    exact ⟨_, rfl, ⟨rfl, rfl, rfl, horder⟩, rfl, by simp [Moved, hq]⟩
  | true =>
    rw [if_pos rfl, hsched]
    cases rest with
    | nil => exact ⟨_, rfl, Attended.signal ⟨hrefused, rfl, rfl, hsent⟩ ⟨pkt, hq, rfl⟩⟩
    | cons p rest => exact ⟨_, rfl, Attended.signal ⟨hrefused, rfl, rfl, hsent⟩ ⟨pkt, hq, rfl⟩⟩

/-- The event fires only when it is scheduled. -/
theorem Attended.sendable_event (h : s.Attended) (hs : s.scheduled = true) :
    { s with scheduled := false }.Sendable := by
  have hretry : s.retryResp = false := by simpa [hs] using h.once
  have hwake := h.wake
  rw [hs, Bool.true_or] at hwake
  exact ⟨h.refused.trans hretry, hretry, rfl, by simpa using hwake.symm, h.order⟩

/-- The peer retries only after a refusal. -/
theorem Attended.sendable_retry (h : s.Attended) (hr : s.port.refused = true) :
    s.retryResp = true ∧
    { s with port := { s.port with refused := false }, retryResp := false }.Sendable := by
  have hretry : s.retryResp = true := h.refused ▸ hr
  have hsched : s.scheduled = false := by simpa [hretry] using h.once
  have hwake := h.wake
  rw [hretry, Bool.or_true] at hwake
  exact ⟨hretry, rfl, rfl, hsched, by simpa using hwake.symm, h.order⟩

theorem Attended.sendResponseEvent (h : s.Attended) (hs : s.scheduled = true) (success : Bool) :
    ∃ s', s.sendResponseEvent success = .ok s' ∧ s'.Attended ∧ s'.queued = s.queued ∧
      Moved success [] s s' :=
  (h.sendable_event hs).sendResponse success

theorem Attended.recvRespRetry (h : s.Attended) (hr : s.port.refused = true) (success : Bool) :
    ∃ s', s.recvRespRetry success = .ok s' ∧ s'.Attended ∧ s'.queued = s.queued ∧
      Moved success [] s s' := by
  obtain ⟨hretry, hsend⟩ := h.sendable_retry hr
  rw [BRAM.recvRespRetry, if_pos hretry]
  exact hsend.sendResponse success

theorem Attended.accessAndRespond (h : s.Attended) (pkt : Packet) :
    ∃ s', s.accessAndRespond pkt = .ok s' ∧ s'.Attended ∧
      s'.queued = s.queued ++ (if pkt.needsResponse then [pkt] else []) ∧
      Moved false (if pkt.needsResponse then [pkt] else []) s s' := by
  have horder : s.port.delivered ++ (s.responseQueue ++ [pkt]) = s.queued ++ [pkt] := by
    rw [← List.append_assoc, h.order]
  rw [BRAM.accessAndRespond]
  split
  · by_cases hw : s.retryResp = false ∧ s.scheduled = false
    · -- nobody would come for the response: the event is scheduled
      obtain ⟨hr, hs⟩ := hw
      simp only [hr, hs, Bool.not_false, Bool.and_self, if_true, BRAM.schedule,
        Bool.false_eq_true, if_false]
      exact ⟨_, rfl, ⟨h.refused.trans hr, by simp, rfl, horder⟩, rfl, rfl, rfl⟩
    · have hwake : (s.scheduled || s.retryResp) = true := by
        cases hr : s.retryResp <;> cases hs : s.scheduled <;> simp_all
      rw [if_neg (by simpa using hw)]
      exact ⟨_, rfl, ⟨h.refused, by simp [hwake], h.once, horder⟩, rfl, rfl, rfl⟩
  · exact ⟨s, rfl, h, by simp, by simp [Moved]⟩

/-! Requests and ticks reach the queue through `accessAndRespond` only. -/

theorem Attended.of_accessAndRespond {s' : BRAM} {pkt : Packet} (h : s.Attended)
    (he : s.accessAndRespond pkt = .ok s') : s'.Attended := by
  obtain ⟨t, ht, hatt, -⟩ := h.accessAndRespond pkt
  cases ht.symm.trans he
  exact hatt

theorem Attended.enqueue {s' : BRAM} {c taken : Bool} {pkt : Packet} (h : s.Attended)
    (he : s.enqueue c pkt = .ok (taken, s')) : s'.Attended := by
  unfold BRAM.enqueue at he
  split at he
  · split at he
    · cases he
      exact ⟨h.refused, h.wake, h.once, h.order⟩
    · cases he
  · cases he
    exact ⟨h.refused, h.wake, h.once, h.order⟩

theorem Attended.countWrite (h : s.Attended) (pkt : Packet) : (s.countWrite pkt).Attended :=
  ⟨h.refused, h.wake, h.once, h.order⟩

theorem Attended.recvTimingReq {s' : BRAM} {taken : Bool} {pkt : Packet} (h : s.Attended)
    (hr : s.recvTimingReq pkt = .ok (taken, s')) : s'.Attended := by
  rcases recvTimingReq_cases pkt s with ⟨t, e⟩ | e | ⟨-, e⟩ | ⟨-, e⟩ | e <;> rw [e] at hr
  · cases hr
    exact h
  · exact h.enqueue hr
  · refine Attended.enqueue ?_ hr
    exact ⟨h.refused, h.wake, h.once, h.order⟩
  · obtain ⟨t, ht, hr⟩ := ok_of_bind hr
    exact ((h.countWrite pkt).of_accessAndRespond ht).enqueue hr
  · obtain ⟨t, ht, hr⟩ := ok_of_bind hr
    cases hr
    exact h.of_accessAndRespond ht

theorem Attended.tick (h : s.Attended) (timingMode : Bool) : (s.tick timingMode).Attended := by
  unfold BRAM.tick
  split
  · simp only
    split <;> exact ⟨h.refused, h.wake, h.once, h.order⟩
  · exact h

end BRAM

/-! ## Runs -/

inductive ResponseEvent where
  | accessAndRespond (pkt : Packet)
  | sendResponseEvent (success : Bool)
  | recvRespRetry (success : Bool)

/-- The response path of a freshly built object. The event queue fires what is scheduled, the peer
retries what it refused. -/
def responsePath (w : BRAMWrapper) : System BRAM ResponseEvent Fault where
  init := BRAM.new w
  enabled s
    | .accessAndRespond _ => True
    | .sendResponseEvent _ => s.scheduled = true
    | .recvRespRetry _ => s.port.refused = true
  step s
    | .accessAndRespond pkt => s.accessAndRespond pkt
    | .sendResponseEvent success => s.sendResponseEvent success
    | .recvRespRetry success => s.recvRespRetry success

def ResponseEvent.queues : ResponseEvent → List Packet
  | .accessAndRespond pkt => if pkt.needsResponse then [pkt] else []
  | .sendResponseEvent _ => []
  | .recvRespRetry _ => []

def ResponseEvent.accepted : ResponseEvent → Bool
  | .accessAndRespond _ => false
  | .sendResponseEvent success => success
  | .recvRespRetry success => success

theorem responsePath_step {w : BRAMWrapper} {s : BRAM} (h : s.Attended) {e : ResponseEvent}
    (he : (responsePath w).enabled s e) :
    ∃ s', (responsePath w).step s e = .ok s' ∧ s'.Attended ∧ s'.queued = s.queued ++ e.queues ∧
      BRAM.Moved e.accepted e.queues s s' := by
  cases e with
  | accessAndRespond pkt => exact h.accessAndRespond pkt
  | sendResponseEvent success =>
    rw [ResponseEvent.queues, List.append_nil]
    exact h.sendResponseEvent he success
  | recvRespRetry success =>
    rw [ResponseEvent.queues, List.append_nil]
    exact h.recvRespRetry he success

theorem responsePath_run {w : BRAMWrapper} {es : List ResponseEvent} {s : BRAM}
    (h : (responsePath w).Run es s) : s.Attended ∧ s.queued = es.flatMap ResponseEvent.queues := by
  induction h with
  | nil => exact ⟨.new w, rfl⟩
  | snoc _ he hs ih =>
    obtain ⟨s', hs', hatt, hq, -⟩ := responsePath_step ih.1 he
    cases hs'.symm.trans hs
    exact ⟨hatt, by rw [hq, ih.2, List.flatMap_append, List.flatMap_singleton]⟩

/-- **The response path.** After every run no event that may come next meets an assertion or
schedules a scheduled event; a non-empty queue is waited for; what was delivered, followed by
what is in the queue, is what was queued, in that order; and the next event delivers the head of
the queue if it is an accepted send, else nothing. -/
theorem response_path_correct {w : BRAMWrapper} {es : List ResponseEvent} {s : BRAM}
    (h : (responsePath w).Run es s) :
    (responsePath w).Safe s ∧
    (s.responseQueue ≠ [] → s.scheduled = true ∨ s.retryResp = true) ∧
    s.port.delivered ++ s.responseQueue = es.flatMap ResponseEvent.queues ∧
    ∀ e s', (responsePath w).enabled s e → (responsePath w).step s e = .ok s' →
      BRAM.Moved e.accepted e.queues s s' := by
  obtain ⟨hatt, hq⟩ := responsePath_run h
  refine ⟨fun e he => ?_, fun hne => ?_, hatt.order.trans hq, fun e s' he hs => ?_⟩
  · obtain ⟨s', hs', -⟩ := responsePath_step hatt he
    exact ⟨s', hs'⟩
  · have hwake := hatt.wake
    rw [List.isEmpty_eq_false_iff.2 hne] at hwake
    simpa using hwake
  · obtain ⟨t, ht, -, -, hmoved⟩ := responsePath_step hatt he
    cases ht.symm.trans hs
    exact hmoved

/-- A response is refused, another one is queued behind it, and the first is taken on the retry. -/
theorem response_path_correct_refused : ∃ s,
    (responsePath defaultWrapper).Run [.accessAndRespond aRead, .sendResponseEvent false,
      .accessAndRespond aWrite, .recvRespRetry true] s ∧
    s.responseQueue = [aWrite] ∧ (s.scheduled = true ∨ s.retryResp = true) ∧
    s.port.delivered ++ s.responseQueue = [aRead, aWrite] ∧
    ∃ s', (responsePath defaultWrapper).step s (.sendResponseEvent true) = .ok s' ∧
      BRAM.Moved true [] s s' := by
  have h1 : (responsePath defaultWrapper).Run [.accessAndRespond aRead] _ := .snoc .nil trivial rfl
  have h2 : (responsePath defaultWrapper).Run
      [.accessAndRespond aRead, .sendResponseEvent false] _ := .snoc h1 rfl rfl
  have h3 : (responsePath defaultWrapper).Run [.accessAndRespond aRead, .sendResponseEvent false,
      .accessAndRespond aWrite] _ := .snoc h2 trivial rfl
  have h4 : (responsePath defaultWrapper).Run [.accessAndRespond aRead, .sendResponseEvent false,
      .accessAndRespond aWrite, .recvRespRetry true] _ := .snoc h3 rfl rfl
  obtain ⟨-, hwait, horder, hmoved⟩ := response_path_correct h4
  exact ⟨_, h4, rfl, hwait nofun, horder, _, rfl, hmoved (.sendResponseEvent true) _ rfl rfl⟩

end CimSigmoid.Gem5
