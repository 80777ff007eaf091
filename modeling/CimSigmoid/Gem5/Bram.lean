import CimSigmoid.Gem5.Wrapper
import CimSigmoid.Machine.System

/-!
# The BRAM memory object

`BRAM` of `gem5-stable/src/mem/bram.cc` in timing mode. A failed assertion and a
second `schedule` of `sendResponseEvent`, which gem5 asserts against, are faults.

`access` turns a request that needs a response into its response, so a packet
stands for both. Times are left out: an event that is scheduled may fire at any
later moment, and runs take events in any order. `sendTimingResp` is the
environment's: its outcome is a parameter, and `Port` keeps what it was given.
`sendRetryReq` may call `recvTimingReq` back, but only as the last thing a tick
does, which is the next event of the run.
-/

namespace CimSigmoid.Gem5

inductive Fault where
  | assertion
  | alreadyScheduled
  deriving DecidableEq

structure Packet where
  id : Nat
  addr : Nat
  isRead : Bool
  isWrite : Bool
  needsResponse : Bool
  cacheResponding : Bool
  deriving DecidableEq

def aRead : Packet := ⟨0, 0, true, false, true, false⟩

def aWrite : Packet := ⟨1, 4, false, true, true, false⟩

/-- The peer's side of the port: the responses it has taken, and whether it refused one and has
not called `recvRespRetry` since. -/
structure Port where
  delivered : List Packet
  refused : Bool

structure BRAM where
  wrapper : BRAMWrapper
  port : Port
  retryReq : Bool
  retryResp : Bool
  /-- `outstandingReads`; an address without an entry has no packets. -/
  outstandingReads : Nat → List Packet
  outstandingWrites : Nat → List Packet
  nbrOutstandingReads : Nat
  nbrOutstandingWrites : Nat
  responseQueue : List Packet
  /-- `sendResponseEvent.scheduled()`. -/
  scheduled : Bool
  /-- How often `signalDrainDone` was called. -/
  drainDone : Nat
  /-- History: the responses pushed to `responseQueue` so far. -/
  queued : List Packet
  /-- History: the reads accepted so far. -/
  acceptedReads : List Packet

inductive DrainState where
  | Draining
  | Drained
  deriving DecidableEq

namespace BRAM

def new (w : BRAMWrapper) : BRAM where
  wrapper := w
  port := ⟨[], false⟩
  retryReq := false
  retryResp := false
  outstandingReads := fun _ => []
  outstandingWrites := fun _ => []
  nbrOutstandingReads := 0
  nbrOutstandingWrites := 0
  responseQueue := []
  scheduled := false
  drainDone := 0
  queued := []
  acceptedReads := []

/-- The source returns an `unsigned int`. The counts stay within `queueSize`, so the sum does not
wrap before nearly `2 ^ 32` packets wait in the response queue (`nbrOutstanding_lt`). -/
def nbrOutstanding (s : BRAM) : Nat :=
  s.nbrOutstandingReads + s.nbrOutstandingWrites + s.responseQueue.length

def drain (s : BRAM) : DrainState := if s.nbrOutstanding ≠ 0 then .Draining else .Drained

def signalDrainDone (s : BRAM) : BRAM := { s with drainDone := s.drainDone + 1 }

/-- `schedule(sendResponseEvent, ..)`. -/
def schedule (s : BRAM) : Except Fault BRAM :=
  if s.scheduled then .error .alreadyScheduled else .ok { s with scheduled := true }

/-! ## Responses -/

/-- `sendResponse`, given the outcome of `sendTimingResp`. -/
def sendResponse (success : Bool) (s : BRAM) : Except Fault BRAM :=
  if s.retryResp then .error .assertion
  else match s.responseQueue with
  | [] => .error .assertion
  | pkt :: rest =>
    if success then do
      let s := { s with
        port := { s.port with delivered := s.port.delivered ++ [pkt] }
        responseQueue := rest }
      let s ← if !s.responseQueue.isEmpty && !s.scheduled then s.schedule else .ok s
      .ok (if s.nbrOutstanding = 0 then s.signalDrainDone else s)
    else
      let s := { s with
        port := { s.port with refused := true }
        retryResp := true }
      if s.scheduled then .error .assertion else .ok s

/-- `sendResponseEvent` fires: the event queue takes it off before it calls `sendResponse`. -/
def sendResponseEvent (success : Bool) (s : BRAM) : Except Fault BRAM :=
  { s with scheduled := false }.sendResponse success

def recvRespRetry (success : Bool) (s : BRAM) : Except Fault BRAM :=
  let s := { s with port := { s.port with refused := false } }
  if s.retryResp then { s with retryResp := false }.sendResponse success
  else .error .assertion

def accessAndRespond (pkt : Packet) (s : BRAM) : Except Fault BRAM :=
  if pkt.needsResponse then
    let s := { s with
      responseQueue := s.responseQueue ++ [pkt]
      queued := s.queued ++ [pkt] }
    if !s.retryResp && !s.scheduled then s.schedule else .ok s
  else .ok s

/-! ## Requests -/

def push (m : Nat → List Packet) (pkt : Packet) : Nat → List Packet :=
  fun a => if a = pkt.addr then m a ++ [pkt] else m a

def pop (m : Nat → List Packet) (addr : Nat) : Nat → List Packet :=
  fun a => if a = addr then (m a).tail else m a

/-- The end of `recvTimingReq` for a read or write: the transaction is enqueued, or the peer has
to retry. -/
def enqueue (canAccept : Bool) (pkt : Packet) (s : BRAM) : Except Fault (Bool × BRAM) :=
  if canAccept then
    if s.wrapper.canAccept pkt.addr pkt.isWrite then
      .ok (true, { s with wrapper := s.wrapper.enqueue pkt.addr pkt.isWrite })
    else .error .assertion
  else .ok (false, { s with retryReq := true })

def recvTimingReq (pkt : Packet) (s : BRAM) : Except Fault (Bool × BRAM) :=
  if pkt.cacheResponding then .ok (true, s)
  else if s.retryReq then .ok (false, s)
  else
    let canAccept : Bool := s.nbrOutstanding < s.wrapper.queueSize
    if pkt.isRead then
      if canAccept then
        { s with
          outstandingReads := push s.outstandingReads pkt
          nbrOutstandingReads := s.nbrOutstandingReads + 1
          acceptedReads := s.acceptedReads ++ [pkt] }.enqueue true pkt
      else s.enqueue false pkt
    else if pkt.isWrite then
      if canAccept then do
        let s ← { s with
          outstandingWrites := push s.outstandingWrites pkt
          nbrOutstandingWrites := s.nbrOutstandingWrites + 1 }.accessAndRespond pkt
        s.enqueue true pkt
      else s.enqueue false pkt
    else do
      let s ← s.accessAndRespond pkt
      .ok (true, s)

/-- A read and a write as `recvTimingReq` enters them. -/
def countRead (pkt : Packet) (s : BRAM) : BRAM :=
  { s with
    outstandingReads := push s.outstandingReads pkt
    nbrOutstandingReads := s.nbrOutstandingReads + 1
    acceptedReads := s.acceptedReads ++ [pkt] }

def countWrite (pkt : Packet) (s : BRAM) : BRAM :=
  { s with
    outstandingWrites := push s.outstandingWrites pkt
    nbrOutstandingWrites := s.nbrOutstandingWrites + 1 }

/-- What a request can do: nothing; be turned away; enter a read; enter a write, which is answered
at once; be answered without entering anything. It enters where the counts leave room. -/
theorem recvTimingReq_cases (pkt : Packet) (s : BRAM) :
    (∃ taken, s.recvTimingReq pkt = .ok (taken, s)) ∨
    s.recvTimingReq pkt = s.enqueue false pkt ∨
    (s.nbrOutstanding < s.wrapper.queueSize ∧
      s.recvTimingReq pkt = (s.countRead pkt).enqueue true pkt) ∨
    (s.nbrOutstanding < s.wrapper.queueSize ∧
      s.recvTimingReq pkt = ((s.countWrite pkt).accessAndRespond pkt >>= fun t =>
        t.enqueue true pkt)) ∨
    s.recvTimingReq pkt = (s.accessAndRespond pkt >>= fun t => .ok (true, t)) := by
  simp only [recvTimingReq]
  split
  · exact .inl ⟨true, rfl⟩
  split
  · exact .inl ⟨false, rfl⟩
  split
  · split
    · rename_i hroom
      exact .inr (.inr (.inl ⟨of_decide_eq_true hroom, rfl⟩))
    · exact .inr (.inl rfl)
  split
  · split
    · rename_i hroom
      exact .inr (.inr (.inr (.inl ⟨of_decide_eq_true hroom, rfl⟩)))
    · exact .inr (.inl rfl)
  · exact .inr (.inr (.inr (.inr rfl)))

/-- `readComplete`. Nothing calls it: the wrapper has no callback. -/
def readComplete (addr : Nat) (s : BRAM) : Except Fault BRAM :=
  match s.outstandingReads addr with
  | [] => .error .assertion
  | pkt :: _ =>
    if s.nbrOutstandingReads = 0 then .error .assertion
    else
      { s with
        outstandingReads := pop s.outstandingReads addr
        nbrOutstandingReads := s.nbrOutstandingReads - 1 }.accessAndRespond pkt

def writeComplete (addr : Nat) (s : BRAM) : Except Fault BRAM :=
  match s.outstandingWrites addr with
  | [] => .error .assertion
  | _ :: _ =>
    if s.nbrOutstandingWrites = 0 then .error .assertion
    else
      let s := { s with
        outstandingWrites := pop s.outstandingWrites addr
        nbrOutstandingWrites := s.nbrOutstandingWrites - 1 }
      .ok (if s.nbrOutstanding = 0 then s.signalDrainDone else s)

/-- `tick`; outside timing mode it only reschedules itself. -/
def tick (timingMode : Bool) (s : BRAM) : BRAM :=
  if timingMode then
    let s := { s with wrapper := s.wrapper.tick }
    if s.retryReq && s.nbrOutstanding < s.wrapper.queueSize then { s with retryReq := false } else s
  else s

def resetStats (s : BRAM) : BRAM := { s with wrapper := s.wrapper.resetStats }

end BRAM

end CimSigmoid.Gem5
