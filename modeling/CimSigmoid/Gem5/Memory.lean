import CimSigmoid.Gem5.Outstanding

/-!
# The whole memory object and its address range

`memory` adds to `timingMemory` the ticks outside timing mode and `resetStats`.

`recvTimingReq` decides by a count of outstanding transactions whether it takes a
request and then asserts that the wrapper agrees. In every reachable state the queue
is no longer than the count (`memory_bounded`), so the two disagree only about the
address. The wrapper compares the absolute address with its depth, so it agrees on a
range exactly if the range starts at zero and the depth covers it (`accepts_iff`).
-/

namespace CimSigmoid.Gem5

open Machine

inductive MemoryEvent where
  | timing (e : TimingEvent)
  /-- `tick` outside timing mode. -/
  | idleTick
  | resetStats

def memory (w : BRAMWrapper) : System BRAM MemoryEvent Fault where
  init := BRAM.new w
  enabled s
    | .timing e => (timingMemory w).enabled s e
    | .idleTick => True
    | .resetStats => True
  step s
    | .timing e => (timingMemory w).step s e
    | .idleTick => .ok (s.tick false)
    | .resetStats => .ok s.resetStats

/-! ## Reachable states -/

/-- The wrapper is `w` but for its queue, which is no longer than the counts say, and these are no
more than it has room for. -/
def BRAM.Bounded (w : BRAMWrapper) : BRAMWrapper × Nat × Nat × List Packet → Prop
  | (w', reads, writes, _) => ∃ ts, w' = { w with pendingTransactions := ts } ∧
    ts.length ≤ reads + writes ∧ reads + writes ≤ w.queueSize

theorem bounded_timing {w : BRAMWrapper} {s s' : BRAM} {e : TimingEvent}
    (hs : BRAM.Bounded w s.books) (h : (timingMemory w).step s e = .ok s') :
    BRAM.Bounded w s'.books := by
  obtain ⟨ts, hw, hlen, hle⟩ := hs
  cases e with
  | recvTimingReq pkt =>
    obtain ⟨⟨taken, t⟩, hr, rfl⟩ := ok_of_map h
    have hw' : s.wrapper.enqueue pkt.addr pkt.isWrite = { w with
        pendingTransactions := ts ++ [⟨pkt.addr, pkt.isWrite, w.latency⟩] } := by
      rw [hw]
      rfl
    rcases BRAM.recvTimingReq_books hr with hb | ⟨hroom, hb⟩
    · rw [hb]
      exact ⟨ts, hw, hlen, hle⟩
    · have hqueue : s.wrapper.queueSize = w.queueSize := by rw [hw]
      simp only [BRAM.nbrOutstanding, hqueue] at hroom
      rcases hb with hb | hb <;> rw [hb]
      all_goals
        refine ⟨_, hw', ?_, by omega⟩
        rw [List.length_append, List.length_singleton]
        omega
  | tick =>
    cases h
    rw [BRAM.tick_books, hw]
    exact ⟨_, rfl, (BRAMWrapper.tickAll_length_le ts).trans hlen, hle⟩
  | sendResponseEvent success =>
    rw [(BRAM.sendResponse_books h).trans rfl]
    exact ⟨ts, hw, hlen, hle⟩
  | recvRespRetry success =>
    rw [BRAM.recvRespRetry_books h]
    exact ⟨ts, hw, hlen, hle⟩

theorem bounded_step {w : BRAMWrapper} {s s' : BRAM} {e : MemoryEvent}
    (hs : BRAM.Bounded w s.books) (h : (memory w).step s e = .ok s') : BRAM.Bounded w s'.books := by
  cases e with
  | timing e => exact bounded_timing hs h
  | idleTick =>
    cases h
    exact hs
  | resetStats =>
    cases h
    obtain ⟨ts, hts, -, hle⟩ := hs
    have hreset : s.resetStats.wrapper = { w with pendingTransactions := [] } :=
      (congrArg BRAMWrapper.resetStats hts).trans rfl
    exact ⟨[], hreset, Nat.zero_le _, hle⟩

theorem memory_bounded {w : BRAMWrapper} (hw : w.pendingTransactions = []) {es : List MemoryEvent}
    {s : BRAM} (h : (memory w).Run es s) : BRAM.Bounded w s.books := by
  refine System.Run.inv (P := fun s => BRAM.Bounded w s.books) ?_
    (fun _ _ _ hs _ => bounded_step hs) h
  refine ⟨[], ?_, Nat.zero_le _, Nat.zero_le _⟩
  cases w
  cases hw
  rfl

/-- Where the counts leave room, so does the queue. -/
theorem bounded_room {w : BRAMWrapper} {s : BRAM} (hs : BRAM.Bounded w s.books)
    (h : s.nbrOutstanding < s.wrapper.queueSize) :
    s.wrapper.pendingTransactions.length < s.wrapper.queueSize := by
  obtain ⟨ts, hts, hlen, -⟩ := hs
  simp only [BRAM.nbrOutstanding, hts] at h ⊢
  omega

/-- In every run the sum of `nbrOutstanding` fits its type as long as the responses leave it the
`queueSize` that the counts may take. -/
theorem nbrOutstanding_lt {w : BRAMWrapper} (hw : w.pendingTransactions = [])
    {es : List MemoryEvent} {s : BRAM} (h : (memory w).Run es s)
    (hq : w.queueSize + s.responseQueue.length < 2 ^ 32) : s.nbrOutstanding < 2 ^ 32 := by
  obtain ⟨-, -, -, hle⟩ := memory_bounded hw h
  rw [BRAM.nbrOutstanding]
  omega

theorem memory_attended {w : BRAMWrapper} {es : List MemoryEvent} {s : BRAM}
    (h : (memory w).Run es s) : s.Attended := by
  refine System.Run.inv (.new w) (fun s e s' hs he hstep => ?_) h
  cases e with
  | timing e => exact attended_step (w := w) hs he hstep
  | idleTick =>
    cases hstep
    exact hs
  | resetStats =>
    cases hstep
    exact ⟨hs.refused, hs.wake, hs.once, hs.order⟩

/-! ## Requests meet no assertion -/

theorem BRAM.enqueue_ok {s : BRAM} {pkt : Packet}
    (hc : s.wrapper.canAccept pkt.addr pkt.isWrite = true) :
    ∃ r, s.enqueue true pkt = .ok r := by
  rw [BRAM.enqueue, if_pos rfl, if_pos hc]
  exact ⟨_, rfl⟩

theorem BRAM.Attended.recvTimingReq_ok {s : BRAM} (h : s.Attended) {pkt : Packet}
    (hc : s.wrapper.canAccept pkt.addr pkt.isWrite = true) :
    ∃ r, s.recvTimingReq pkt = .ok r := by
  rcases BRAM.recvTimingReq_cases pkt s with ⟨t, e⟩ | e | ⟨-, e⟩ | ⟨-, e⟩ | e <;> rw [e]
  · exact ⟨_, rfl⟩
  · exact ⟨_, rfl⟩
  · exact BRAM.enqueue_ok hc
  · obtain ⟨t, ht, -⟩ := (h.countWrite pkt).accessAndRespond pkt
    have hw : t.wrapper = s.wrapper := congrArg Prod.fst (BRAM.accessAndRespond_books ht)
    rw [ht]
    exact BRAM.enqueue_ok (hw ▸ hc)
  · obtain ⟨t, ht, -⟩ := h.accessAndRespond pkt
    rw [ht]
    exact ⟨_, rfl⟩

/-! ## Addresses -/

structure Packet.InRange (base size : Nat) (pkt : Packet) : Prop where
  kind : pkt.isRead = true ∨ pkt.isWrite = true
  base_le : base ≤ pkt.addr
  lt_end : pkt.addr < base + size

/-- In every reachable state that has room for a transaction and owes no retry, a packet of the
range is one the wrapper can accept, and `recvTimingReq` meets no assertion. -/
def AcceptsRange (w : BRAMWrapper) (base size : Nat) : Prop :=
  ∀ es s, (memory w).Run es s → ∀ pkt : Packet, pkt.InRange base size →
    s.retryReq = false → s.nbrOutstanding < s.wrapper.queueSize →
    s.wrapper.canAccept pkt.addr pkt.isWrite = true ∧ ∃ r, s.recvTimingReq pkt = .ok r

theorem new_depth {p : Params} {w : BRAMWrapper} (h : BRAMWrapper.new p = some w) :
    0 < p.sizeKB * 1024 % 2 ^ 32 ∧ 0 < w.widthBytes ∧ w.widthBytes = p.widthBytes ∧
    w.depth = p.sizeKB * 1024 % 2 ^ 32 / p.widthBytes ∧ w.queueSize = 16 := by
  simp only [BRAMWrapper.new] at h
  split at h
  · cases h
  split at h
  · cases h
  · cases h
    exact ⟨by omega, by simp only; omega, rfl, rfl, rfl⟩

/-- The depth covers the last address of a range exactly if the range starts at zero and neither
the size in bytes nor its last word is cut. -/
theorem depth_covers_iff {size width base : Nat} (hsize : 0 < size % 2 ^ 32) (hwidth : 0 < width) :
    (base + size - 1) / width < size % 2 ^ 32 / width ↔
      base = 0 ∧ size < 2 ^ 32 ∧ width ∣ size := by
  have hle := Nat.mod_le size (2 ^ 32)
  rw [Nat.div_lt_iff_lt_mul hwidth]
  constructor
  · intro h
    have hmul := Nat.div_mul_le_self (size % 2 ^ 32) width
    have hlt := Nat.mod_lt size (Nat.two_pow_pos 32)
    have hword : size % 2 ^ 32 / width * width = size := by omega
    exact ⟨by omega, by omega, Dvd.intro_left _ hword⟩
  · rintro ⟨rfl, hlt, hdvd⟩
    rw [Nat.mod_eq_of_lt hlt, Nat.div_mul_cancel hdvd]
    omega

/-- **Address ranges of the memory object.** -/
theorem accepts_iff {p : Params} {w : BRAMWrapper} (hw : BRAMWrapper.new p = some w) (base : Nat) :
    AcceptsRange w base (p.sizeKB * 1024) ↔
      base = 0 ∧ p.sizeKB * 1024 < 2 ^ 32 ∧ p.widthBytes ∣ p.sizeKB * 1024 := by
  obtain ⟨hsize, hwidth, hwidth', hdepth, hqueue⟩ := new_depth hw
  have hempty := BRAMWrapper.new_pendingTransactions hw
  have hle := Nat.mod_le (p.sizeKB * 1024) (2 ^ 32)
  rw [← depth_covers_iff hsize (hwidth' ▸ hwidth), ← hdepth, ← hwidth']
  constructor
  · -- a read of the last address, as the first request
    intro h
    have hlast : Packet.InRange base (p.sizeKB * 1024)
        ⟨0, base + p.sizeKB * 1024 - 1, true, false, true, false⟩ :=
      ⟨.inl rfl, by simp only; omega, by simp only; omega⟩
    have hroom : (BRAM.new w).nbrOutstanding < w.queueSize := by
      rw [hqueue]
      exact Nat.zero_lt_succ 15
    obtain ⟨hc, -⟩ := h [] (BRAM.new w) .nil _ hlast rfl hroom
    simp only [BRAMWrapper.canAccept, Bool.and_eq_true, decide_eq_true_eq] at hc
    exact hc.2
  · intro hlast es s hrun pkt hpkt _ hroom
    have hbounded := memory_bounded hempty hrun
    have hqueue := bounded_room hbounded hroom
    obtain ⟨ts, hts, -⟩ := hbounded
    have haddr : pkt.addr / w.widthBytes ≤ (base + p.sizeKB * 1024 - 1) / w.widthBytes :=
      Nat.div_le_div_right (Nat.le_sub_one_of_lt hpkt.lt_end)
    have hc : s.wrapper.canAccept pkt.addr pkt.isWrite = true := by
      rw [hts] at hqueue ⊢
      simp only [BRAMWrapper.canAccept, Bool.and_eq_true, decide_eq_true_eq]
      exact ⟨hqueue, haddr.trans_lt hlast⟩
    exact ⟨hc, (memory_attended hrun).recvTimingReq_ok hc⟩

theorem accepts_iff_default : AcceptsRange defaultWrapper 0 65536 := by
  have hw : BRAMWrapper.new ⟨64, 4, 1⟩ = some defaultWrapper := by decide
  exact (accepts_iff hw 0).2 (by decide)

/-- The default memory behind `0x80000000`: its first address fails the assertion. -/
theorem rejects_own_range :
    BRAMWrapper.new ⟨64, 4, 1⟩ = some defaultWrapper ∧
    (memory defaultWrapper).Run [] (BRAM.new defaultWrapper) ∧
    Packet.InRange 0x80000000 65536 ⟨0, 0x80000000, true, false, true, false⟩ ∧
    (BRAM.new defaultWrapper).retryReq = false ∧
    (BRAM.new defaultWrapper).nbrOutstanding < (BRAM.new defaultWrapper).wrapper.queueSize ∧
    (BRAM.new defaultWrapper).wrapper.canAccept 0x80000000 false = false ∧
    (BRAM.new defaultWrapper).recvTimingReq ⟨0, 0x80000000, true, false, true, false⟩ =
      .error .assertion :=
  ⟨by decide, .nil, ⟨.inl rfl, by decide, by decide⟩, rfl, by decide, by decide, rfl⟩

end CimSigmoid.Gem5
