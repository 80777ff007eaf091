import CimSigmoid.Sigmoid.Top

/-!
# The wrapper on the bus

`sigmoid_top` acts on a request one edge before it raises `ready`, and raises
the response in the same cycle. Both its write side and its read side are
therefore an `EarlyReady` receiver feeding a response `Slot` that is never
overrun: a request is only acted on while no response is pending.
-/

namespace CimSigmoid.Sigmoid

open Clocked

section

variable {core : BitVec 16 → BitVec 16} {y₀ : BitVec 16} {inp : Nat → SAxi}

/-- `aw_ready` and `w_ready` are raised together, and only with a response pending. -/
theorem ready_inv (t : Nat) :
    (topAt core y₀ inp t).wr.wReady = (topAt core y₀ inp t).wr.awReady ∧
    ((topAt core y₀ inp t).wr.awReady = true → (topAt core y₀ inp t).wr.bValid = true) ∧
    ((topAt core y₀ inp t).rd.arReady = true → (topAt core y₀ inp t).rd.rValid = true) := by
  cases t with
  | zero => simp [topAt_zero, Top.reset, WriteRegs.reset, ReadRegs.reset]
  | succ t =>
    rw [topAt_succ, edge_awReady, edge_wReady, edge_bValid, edge_arReady, edge_rValid]
    exact ⟨rfl, fun h => by simp [h], fun h => by simp [h]⟩

variable (core y₀ inp)

theorem write_early : EarlyReady (fun t => (inp t).awvalid && (inp t).wvalid)
    (fun t => (topAt core y₀ inp t).wr.awReady)
    (fun t => writes (inp t) (topAt core y₀ inp t)) where
  ready_zero := rfl
  ready_succ t := by rw [topAt_succ, edge_awReady]
  valid_of_take t h := by
    simp only [writes, Bool.and_eq_true] at h
    simp [h.1]
  not_ready t h := by
    obtain ⟨-, hb, -⟩ : _ ∧ ((topAt core y₀ inp t).wr.awReady = true → _) ∧ _ := ready_inv t
    simp only [writes, Bool.and_eq_true, Bool.not_eq_true'] at h
    cases hr : (topAt core y₀ inp t).wr.awReady with
    | false => rfl
    | true => rw [hb hr] at h; cases h.2

theorem read_early : EarlyReady (fun t => (inp t).arvalid)
    (fun t => (topAt core y₀ inp t).rd.arReady)
    (fun t => reads (inp t) (topAt core y₀ inp t)) where
  ready_zero := rfl
  ready_succ t := by rw [topAt_succ, edge_arReady]
  valid_of_take t h := by
    simp only [reads, Bool.and_eq_true] at h
    exact h.1
  not_ready t h := by
    obtain ⟨-, -, hb⟩ : _ ∧ _ ∧ ((topAt core y₀ inp t).rd.arReady = true → _) := ready_inv t
    simp only [reads, Bool.and_eq_true, Bool.not_eq_true'] at h
    cases hr : (topAt core y₀ inp t).rd.arReady with
    | false => rfl
    | true => rw [hb hr] at h; cases h.2

theorem write_slot : Slot (fun t => writes (inp t) (topAt core y₀ inp t))
    (fun t => (topAt core y₀ inp t).wr.bValid) (fun t => (inp t).bready) where
  full_zero := rfl
  full_succ t := by rw [topAt_succ, edge_bValid]

theorem read_slot : Slot (fun t => reads (inp t) (topAt core y₀ inp t))
    (fun t => (topAt core y₀ inp t).rd.rValid) (fun t => (inp t).rready) where
  full_zero := rfl
  full_succ t := by rw [topAt_succ, edge_rValid]

/-- A write is acted on only while no response is pending. -/
theorem write_no_overrun (t : Nat) : overrun (fun t => writes (inp t) (topAt core y₀ inp t))
    (fun t => (topAt core y₀ inp t).wr.bValid) (fun t => (inp t).bready) t = false := by
  cases h : (topAt core y₀ inp t).wr.bValid <;> simp [overrun, writes, h]

theorem read_no_overrun (t : Nat) : overrun (fun t => reads (inp t) (topAt core y₀ inp t))
    (fun t => (topAt core y₀ inp t).rd.rValid) (fun t => (inp t).rready) t = false := by
  cases h : (topAt core y₀ inp t).rd.rValid <;> simp [overrun, reads, h]

/-- A pending response keeps its payload until it is taken. -/
theorem response_held (t : Nat) :
    ((topAt core y₀ inp t).wr.bValid = true → (inp t).bready = false →
      (topAt core y₀ inp (t + 1)).wr.bValid = true ∧
      (topAt core y₀ inp (t + 1)).wr.bResp = (topAt core y₀ inp t).wr.bResp) ∧
    ((topAt core y₀ inp t).rd.rValid = true → (inp t).rready = false →
      (topAt core y₀ inp (t + 1)).rd.rValid = true ∧
      (topAt core y₀ inp (t + 1)).rd.rData = (topAt core y₀ inp t).rd.rData ∧
      (topAt core y₀ inp (t + 1)).rd.rResp = (topAt core y₀ inp t).rd.rResp) := by
  rw [topAt_succ, edge_bValid, edge_bResp, edge_rValid, edge_rData, edge_rResp]
  refine ⟨fun hb hr => ?_, fun hb hr => ?_⟩
  · simp [writes, hb, hr]
  · simp [reads, hb, hr]

/-! ## The registers written -/

/-- The `case` of the write channel for one request after the other. -/
def writeRegs (rs : List Write) (w : WriteRegs) : WriteRegs :=
  rs.foldl (fun w r => writeReg r.present w) w

theorem writeReg_request (i : SAxi) (w : WriteRegs) : writeReg i.request.present w = writeReg i w :=
  rfl

theorem xReg_of_applied (t : Nat) : (topAt core y₀ inp t).wr.xReg =
    (writeRegs (applied core y₀ inp t) .reset).xReg := by
  induction t with
  | zero => rfl
  | succ t ih =>
    rw [topAt_succ, edge_xReg, applied_succ, ih]
    cases h : writes (inp t) (topAt core y₀ inp t) with
    | false => simp
    | true => simp [writeRegs, writeReg_request, writeReg_xReg]

/-- `start_reg` is what the write of the last edge, if there was one, leaves in a cleared one. -/
theorem startReg_of_applied (t : Nat) : ∃ rs,
    applied core y₀ inp (t + 1) = applied core y₀ inp t ++ rs ∧
    (topAt core y₀ inp (t + 1)).wr.startReg = (writeRegs rs .reset).startReg := by
  refine ⟨_, applied_succ core y₀ inp t, ?_⟩
  rw [topAt_succ, edge_startReg, starts]
  cases h : writes (inp t) (topAt core y₀ inp t) with
  | false => rfl
  | true => simp [writeRegs, writeReg_request, writeReg_startReg, WriteRegs.reset]

/-! ## Held masters -/

/-- A master that keeps `valid` and the payload on AW, W and AR until the matching `ready`. -/
structure StableMaster : Prop where
  aw : Held (fun t => (inp t).awvalid) (fun t => (topAt core y₀ inp t).wr.awReady)
    (fun t => (inp t).awaddr)
  w : Held (fun t => (inp t).wvalid) (fun t => (topAt core y₀ inp t).wr.wReady)
    (fun t => ((inp t).wdata, (inp t).wstrb))
  ar : Held (fun t => (inp t).arvalid) (fun t => (topAt core y₀ inp t).rd.arReady)
    (fun t => (inp t).araddr)

def awXfer : Nat → Bool :=
  xfer (fun t => (inp t).awvalid) (fun t => (topAt core y₀ inp t).wr.awReady)

def wXfer : Nat → Bool :=
  xfer (fun t => (inp t).wvalid) (fun t => (topAt core y₀ inp t).wr.wReady)

def bXfer : Nat → Bool :=
  xfer (fun t => (topAt core y₀ inp t).wr.bValid) (fun t => (inp t).bready)

def arXfer : Nat → Bool :=
  xfer (fun t => (inp t).arvalid) (fun t => (topAt core y₀ inp t).rd.arReady)

def rXfer : Nat → Bool :=
  xfer (fun t => (topAt core y₀ inp t).rd.rValid) (fun t => (inp t).rready)

variable {core y₀ inp}

theorem StableMaster.write (h : StableMaster core y₀ inp) :
    Held (fun t => (inp t).awvalid && (inp t).wvalid)
      (fun t => (topAt core y₀ inp t).wr.awReady) (fun t => (inp t).request) := by
  have hready : (fun t => (topAt core y₀ inp t).wr.wReady) =
      fun t => (topAt core y₀ inp t).wr.awReady := funext fun t => (ready_inv t).1
  have hp := h.aw.pair (hready ▸ h.w)
  intro t hv hr
  obtain ⟨h1, h2⟩ := hp t hv hr
  simp only [Prod.mk.injEq] at h2
  exact ⟨h1, by simp [SAxi.request, h2]⟩

/-- AW and W transfer at the same edges, those with `aw_ready` high. -/
theorem StableMaster.xfer_eq (h : StableMaster core y₀ inp) (t : Nat) :
    awXfer core y₀ inp t = (topAt core y₀ inp t).wr.awReady ∧
    wXfer core y₀ inp t = (topAt core y₀ inp t).wr.awReady := by
  simp only [awXfer, wXfer, xfer, (ready_inv t).1]
  cases hr : (topAt core y₀ inp t).wr.awReady with
  | false => simp
  | true =>
    have hv := (write_early core y₀ inp).valid_of_ready h.write hr
    simp only [Bool.and_eq_true] at hv
    simp [hv]

theorem StableMaster.log_write (h : StableMaster core y₀ inp) (t : Nat) :
    applied core y₀ inp t =
      log (sampled (fun u => awXfer core y₀ inp u && wXfer core y₀ inp u)
        (fun u => (inp u).request)) t ++
      (if (topAt core y₀ inp t).wr.awReady then [(inp t).request] else []) := by
  have hx : xfer (fun t => (inp t).awvalid && (inp t).wvalid)
      (fun t => (topAt core y₀ inp t).wr.awReady) =
      fun u => awXfer core y₀ inp u && wXfer core y₀ inp u := by
    funext u
    simp only [awXfer, wXfer, xfer, (ready_inv u).1]
    cases (inp u).awvalid <;> cases (inp u).wvalid <;>
      cases (topAt core y₀ inp u).wr.awReady <;> rfl
  rw [← hx]
  exact (write_early core y₀ inp).log_take h.write t

/-- **The wrapper on the bus of a stable master.** The writes acted on are the ones AW and W
transfer, in order and always together, with at most one not yet transferred, and they alone make
up `x_reg` and `start_reg`; the reads captured are the ones AR transfers, likewise. Every one of
them has its own response, and a response that is not taken stays as it is. -/
theorem bus_in_order (h : StableMaster core y₀ inp) :
    (∀ t, awXfer core y₀ inp t = wXfer core y₀ inp t) ∧
    (∀ t, applied core y₀ inp t =
      log (sampled (fun u => awXfer core y₀ inp u && wXfer core y₀ inp u)
        (fun u => (inp u).request)) t ++
      (if (topAt core y₀ inp t).wr.awReady then [(inp t).request] else [])) ∧
    (∀ t, (topAt core y₀ inp t).wr.xReg = (writeRegs (applied core y₀ inp t) .reset).xReg) ∧
    (∀ t, ∃ rs, applied core y₀ inp (t + 1) = applied core y₀ inp t ++ rs ∧
      (topAt core y₀ inp (t + 1)).wr.startReg = (writeRegs rs .reset).startReg) ∧
    (∀ t, Nat.count (fun u => bXfer core y₀ inp u = true) t + (topAt core y₀ inp t).wr.bValid.toNat =
      (applied core y₀ inp t).length) ∧
    (∀ t, Nat.count (fun u => rXfer core y₀ inp u = true) t + (topAt core y₀ inp t).rd.rValid.toNat =
      (captured core y₀ inp t).length) ∧
    (∀ t, captured core y₀ inp t =
      log (sampled (arXfer core y₀ inp) (fun u => (inp u).araddr)) t ++
      (if (topAt core y₀ inp t).rd.arReady then [(inp t).araddr] else [])) ∧
    (∀ t, (topAt core y₀ inp t).wr.bValid = true → (inp t).bready = false →
      (topAt core y₀ inp (t + 1)).wr.bValid = true ∧
      (topAt core y₀ inp (t + 1)).wr.bResp = (topAt core y₀ inp t).wr.bResp) ∧
    (∀ t, (topAt core y₀ inp t).rd.rValid = true → (inp t).rready = false →
      (topAt core y₀ inp (t + 1)).rd.rValid = true ∧
      (topAt core y₀ inp (t + 1)).rd.rData = (topAt core y₀ inp t).rd.rData ∧
      (topAt core y₀ inp (t + 1)).rd.rResp = (topAt core y₀ inp t).rd.rResp) := by
  refine ⟨fun t => ?_, h.log_write, xReg_of_applied core y₀ inp, startReg_of_applied core y₀ inp,
    fun t => ?_, fun t => ?_, fun t => ?_,
    fun t => (response_held core y₀ inp t).1, fun t => (response_held core y₀ inp t).2⟩
  · rw [(h.xfer_eq t).1, (h.xfer_eq t).2]
  · rw [applied, length_log_sampled]
    exact (write_slot core y₀ inp).count_put_iff.2 (write_no_overrun core y₀ inp) t
  · rw [captured, length_log_sampled]
    exact (read_slot core y₀ inp).count_put_iff.2 (read_no_overrun core y₀ inp) t
  · exact (read_early core y₀ inp).log_take h.ar t

end

/-- A write and a read of X, each held until it is accepted. -/
def exchange : Nat → SAxi :=
  SAxi.play (List.replicate 2 { SAxi.write addrX 4096 with araddr := addrX, arvalid := true })

theorem exchange_stable : StableMaster sigmoid 0 exchange where
  aw
    | 0, _, _ => ⟨rfl, rfl⟩
    | 1, _, hr => absurd hr (by decide)
    | t + 2, hv, _ => by simp [exchange, SAxi.play, SAxi.idle] at hv
  w
    | 0, _, _ => ⟨rfl, rfl⟩
    | 1, _, hr => absurd hr (by decide)
    | t + 2, hv, _ => by simp [exchange, SAxi.play, SAxi.idle] at hv
  ar
    | 0, _, _ => ⟨rfl, rfl⟩
    | 1, _, hr => absurd hr (by decide)
    | t + 2, hv, _ => by simp [exchange, SAxi.play, SAxi.idle] at hv

theorem bus_in_order_exchange :
    applied sigmoid 0 exchange 2 = [⟨addrX, 4096, 0b1111⟩] ∧
    captured sigmoid 0 exchange 2 = [addrX] ∧
    (∀ t, awXfer sigmoid 0 exchange t = wXfer sigmoid 0 exchange t) ∧
    (topAt sigmoid 0 exchange 2).wr.xReg =
      (writeRegs [⟨addrX, 4096, 0b1111⟩] .reset).xReg ∧
    ∀ t, Nat.count (fun u => bXfer sigmoid 0 exchange u = true) t +
      (topAt sigmoid 0 exchange t).wr.bValid.toNat = (applied sigmoid 0 exchange t).length := by
  obtain ⟨hxfer, -, hx, -, hb, -⟩ := bus_in_order exchange_stable
  exact ⟨by decide, by decide, hxfer, hx 2, hb⟩

end CimSigmoid.Sigmoid
