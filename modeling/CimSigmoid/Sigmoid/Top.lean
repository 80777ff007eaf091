import CimSigmoid.Axi
import CimSigmoid.Sigmoid.Core

/-!
# The register wrapper `sigmoid_top`

The wrapper of the Azevedo core (`16 bit Azevedo/sigmoid_top.v`) and that of
the Vaisnav core (`fast_Vaisnav16/sigmoid_top.v`) have the same three
`always` blocks, so the model takes the core's function as a parameter. Each
block owns a record of registers (`WriteRegs`, `ReadRegs`, `FsmRegs`) and is a
function from what all registers held before the edge to what its own hold
after it. `sigmoidY` is the core's output register, which has no reset.

`topAt core y₀ inp t` is the wrapper before edge `t` of a run that begins when
the reset is released. `y₀` is what the core's register holds then
(`edge_reset`).
-/

namespace CimSigmoid.Sigmoid

open Clocked

def addrX : BitVec 5 := 0x00
def addrY : BitVec 5 := 0x04
def addrCtrl : BitVec 5 := 0x08
def addrStatus : BitVec 5 := 0x0C

/-- The FSM's states `S_IDLE`, `S_LOAD`, `S_WAIT`, `S_STORE`: all four values of `state`. -/
inductive Phase where
  | idle | load | wait | store
  deriving DecidableEq, Repr

structure WriteRegs where
  awReady : Bool
  wReady : Bool
  bResp : BitVec 2
  bValid : Bool
  xReg : BitVec 16
  startReg : Bool
  deriving DecidableEq, Repr

structure ReadRegs where
  arReady : Bool
  rResp : BitVec 2
  rData : BitVec 32
  rValid : Bool
  deriving DecidableEq, Repr

structure FsmRegs where
  state : Phase
  busy : Bool
  done : Bool
  sigmoidX : BitVec 16
  yReg : BitVec 16
  deriving DecidableEq, Repr

structure Top where
  wr : WriteRegs
  rd : ReadRegs
  fsm : FsmRegs
  sigmoidY : BitVec 16
  deriving DecidableEq, Repr

/-! ## The three blocks -/

def WriteRegs.reset : WriteRegs := ⟨false, false, 0, false, 0, false⟩
def ReadRegs.reset : ReadRegs := ⟨false, 0, 0, false⟩
def FsmRegs.reset : FsmRegs := ⟨.idle, false, false, 0, 0⟩

/-- The `case` of the write channel. -/
def writeReg (i : SAxi) (w : WriteRegs) : WriteRegs :=
  if i.awaddr = addrX then
    if i.wstrb.getLsbD 0 then { w with xReg := i.wdata.extractLsb 15 0 } else w
  else if i.awaddr = addrCtrl then
    if i.wdata.getLsbD 0 then { w with startReg := true } else w
  else w

def writeChannel (rstN : Bool) (i : SAxi) (w : WriteRegs) : WriteRegs :=
  if !rstN then .reset
  else
    let w₁ := { w with startReg := false }
    let w₂ :=
      if i.awvalid && i.wvalid && !w.bValid then
        writeReg i { w₁ with awReady := true, wReady := true, bResp := 0, bValid := true }
      else { w₁ with awReady := false, wReady := false }
    if w.bValid && i.bready then { w₂ with bValid := false } else w₂

/-- The `case` of the read channel. -/
def readReg (araddr : BitVec 5) (s : Top) : BitVec 32 :=
  if araddr = addrX then 0#16 ++ s.wr.xReg
  else if araddr = addrY then 0#16 ++ s.fsm.yReg
  else if araddr = addrCtrl then 0#31 ++ BitVec.ofBool s.wr.startReg
  else if araddr = addrStatus then 0#30 ++ (BitVec.ofBool s.fsm.done ++ BitVec.ofBool s.fsm.busy)
  else 0

def readChannel (rstN : Bool) (i : SAxi) (s : Top) : ReadRegs :=
  if !rstN then .reset
  else
    let r₁ :=
      if i.arvalid && !s.rd.rValid then
        { s.rd with arReady := true, rResp := 0, rValid := true, rData := readReg i.araddr s }
      else { s.rd with arReady := false }
    if s.rd.rValid && i.rready then { r₁ with rValid := false } else r₁

def processingFsm (rstN : Bool) (s : Top) : FsmRegs :=
  if !rstN then .reset
  else
    match s.fsm.state with
    | .idle =>
      let f := { s.fsm with done := false }
      if s.wr.startReg && !s.fsm.busy then { f with busy := true, state := .load } else f
    | .load => { s.fsm with sigmoidX := s.wr.xReg, state := .wait }
    | .wait => { s.fsm with yReg := s.sigmoidY, state := .store }
    | .store => { s.fsm with busy := false, done := true, state := .idle }

/-- One rising edge: every block, the core's included, reads what the registers held before it. -/
def edge (core : BitVec 16 → BitVec 16) (rstN : Bool) (i : SAxi) (s : Top) : Top where
  wr := writeChannel rstN i s.wr
  rd := readChannel rstN i s
  fsm := processingFsm rstN s
  sigmoidY := core s.fsm.sigmoidX

def Top.reset (y₀ : BitVec 16) : Top := ⟨.reset, .reset, .reset, y₀⟩

theorem edge_reset (core : BitVec 16 → BitVec 16) (i : SAxi) (s : Top) :
    edge core false i s = Top.reset (core s.fsm.sigmoidX) := rfl

/-- The wrapper before edge `t` of a run from reset, `rst_n` high. -/
def topAt (core : BitVec 16 → BitVec 16) (y₀ : BitVec 16) (inp : Nat → SAxi) (t : Nat) : Top :=
  stateAt (edge core true) (Top.reset y₀) inp t

/-! ## What one edge does -/

/-- The write channel acts on a write at this edge. -/
def writes (i : SAxi) (s : Top) : Bool := i.awvalid && i.wvalid && !s.wr.bValid

/-- The read channel captures a read at this edge. -/
def reads (i : SAxi) (s : Top) : Bool := i.arvalid && !s.rd.rValid

def starts (i : SAxi) (s : Top) : Bool :=
  writes i s && (decide (i.awaddr = addrCtrl) && i.wdata.getLsbD 0)

section Edge

variable (core : BitVec 16 → BitVec 16) (i : SAxi) (s : Top)

@[simp] theorem writeReg_awReady (w : WriteRegs) : (writeReg i w).awReady = w.awReady := by
  unfold writeReg; repeat' split
  all_goals rfl

@[simp] theorem writeReg_wReady (w : WriteRegs) : (writeReg i w).wReady = w.wReady := by
  unfold writeReg; repeat' split
  all_goals rfl

@[simp] theorem writeReg_bValid (w : WriteRegs) : (writeReg i w).bValid = w.bValid := by
  unfold writeReg; repeat' split
  all_goals rfl

@[simp] theorem writeReg_bResp (w : WriteRegs) : (writeReg i w).bResp = w.bResp := by
  unfold writeReg; repeat' split
  all_goals rfl

theorem writeReg_xReg (w : WriteRegs) : (writeReg i w).xReg =
    if decide (i.awaddr = addrX) && i.wstrb.getLsbD 0 then i.wdata.extractLsb 15 0 else w.xReg := by
  unfold writeReg
  by_cases hx : i.awaddr = addrX
  · cases i.wstrb.getLsbD 0 <;> simp [hx]
  · simp only [hx, if_false, decide_false, Bool.false_and, Bool.false_eq_true]
    repeat' split
    all_goals rfl

theorem writeReg_startReg (w : WriteRegs) : (writeReg i w).startReg =
    (decide (i.awaddr = addrCtrl) && i.wdata.getLsbD 0 || w.startReg) := by
  unfold writeReg
  by_cases hx : i.awaddr = addrX
  · have hc : i.awaddr ≠ addrCtrl := by rw [hx]; decide
    cases i.wstrb.getLsbD 0 <;> simp [hx, hx ▸ hc]
  · simp only [hx, if_false]
    by_cases hc : i.awaddr = addrCtrl
    · cases i.wdata.getLsbD 0 <;> simp [hc]
    · simp [hc]

theorem edge_awReady : (edge core true i s).wr.awReady = writes i s := by
  unfold edge writeChannel writes
  cases i.awvalid && i.wvalid && !s.wr.bValid <;> cases s.wr.bValid && i.bready <;> simp

theorem edge_wReady : (edge core true i s).wr.wReady = writes i s := by
  unfold edge writeChannel writes
  cases i.awvalid && i.wvalid && !s.wr.bValid <;> cases s.wr.bValid && i.bready <;> simp

theorem edge_bValid :
    (edge core true i s).wr.bValid = (writes i s || (s.wr.bValid && !i.bready)) := by
  unfold edge writeChannel writes
  cases s.wr.bValid <;> cases i.bready <;> cases i.awvalid && i.wvalid <;> simp

theorem edge_bResp : (edge core true i s).wr.bResp = if writes i s then 0 else s.wr.bResp := by
  unfold edge writeChannel writes
  cases i.awvalid && i.wvalid && !s.wr.bValid <;> cases s.wr.bValid && i.bready <;> simp

theorem edge_xReg : (edge core true i s).wr.xReg =
    if writes i s && (decide (i.awaddr = addrX) && i.wstrb.getLsbD 0) then i.wdata.extractLsb 15 0
    else s.wr.xReg := by
  unfold edge writeChannel writes
  cases i.awvalid && i.wvalid && !s.wr.bValid <;> cases s.wr.bValid && i.bready <;>
    simp [writeReg_xReg]

theorem edge_startReg : (edge core true i s).wr.startReg = starts i s := by
  unfold edge writeChannel starts writes
  cases i.awvalid && i.wvalid && !s.wr.bValid <;> cases s.wr.bValid && i.bready <;>
    simp [writeReg_startReg]

theorem edge_arReady : (edge core true i s).rd.arReady = reads i s := by
  unfold edge readChannel reads
  cases i.arvalid && !s.rd.rValid <;> cases s.rd.rValid && i.rready <;> simp

theorem edge_rValid :
    (edge core true i s).rd.rValid = (reads i s || (s.rd.rValid && !i.rready)) := by
  unfold edge readChannel reads
  cases hv : s.rd.rValid <;> cases i.rready <;> cases i.arvalid <;> simp [hv]

theorem edge_rResp : (edge core true i s).rd.rResp = if reads i s then 0 else s.rd.rResp := by
  unfold edge readChannel reads
  cases i.arvalid && !s.rd.rValid <;> cases s.rd.rValid && i.rready <;> simp

theorem edge_rData :
    (edge core true i s).rd.rData = if reads i s then readReg i.araddr s else s.rd.rData := by
  unfold edge readChannel reads
  cases i.arvalid && !s.rd.rValid <;> cases s.rd.rValid && i.rready <;> simp

theorem edge_idle (h : s.fsm.state = .idle) : (edge core true i s).fsm =
    if s.wr.startReg && !s.fsm.busy then
      { s.fsm with done := false, busy := true, state := .load }
    else { s.fsm with done := false } := by
  simp [edge, processingFsm, h]

theorem edge_load (h : s.fsm.state = .load) :
    (edge core true i s).fsm = { s.fsm with sigmoidX := s.wr.xReg, state := .wait } := by
  simp [edge, processingFsm, h]

theorem edge_wait (h : s.fsm.state = .wait) :
    (edge core true i s).fsm = { s.fsm with yReg := s.sigmoidY, state := .store } := by
  simp [edge, processingFsm, h]

theorem edge_store (h : s.fsm.state = .store) :
    (edge core true i s).fsm = { s.fsm with busy := false, done := true, state := .idle } := by
  simp [edge, processingFsm, h]

end Edge

section Run

variable (core : BitVec 16 → BitVec 16) (y₀ : BitVec 16) (inp : Nat → SAxi)

theorem topAt_zero : topAt core y₀ inp 0 = Top.reset y₀ := rfl

theorem topAt_succ (t : Nat) :
    topAt core y₀ inp (t + 1) = edge core true (inp t) (topAt core y₀ inp t) := rfl

/-- The writes acted on before edge `t`. -/
def applied (t : Nat) : List Write :=
  log (sampled (fun u => writes (inp u) (topAt core y₀ inp u)) (fun u => (inp u).request)) t

theorem applied_succ (t : Nat) : applied core y₀ inp (t + 1) = applied core y₀ inp t ++
    if writes (inp t) (topAt core y₀ inp t) then [(inp t).request] else [] := by
  rw [applied, log_succ]
  cases h : writes (inp t) (topAt core y₀ inp t) with
  | true => rw [sampled_pos h]; rfl
  | false => rw [sampled_neg h]; rfl

/-- The addresses of the reads captured before edge `t`. -/
def captured (t : Nat) : List (BitVec 5) :=
  log (sampled (fun u => reads (inp u) (topAt core y₀ inp u)) (fun u => (inp u).araddr)) t

end Run

end CimSigmoid.Sigmoid
