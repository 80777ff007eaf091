import CimSigmoid.Adder.AddApprox
import CimSigmoid.Axi

/-!
# The register wrapper `truncated_adder_top`

`truncated_adder/truncated_adder_top.v` with its three `always` blocks, for
every `DATA_WIDTH` (`m`) and `APPROX_BITS` (`n`). As for `sigmoid_top`, each
block owns a record of registers and is a function from what all registers
held before the edge to what its own hold after it. A slice of the 32-bit bus
data to `DATA_WIDTH` bits, and the padding back, is `BitVec.setWidth`.

`topAt m n inp t` is the wrapper before edge `t` of a run from reset.
-/

namespace CimSigmoid.Adder

open Clocked

def aReg : BitVec 3 := 0b000
def bReg : BitVec 3 := 0b001
def ctrlReg : BitVec 3 := 0b010
def statusReg : BitVec 3 := 0b011
def sumReg : BitVec 3 := 0b100

/-- The register an address selects, `addr[4:2]`. -/
def regSel (addr : BitVec 5) : BitVec 3 := addr.extractLsb 4 2

/-- `STATE_IDLE`, `STATE_CALC`, `STATE_DONE`, and the encoding `2'b11` that has no name. -/
inductive State where
  | stateIdle | stateCalc | stateDone | other
  deriving DecidableEq, Repr

structure WriteRegs (m : Nat) where
  awready : Bool
  wready : Bool
  bvalid : Bool
  bresp : BitVec 2
  regA : BitVec m
  regB : BitVec m
  regCtrlStart : Bool
  deriving DecidableEq, Repr

structure ReadRegs where
  arready : Bool
  rvalid : Bool
  rresp : BitVec 2
  rdata : BitVec 32
  deriving DecidableEq, Repr

structure FsmRegs (m : Nat) where
  state : State
  regStatusBusy : Bool
  regStatusDone : Bool
  regSum : BitVec m
  deriving DecidableEq, Repr

structure Top (m : Nat) where
  wr : WriteRegs m
  rd : ReadRegs
  fsm : FsmRegs m
  deriving DecidableEq, Repr

/-! ## The three blocks -/

def WriteRegs.reset (m : Nat) : WriteRegs m := ⟨false, false, false, 0, 0, 0, false⟩
def ReadRegs.reset : ReadRegs := ⟨false, false, 0, 0⟩
def FsmRegs.reset (m : Nat) : FsmRegs m := ⟨.stateIdle, false, false, 0⟩

section Blocks

variable {m : Nat}

/-- The `case` of the write block. -/
def writeReg (i : SAxi) (w : WriteRegs m) : WriteRegs m :=
  if regSel i.awaddr = aReg then { w with regA := i.wdata.setWidth m }
  else if regSel i.awaddr = bReg then { w with regB := i.wdata.setWidth m }
  else if regSel i.awaddr = ctrlReg then { w with regCtrlStart := i.wdata.getLsbD 0 }
  else w

def writeBlock (aresetn : Bool) (i : SAxi) (w : WriteRegs m) : WriteRegs m :=
  if !aresetn then .reset m
  else
    let accept := !w.awready && i.awvalid && i.wvalid
    let w₁ := { w with awready := accept, wready := accept }
    if w.awready && i.awvalid && w.wready && i.wvalid then
      { writeReg i w₁ with bvalid := true, bresp := 0 }
    else if w.bvalid && i.bready then { w₁ with bvalid := false }
    else w₁

def wireSum (n : Nat) (s : Top m) : BitVec m := (addApprox n s.wr.regA s.wr.regB false).2

def fsmBlock (n : Nat) (aresetn : Bool) (s : Top m) : FsmRegs m :=
  if !aresetn then .reset m
  else
    match s.fsm.state with
    | .stateIdle =>
      let f := { s.fsm with regStatusDone := false }
      if s.wr.regCtrlStart then { f with regStatusBusy := true, state := .stateCalc } else f
    | .stateCalc =>
      { s.fsm with
        regSum := wireSum n s, regStatusBusy := false, regStatusDone := true, state := .stateDone }
    | .stateDone => { s.fsm with state := .stateIdle }
    | .other => { s.fsm with state := .stateIdle }

/-- The `case` of the read block. -/
def readReg (araddr : BitVec 5) (s : Top m) : BitVec 32 :=
  if regSel araddr = aReg then s.wr.regA.setWidth 32
  else if regSel araddr = bReg then s.wr.regB.setWidth 32
  else if regSel araddr = ctrlReg then 0#31 ++ BitVec.ofBool s.wr.regCtrlStart
  else if regSel araddr = statusReg then
    0#30 ++ (BitVec.ofBool s.fsm.regStatusDone ++ BitVec.ofBool s.fsm.regStatusBusy)
  else if regSel araddr = sumReg then s.fsm.regSum.setWidth 32
  else 0

def readBlock (aresetn : Bool) (i : SAxi) (s : Top m) : ReadRegs :=
  if !aresetn then .reset
  else
    let r₁ := { s.rd with arready := !s.rd.arready && i.arvalid }
    if s.rd.arready && i.arvalid && !s.rd.rvalid then
      { r₁ with rvalid := true, rresp := 0, rdata := readReg i.araddr s }
    else if s.rd.rvalid && i.rready then { r₁ with rvalid := false }
    else r₁

/-- One rising edge. -/
def edge (n : Nat) (aresetn : Bool) (i : SAxi) (s : Top m) : Top m where
  wr := writeBlock aresetn i s.wr
  rd := readBlock aresetn i s
  fsm := fsmBlock n aresetn s

end Blocks

def Top.reset (m : Nat) : Top m := ⟨.reset m, .reset, .reset m⟩

theorem edge_reset {m : Nat} (n : Nat) (i : SAxi) (s : Top m) :
    edge n false i s = Top.reset m := rfl

/-- The wrapper before edge `t` of a run from reset, `s_axi_aresetn` high. -/
def topAt (m n : Nat) (inp : Nat → SAxi) (t : Nat) : Top m :=
  stateAt (edge n true) (Top.reset m) inp t

/-! ## What one edge does -/

section Edge

variable {m : Nat}

/-- A write is executed at this edge: AW and W transfer. -/
def executes (i : SAxi) (s : Top m) : Bool :=
  s.wr.awready && i.awvalid && s.wr.wready && i.wvalid

def executesAt (r : BitVec 3) (i : SAxi) (s : Top m) : Bool :=
  executes i s && decide (regSel i.awaddr = r)

def captures (i : SAxi) (s : Top m) : Bool := s.rd.arready && i.arvalid && !s.rd.rvalid

variable (n : Nat) (i : SAxi) (s : Top m)

theorem edge_awready :
    (edge n true i s).wr.awready = (!s.wr.awready && i.awvalid && i.wvalid) := by
  unfold edge writeBlock writeReg
  simp only [Bool.not_true, Bool.false_eq_true, if_false]
  repeat' split
  all_goals rfl

theorem edge_wready :
    (edge n true i s).wr.wready = (!s.wr.awready && i.awvalid && i.wvalid) := by
  unfold edge writeBlock writeReg
  simp only [Bool.not_true, Bool.false_eq_true, if_false]
  repeat' split
  all_goals rfl

theorem edge_bvalid :
    (edge n true i s).wr.bvalid = (executes i s || (s.wr.bvalid && !i.bready)) := by
  unfold edge writeBlock executes
  cases s.wr.awready && i.awvalid && s.wr.wready && i.wvalid <;> cases s.wr.bvalid <;>
    cases i.bready <;> simp

theorem writeReg_regCtrlStart (w : WriteRegs m) : (writeReg i w).regCtrlStart =
    if regSel i.awaddr = ctrlReg then i.wdata.getLsbD 0 else w.regCtrlStart := by
  unfold writeReg
  by_cases h2 : regSel i.awaddr = ctrlReg
  · have h0 : ctrlReg ≠ aReg := by decide
    have h1 : ctrlReg ≠ bReg := by decide
    simp [h2, h0, h1]
  · simp only [h2, if_false]
    repeat' split
    all_goals rfl

theorem edge_regCtrlStart : (edge n true i s).wr.regCtrlStart =
    if executesAt ctrlReg i s then i.wdata.getLsbD 0 else s.wr.regCtrlStart := by
  unfold edge writeBlock executesAt executes
  cases s.wr.awready && i.awvalid && s.wr.wready && i.wvalid <;> cases s.wr.bvalid && i.bready <;>
    simp [writeReg_regCtrlStart]

theorem edge_rvalid :
    (edge n true i s).rd.rvalid = (captures i s || (s.rd.rvalid && !i.rready)) := by
  unfold edge readBlock captures
  cases s.rd.arready && i.arvalid <;> cases hv : s.rd.rvalid <;> cases i.rready <;> simp [hv]

theorem edge_rdata :
    (edge n true i s).rd.rdata = if captures i s then readReg i.araddr s else s.rd.rdata := by
  unfold edge readBlock captures
  cases s.rd.arready && i.arvalid && !s.rd.rvalid <;> cases s.rd.rvalid && i.rready <;> simp

def State.next (start : Bool) : State → State
  | .stateIdle => if start then .stateCalc else .stateIdle
  | .stateCalc => .stateDone
  | .stateDone => .stateIdle
  | .other => .stateIdle

theorem edge_state : (edge n true i s).fsm.state = s.fsm.state.next s.wr.regCtrlStart := by
  cases h : s.fsm.state <;> cases hr : s.wr.regCtrlStart <;>
    simp [edge, fsmBlock, State.next, h, hr]

theorem edge_regSum : (edge n true i s).fsm.regSum =
    if s.fsm.state = .stateCalc then wireSum n s else s.fsm.regSum := by
  cases h : s.fsm.state <;> cases hr : s.wr.regCtrlStart <;> simp [edge, fsmBlock, h, hr]

end Edge

section Run

variable {m n : Nat} {inp : Nat → SAxi}

theorem topAt_succ (t : Nat) : topAt m n inp (t + 1) = edge n true (inp t) (topAt m n inp t) := rfl

end Run

end CimSigmoid.Adder
