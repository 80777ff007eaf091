import CimSigmoid.Sigmoid.Bus

/-!
# The driver loop of `main.c`

The loop of `main.c`, `reg_write(X_REG, x)`, `sigmoid_start()`,
`sigmoid_wait_done()`, `reg_read(Y_REG)` for each operand, next to the
wrapper it drives. Each access completes on the bus before the next is
issued. A schedule says cycle by cycle which of the things the driver waits
to do it does: raise a `valid`, take a response. So every delay on every
channel is some schedule.

The driver keeps to the bus protocol under every schedule
(`traffic_stable`).
-/

namespace CimSigmoid.Sigmoid

open Clocked

/-! ## The driver -/

/-- The bus access the loop body is at. -/
inductive Access where
  | writeX | start | waitDone | readY
  deriving DecidableEq, Repr

/-- `rdata & 0x02`, the bit the poll loop tests. -/
def statusDone (rdata : BitVec 32) : Bool := rdata.getLsbD 1

namespace Access

def addr : Access → BitVec 5
  | .writeX => addrX
  | .start => addrCtrl
  | .waitDone => addrStatus
  | .readY => addrY

def isWrite : Access → Bool
  | .writeX | .start => true
  | .waitDone | .readY => false

def data (x : BitVec 16) : Access → BitVec 32
  | .writeX => 0#16 ++ x
  | .start => 0x01
  | .waitDone | .readY => 0

def next (rdata : BitVec 32) : Access → Access
  | .writeX => .start
  | .start => .waitDone
  | .waitDone => if statusDone rdata then .readY else .waitDone
  | .readY => .writeX

end Access

/-- One channel of an access: `valid` not yet raised, raised, accepted. -/
inductive Chan where
  | waiting | raised | sent
  deriving DecidableEq, Repr

namespace Chan

def valid (go : Bool) : Chan → Bool
  | .waiting => go
  | .raised => true
  | .sent => false

def next (go ready : Bool) (c : Chan) : Chan :=
  if c.valid go then if ready then .sent else .raised else c

end Chan

/-- What the master does in one cycle of what it may do. -/
structure Sched where
  aw : Bool
  w : Bool
  ar : Bool
  bready : Bool
  rready : Bool
  deriving DecidableEq, Repr

/-- The driver: the access it is at, its channels, the operands to go and the results read. -/
structure Driver where
  access : Access
  aw : Chan
  w : Chan
  ar : Chan
  todo : List (BitVec 16)
  got : List (BitVec 16)
  deriving DecidableEq, Repr

namespace Driver

def init (xs : List (BitVec 16)) : Driver := ⟨.writeX, .waiting, .waiting, .waiting, xs, []⟩

def writing (d : Driver) : Bool := !d.todo.isEmpty && d.access.isWrite

def reading (d : Driver) : Bool := !d.todo.isEmpty && !d.access.isWrite

/-- The port as the driver drives it. -/
def drive (g : Sched) (d : Driver) : SAxi where
  awaddr := d.access.addr
  awvalid := d.writing && d.aw.valid g.aw
  wdata := d.access.data (d.todo.headD 0)
  wstrb := 0b1111
  wvalid := d.writing && d.w.valid g.w
  bready := g.bready
  araddr := d.access.addr
  arvalid := d.reading && d.ar.valid g.ar
  rready := g.rready

def completes (g : Sched) (s : Top) (d : Driver) : Bool :=
  d.writing && (s.wr.bValid && g.bready) || d.reading && (s.rd.rValid && g.rready)

/-- On to the next access, and after a read of Y to the next operand. -/
def complete (rdata : BitVec 32) (d : Driver) : Driver where
  access := d.access.next rdata
  aw := .waiting
  w := .waiting
  ar := .waiting
  todo := if d.access = .readY then d.todo.tail else d.todo
  got := if d.access = .readY then d.got ++ [rdata.extractLsb 15 0] else d.got

def next (g : Sched) (s : Top) (d : Driver) : Driver :=
  if d.completes g s then d.complete s.rd.rData
  else { d with
    aw := if d.writing then d.aw.next g.aw s.wr.awReady else d.aw
    w := if d.writing then d.w.next g.w s.wr.wReady else d.w
    ar := if d.reading then d.ar.next g.ar s.rd.arReady else d.ar }

end Driver

/-! ## The driver and the wrapper together -/

structure Sys where
  drv : Driver
  top : Top
  deriving DecidableEq, Repr

def Sys.step (core : BitVec 16 → BitVec 16) (g : Sched) (s : Sys) : Sys :=
  ⟨s.drv.next g s.top, edge core true (s.drv.drive g) s.top⟩

/-- Driver and wrapper before edge `n`, from reset. -/
def sysAt (core : BitVec 16 → BitVec 16) (y₀ : BitVec 16) (xs : List (BitVec 16))
    (sched : Nat → Sched) (n : Nat) : Sys :=
  stateAt (Sys.step core) ⟨.init xs, .reset y₀⟩ sched n

def traffic (core : BitVec 16 → BitVec 16) (y₀ : BitVec 16) (xs : List (BitVec 16))
    (sched : Nat → Sched) (n : Nat) : SAxi :=
  (sysAt core y₀ xs sched n).drv.drive (sched n)

section

variable {core : BitVec 16 → BitVec 16} {y₀ : BitVec 16} {xs : List (BitVec 16)}
  {sched : Nat → Sched}

/-- The wrapper's half of the system is a run of the wrapper under the driver's traffic. -/
theorem sysAt_top (n : Nat) :
    (sysAt core y₀ xs sched n).top = topAt core y₀ (traffic core y₀ xs sched) n := by
  induction n with
  | zero => rfl
  | succ n ih =>
    rw [topAt_succ, ← ih]
    rfl

theorem sysAt_succ (n : Nat) : sysAt core y₀ xs sched (n + 1) =
    (sysAt core y₀ xs sched n).step core (sched n) := rfl

end

/-! ## The driver keeps to the bus protocol -/

section Step

variable {core : BitVec 16 → BitVec 16} {g : Sched} {s : Sys}

theorem next_access : (s.step core g).drv.access =
    if s.drv.completes g s.top then s.drv.access.next s.top.rd.rData else s.drv.access := by
  unfold Sys.step Driver.next
  split <;> rfl

theorem next_todo : (s.step core g).drv.todo =
    if s.drv.completes g s.top && decide (s.drv.access = .readY) then s.drv.todo.tail
    else s.drv.todo := by
  unfold Sys.step Driver.next
  cases s.drv.completes g s.top <;> simp [Driver.complete]

/-- A pending response belongs to the access the driver is at, whose request the wrapper is
accepting or has accepted. -/
structure Sys.OnBus (s : Sys) : Prop where
  wReady : s.top.wr.wReady = s.top.wr.awReady
  awReady : s.top.wr.awReady = true → s.top.wr.bValid = true
  arReady : s.top.rd.arReady = true → s.top.rd.rValid = true
  write : s.top.wr.bValid = true → s.drv.writing = true ∧
    (s.drv.aw = .raised ∧ s.drv.w = .raised ∧ s.top.wr.awReady = true ∨
      s.drv.aw = .sent ∧ s.drv.w = .sent)
  read : s.top.rd.rValid = true → s.drv.reading = true ∧
    (s.drv.ar = .raised ∧ s.top.rd.arReady = true ∨ s.drv.ar = .sent)

theorem next_of_not_completes (h : s.drv.completes g s.top = false) : (s.step core g).drv =
    { s.drv with
      aw := if s.drv.writing then s.drv.aw.next g.aw s.top.wr.awReady else s.drv.aw
      w := if s.drv.writing then s.drv.w.next g.w s.top.wr.wReady else s.drv.w
      ar := if s.drv.reading then s.drv.ar.next g.ar s.top.rd.arReady else s.drv.ar } := by
  simp [Sys.step, Driver.next, h]

theorem Driver.not_reading {d : Driver} (h : d.writing = true) : d.reading = false := by
  unfold writing at h
  unfold reading
  cases ha : d.access.isWrite <;> simp_all

theorem Driver.not_writing {d : Driver} (h : d.reading = true) : d.writing = false := by
  cases hw : d.writing with
  | false => rfl
  | true => rw [not_reading hw] at h; cases h

theorem Driver.completes_of_writing {d : Driver} (h : d.writing = true) (g : Sched) (s : Top) :
    d.completes g s = (s.wr.bValid && g.bready) := by
  simp [completes, h, not_reading h]

theorem Driver.completes_of_reading {d : Driver} (h : d.reading = true) (g : Sched) (s : Top) :
    d.completes g s = (s.rd.rValid && g.rready) := by
  simp [completes, h, not_writing h]

theorem Chan.next_raised {c : Chan} {go : Bool} (h : c.valid go = true) :
    c.next go false = .raised := by simp [next, h]

theorem Sys.OnBus.awReady_low (h : s.OnBus) (hb : s.top.wr.bValid = false) :
    s.top.wr.awReady = false := by
  cases hr : s.top.wr.awReady with
  | false => rfl
  | true => rw [h.awReady hr] at hb; cases hb

theorem Sys.OnBus.arReady_low (h : s.OnBus) (hb : s.top.rd.rValid = false) :
    s.top.rd.arReady = false := by
  cases hr : s.top.rd.arReady with
  | false => rfl
  | true => rw [h.arReady hr] at hb; cases hb

theorem Sys.OnBus.write_step (h : s.OnBus) (hb : (s.step core g).top.wr.bValid = true) :
    (s.step core g).drv.writing = true ∧
    ((s.step core g).drv.aw = .raised ∧ (s.step core g).drv.w = .raised ∧
        (s.step core g).top.wr.awReady = true ∨
      (s.step core g).drv.aw = .sent ∧ (s.step core g).drv.w = .sent) := by
  have hr' : (s.step core g).top.wr.awReady = writes (s.drv.drive g) s.top := edge_awReady ..
  rw [show (s.step core g).top.wr.bValid = _ from edge_bValid .., Bool.or_eq_true] at hb
  rcases hb with hw | hp
  · have hv := hw
    simp only [writes, Driver.drive, Bool.and_eq_true, Bool.not_eq_true'] at hv
    obtain ⟨⟨⟨hwr, ha⟩, -, hd⟩, hbv⟩ := hv
    have hnc : s.drv.completes g s.top = false := by
      rw [Driver.completes_of_writing hwr, hbv, Bool.false_and]
    rw [hr', next_of_not_completes hnc, h.wReady, h.awReady_low hbv, Chan.next_raised ha,
      Chan.next_raised hd, hw]
    exact ⟨hwr, .inl ⟨by simp [hwr], by simp [hwr], rfl⟩⟩
  · simp only [Driver.drive, Bool.and_eq_true, Bool.not_eq_true'] at hp
    obtain ⟨hwr, hc⟩ := h.write hp.1
    have hnc : s.drv.completes g s.top = false := by
      rw [Driver.completes_of_writing hwr, hp.2, Bool.and_false]
    rw [next_of_not_completes hnc, h.wReady]
    refine ⟨hwr, .inr ?_⟩
    rcases hc with ⟨ha, hd, hr⟩ | ⟨ha, hd⟩
    · simp [hwr, ha, hd, hr, Chan.next, Chan.valid]
    · simp [hwr, ha, hd, Chan.next, Chan.valid]

theorem Sys.OnBus.read_step (h : s.OnBus) (hb : (s.step core g).top.rd.rValid = true) :
    (s.step core g).drv.reading = true ∧
    ((s.step core g).drv.ar = .raised ∧ (s.step core g).top.rd.arReady = true ∨
      (s.step core g).drv.ar = .sent) := by
  have hr' : (s.step core g).top.rd.arReady = reads (s.drv.drive g) s.top := edge_arReady ..
  rw [show (s.step core g).top.rd.rValid = _ from edge_rValid .., Bool.or_eq_true] at hb
  rcases hb with hw | hp
  · have hv := hw
    simp only [reads, Driver.drive, Bool.and_eq_true, Bool.not_eq_true'] at hv
    obtain ⟨⟨hwr, ha⟩, hbv⟩ := hv
    have hnc : s.drv.completes g s.top = false := by
      rw [Driver.completes_of_reading hwr, hbv, Bool.false_and]
    rw [hr', next_of_not_completes hnc, h.arReady_low hbv, Chan.next_raised ha, hw]
    exact ⟨hwr, .inl ⟨by simp [hwr], rfl⟩⟩
  · simp only [Driver.drive, Bool.and_eq_true, Bool.not_eq_true'] at hp
    obtain ⟨hwr, hc⟩ := h.read hp.1
    have hnc : s.drv.completes g s.top = false := by
      rw [Driver.completes_of_reading hwr, hp.2, Bool.and_false]
    rw [next_of_not_completes hnc]
    refine ⟨hwr, .inr ?_⟩
    rcases hc with ⟨ha, hr⟩ | ha
    · simp [hwr, ha, hr, Chan.next, Chan.valid]
    · simp [hwr, ha, Chan.next, Chan.valid]

theorem Sys.OnBus.step (h : s.OnBus) (g : Sched) : (s.step core g).OnBus where
  wReady := (edge_wReady ..).trans (edge_awReady ..).symm
  awReady hr := by
    rw [show (s.step core g).top.wr.awReady = _ from edge_awReady ..] at hr
    rw [show (s.step core g).top.wr.bValid = _ from edge_bValid .., hr]
    rfl
  arReady hr := by
    rw [show (s.step core g).top.rd.arReady = _ from edge_arReady ..] at hr
    rw [show (s.step core g).top.rd.rValid = _ from edge_rValid .., hr]
    rfl
  write := h.write_step
  read := h.read_step

theorem Sys.OnBus.not_completes (h : s.OnBus)
    (hv : s.drv.writing = true ∧ s.top.wr.awReady = false ∧
        (s.drv.aw.valid g.aw = true ∨ s.drv.w.valid g.w = true) ∨
      s.drv.reading = true ∧ s.top.rd.arReady = false ∧ s.drv.ar.valid g.ar = true) :
    s.drv.completes g s.top = false := by
  rcases hv with ⟨hw, hr, hv⟩ | ⟨hw, hr, hv⟩
  · have hb : s.top.wr.bValid = false := by
      rw [← Bool.not_eq_true]
      intro hb
      rcases (h.write hb).2 with ⟨-, -, hr'⟩ | ⟨ha, hd⟩
      · rw [hr] at hr'; cases hr'
      · simp [ha, hd, Chan.valid] at hv
    rw [Driver.completes_of_writing hw, hb, Bool.false_and]
  · have hb : s.top.rd.rValid = false := by
      rw [← Bool.not_eq_true]
      intro hb
      rcases (h.read hb).2 with ⟨-, hr'⟩ | ha
      · rw [hr] at hr'; cases hr'
      · simp [ha, Chan.valid] at hv
    rw [Driver.completes_of_reading hw, hb, Bool.false_and]

end Step

section Run

variable (core : BitVec 16 → BitVec 16) (y₀ : BitVec 16) (xs : List (BitVec 16))
  (sched : Nat → Sched)

theorem sysAt_onBus (n : Nat) : (sysAt core y₀ xs sched n).OnBus :=
  stateAt_inv ⟨rfl, nofun, nofun, nofun, nofun⟩ (fun g _ h => h.step g) sched n

/-- **The driver is a stable master.** -/
theorem traffic_stable : StableMaster core y₀ (traffic core y₀ xs sched) where
  aw t hv hr := by
    simp only [traffic, Driver.drive, Bool.and_eq_true, ← sysAt_top] at hv hr
    have hnc := (sysAt_onBus core y₀ xs sched t).not_completes (.inl ⟨hv.1, hr, .inl hv.2⟩)
    simp only [traffic, sysAt_succ, next_of_not_completes hnc, Driver.drive, hr,
      Chan.next_raised hv.2]
    exact ⟨Bool.and_eq_true_iff.2 ⟨hv.1, by simp [hv.1, Chan.valid]⟩, trivial⟩
  w t hv hr := by
    have hbus := sysAt_onBus core y₀ xs sched t
    simp only [traffic, Driver.drive, Bool.and_eq_true, ← sysAt_top] at hv hr
    have hnc := hbus.not_completes (.inl ⟨hv.1, hbus.wReady ▸ hr, .inr hv.2⟩)
    simp only [traffic, sysAt_succ, next_of_not_completes hnc, Driver.drive, hr,
      Chan.next_raised hv.2]
    exact ⟨Bool.and_eq_true_iff.2 ⟨hv.1, by simp [hv.1, Chan.valid]⟩, trivial⟩
  ar t hv hr := by
    simp only [traffic, Driver.drive, Bool.and_eq_true, ← sysAt_top] at hv hr
    have hnc := (sysAt_onBus core y₀ xs sched t).not_completes (.inr ⟨hv.1, hr, hv.2⟩)
    simp only [traffic, sysAt_succ, next_of_not_completes hnc, Driver.drive, hr,
      Chan.next_raised hv.2]
    exact ⟨Bool.and_eq_true_iff.2 ⟨hv.1, by simp [hv.1, Chan.valid]⟩, trivial⟩

end Run

end CimSigmoid.Sigmoid
