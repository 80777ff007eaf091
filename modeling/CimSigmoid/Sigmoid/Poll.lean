import CimSigmoid.Sigmoid.Driver
import CimSigmoid.Sigmoid.Result

/-!
# Polling for `done`

`done` is high in one cycle per computation, five edges after the start write
(`done_of_start`). The poll loop of the driver sees it exactly when a STATUS
read is captured at that edge; otherwise it polls for ever (`poll_iff`).

The argument is one flag of the system, `Sys.awaits`: a computation was
started and no STATUS value has told the driver of its end. The start write
sets it and the capture of a STATUS value with `done` set clears it
(`next_awaits`).
-/

namespace CimSigmoid.Sigmoid

open Clocked

/-! ## One edge of the system -/

/-- A STATUS value with `done` set is on its way to the driver. -/
def Sys.sees (s : Sys) : Bool := s.top.rd.rValid && statusDone s.top.rd.rData

def Sys.captures (g : Sched) (s : Sys) : Bool :=
  reads (s.drv.drive g) s.top && decide ((s.drv.drive g).araddr = addrStatus)

/-- The driver has started a computation and no STATUS value has yet told it of the end. -/
def Sys.awaits (s : Sys) : Bool :=
  decide (s.drv.access = .start) && s.top.wr.bValid ||
    decide (s.drv.access = .waitDone) && !s.sees

section Step

variable {core : BitVec 16 → BitVec 16} {g : Sched} {s : Sys}

theorem starts_of_start (h : s.drv.access = .start) :
    starts (s.drv.drive g) s.top = writes (s.drv.drive g) s.top := by
  simp [starts, Driver.drive, h, Access.addr, Access.data]

theorem starts_of_ne_start (h : s.drv.access ≠ .start) : starts (s.drv.drive g) s.top = false := by
  cases ha : s.drv.access with
  | writeX => simp [starts, Driver.drive, ha, Access.addr, addrX, addrCtrl]
  | start => exact absurd ha h
  | waitDone => simp [starts, writes, Driver.drive, Driver.writing, ha, Access.isWrite]
  | readY => simp [starts, writes, Driver.drive, Driver.writing, ha, Access.isWrite]

theorem reads_of_isWrite (h : s.drv.access.isWrite = true) :
    reads (s.drv.drive g) s.top = false := by
  simp [reads, Driver.drive, Driver.reading, h]

theorem captures_eq : s.captures g =
    (reads (s.drv.drive g) s.top && decide (s.drv.access = .waitDone)) := by
  unfold Sys.captures Driver.drive
  cases s.drv.access <;> simp [Access.addr, addrX, addrY, addrCtrl, addrStatus]

theorem readStatus_done (t : Top) : statusDone (readReg addrStatus t) = t.fsm.done := by
  cases hd : t.fsm.done <;> cases hb : t.fsm.busy <;>
    simp [statusDone, readReg, addrX, addrY, addrCtrl, addrStatus, hd, hb]

/-- What holds of driver and wrapper while the driver is at an access. The FSM waits whenever the
driver is not between its start write and the STATUS value that ends the poll loop. -/
def Sys.At (s : Sys) : Access → Prop
  | .writeX => s.top.rd.rValid = false ∧ Waiting s.top
  | .start => s.drv.todo.isEmpty = false ∧ s.top.rd.rValid = false ∧
      (s.top.wr.bValid = false → Waiting s.top)
  | .waitDone => s.drv.todo.isEmpty = false ∧ s.top.wr.startReg = false ∧
      (s.sees = true → Waiting s.top)
  | .readY => s.drv.todo.isEmpty = false ∧ Waiting s.top

structure Sys.Inv (s : Sys) : Prop where
  ok : s.top.Ok
  here : s.At s.drv.access

theorem Sys.Inv.here_of {a : Access} (hi : s.Inv) (h : s.drv.access = a) : s.At a := h ▸ hi.here

theorem completes_of_todo (ht : s.drv.todo.isEmpty = false) : s.drv.completes g s.top =
    if s.drv.access.isWrite then s.top.wr.bValid && g.bready else s.top.rd.rValid && g.rready := by
  cases h : s.drv.access.isWrite <;> simp [Driver.completes, Driver.writing, Driver.reading, h, ht]

theorem completes_of_start (hi : s.Inv) (h : s.drv.access = .start) :
    s.drv.completes g s.top = (s.top.wr.bValid && g.bready) := by
  rw [completes_of_todo (hi.here_of h).1, h]; rfl

theorem completes_of_waitDone (hi : s.Inv) (h : s.drv.access = .waitDone) :
    s.drv.completes g s.top = (s.top.rd.rValid && g.rready) := by
  rw [completes_of_todo (hi.here_of h).1, h]; rfl

theorem completes_of_readY (hi : s.Inv) (h : s.drv.access = .readY) :
    s.drv.completes g s.top = (s.top.rd.rValid && g.rready) := by
  rw [completes_of_todo (hi.here_of h).1, h]; rfl

theorem rValid_of_isWrite (h : s.drv.access.isWrite = true) (hv : s.top.rd.rValid = false) :
    (s.step core g).top.rd.rValid = false := by
  have hs : (s.step core g).top = edge core true (s.drv.drive g) s.top := rfl
  rw [hs, edge_rValid, reads_of_isWrite h, hv]
  rfl

theorem rValid_of_rready (hv : s.top.rd.rValid = true) (hr : g.rready = true) :
    (s.step core g).top.rd.rValid = false := by
  have hs : (s.step core g).top = edge core true (s.drv.drive g) s.top := rfl
  rw [hs, edge_rValid]
  simp [reads, hv, Driver.drive, hr]

theorem next_sees (h : s.drv.access = .waitDone) : (s.step core g).sees =
    (s.captures g && s.top.fsm.done || s.sees && !g.rready) := by
  have hr : (s.step core g).sees = ((edge core true (s.drv.drive g) s.top).rd.rValid &&
      statusDone (edge core true (s.drv.drive g) s.top).rd.rData) := rfl
  have ha : (s.drv.drive g).araddr = addrStatus := by simp [Driver.drive, h, Access.addr]
  rw [hr, edge_rValid, edge_rData, captures_eq, h, ha]
  cases hrd : reads (s.drv.drive g) s.top with
  | false => simp [Sys.sees, Bool.and_right_comm, Driver.drive]
  | true =>
    have hv : s.top.rd.rValid = false := by
      simp only [reads, Bool.and_eq_true, Bool.not_eq_true'] at hrd
      exact hrd.2
    simp [readStatus_done, Sys.sees, hv]

theorem at_writeX (hi : s.Inv) (ha : s.drv.access = .writeX) :
    (s.step core g).At (s.step core g).drv.access := by
  obtain ⟨hv, hw⟩ := hi.here_of ha
  have hv' : (s.step core g).top.rd.rValid = false := rValid_of_isWrite (by rw [ha]; rfl) hv
  have hw' : Waiting (s.step core g).top := hw.edge (starts_of_ne_start (by rw [ha]; simp))
  rw [next_access, ha]
  cases hc : s.drv.completes g s.top with
  | false => exact ⟨hv', hw'⟩
  | true =>
    refine ⟨?_, hv', fun _ => hw'⟩
    rw [next_todo, ha]
    simp only [Driver.completes, Driver.writing, Driver.reading, ha, Access.isWrite] at hc
    cases ht : s.drv.todo.isEmpty <;> simp_all

theorem at_start (hi : s.Inv) (ha : s.drv.access = .start) :
    (s.step core g).At (s.step core g).drv.access := by
  obtain ⟨ht, hv, hw⟩ := hi.here_of ha
  have hv' : (s.step core g).top.rd.rValid = false := rValid_of_isWrite (by rw [ha]; rfl) hv
  have ht' : (s.step core g).drv.todo.isEmpty = false := by rw [next_todo, ha]; simpa using ht
  have hb : (s.step core g).top.wr.bValid =
    (writes (s.drv.drive g) s.top || (s.top.wr.bValid && !g.bready)) := edge_bValid ..
  rw [next_access, completes_of_start hi ha, ha]
  cases hbv : s.top.wr.bValid with
  | false =>
    refine ⟨ht', hv', fun hb' => (hw hbv).edge ?_⟩
    rw [hb, hbv] at hb'
    rw [starts_of_start ha]
    simpa using hb'
  | true =>
    cases hr : g.bready with
    | false => exact ⟨ht', hv', fun hb' => by simp [hb, hbv, hr] at hb'⟩
    | true =>
      have hns : starts (s.drv.drive g) s.top = false := by simp [starts, writes, hbv]
      exact ⟨ht', (edge_startReg ..).trans hns, fun hs => by simp [Sys.sees, hv'] at hs⟩

theorem at_waitDone (hi : s.Inv) (ha : s.drv.access = .waitDone) :
    (s.step core g).At (s.step core g).drv.access := by
  obtain ⟨ht, hsr, hw⟩ := hi.here_of ha
  have hns : starts (s.drv.drive g) s.top = false := starts_of_ne_start (by rw [ha]; simp)
  have ht' : (s.step core g).drv.todo.isEmpty = false := by rw [next_todo, ha]; simpa using ht
  have hpoll : (s.step core g).At .waitDone := by
    refine ⟨ht', (edge_startReg ..).trans hns, fun hs => Waiting.edge ?_ hns⟩
    rw [next_sees ha] at hs
    cases hd : s.top.fsm.done with
    | true => exact ⟨hi.ok.done hd, hsr⟩
    | false => exact hw (by simp_all)
  rw [next_access, completes_of_waitDone hi ha, ha]
  cases hv : s.top.rd.rValid && g.rready with
  | false => exact hpoll
  | true =>
    cases hd : statusDone s.top.rd.rData with
    | false => simpa [Access.next, hd] using hpoll
    | true =>
      simp only [Access.next, hd]
      exact ⟨ht', Waiting.edge (hw (by simp_all [Sys.sees])) hns⟩

theorem at_readY (hi : s.Inv) (ha : s.drv.access = .readY) :
    (s.step core g).At (s.step core g).drv.access := by
  obtain ⟨ht, hw⟩ := hi.here_of ha
  have hw' : Waiting (s.step core g).top := hw.edge (starts_of_ne_start (by rw [ha]; simp))
  rw [next_access, completes_of_readY hi ha, ha]
  cases hv : s.top.rd.rValid && g.rready with
  | false =>
    refine ⟨?_, hw'⟩
    rw [next_todo, completes_of_readY hi ha, hv]
    exact ht
  | true =>
    rw [Bool.and_eq_true] at hv
    exact ⟨rValid_of_rready hv.1 hv.2, hw'⟩

theorem Sys.Inv.step (hi : s.Inv) (g : Sched) : (s.step core g).Inv := by
  refine ⟨hi.ok.edge (s.drv.drive g), ?_⟩
  cases ha : s.drv.access with
  | writeX => exact at_writeX hi ha
  | start => exact at_start hi ha
  | waitDone => exact at_waitDone hi ha
  | readY => exact at_readY hi ha

/-- **Set by the start write, cleared by the capture that sees `done`.** -/
theorem next_awaits (hi : s.Inv) : (s.step core g).awaits =
    (starts (s.drv.drive g) s.top || (s.awaits && !(s.captures g && s.top.fsm.done))) := by
  have hb : (s.step core g).top.wr.bValid =
    (writes (s.drv.drive g) s.top || (s.top.wr.bValid && !g.bready)) := edge_bValid ..
  have hca := captures_eq (s := s) (g := g)
  cases ha : s.drv.access with
  | writeX =>
    rw [starts_of_ne_start (by rw [ha]; simp)]
    unfold Sys.awaits
    rw [next_access, ha]
    cases hc : s.drv.completes g s.top with
    | false => simp
    | true =>
      simp only [Driver.completes, Driver.writing, Driver.reading, ha, Access.isWrite] at hc
      simp_all [Access.next, writes]
  | start =>
    obtain ⟨ht, hv, hw⟩ := hi.here_of ha
    have hrv : (s.step core g).top.rd.rValid = false := rValid_of_isWrite (by rw [ha]; rfl) hv
    have hv' : (s.step core g).sees = false := by simp [Sys.sees, hrv]
    unfold Sys.awaits
    rw [starts_of_start ha, next_access, completes_of_start hi ha, hb, hv', hca, ha]
    cases s.top.wr.bValid <;> cases g.bready <;> simp [Access.next]
  | waitDone =>
    rw [starts_of_ne_start (by rw [ha]; simp)]
    unfold Sys.awaits
    rw [next_access, completes_of_waitDone hi ha, next_sees ha, ha]
    cases hv : s.top.rd.rValid with
    | false => simp [Sys.sees, hv]
    | true =>
      have hnc : s.captures g = false := by simp [hca, reads, hv]
      cases hd : statusDone s.top.rd.rData <;> cases g.rready <;>
        simp [Sys.sees, Access.next, hv, hd, hnc]
  | readY =>
    rw [starts_of_ne_start (by rw [ha]; simp)]
    unfold Sys.awaits
    rw [next_access, completes_of_readY hi ha, ha]
    cases s.top.rd.rValid && g.rready <;> simp [Access.next]

theorem awaits_of_waitDone (h : s.drv.access = .waitDone) : s.awaits = !s.sees := by
  simp [Sys.awaits, h]

/-- The poll loop goes on as long as the end of the computation is awaited. -/
theorem waitDone_of_awaits (h : s.drv.access = .waitDone) (ha : (s.step core g).awaits = true) :
    (s.step core g).drv.access = .waitDone := by
  rw [Sys.awaits, next_access, h] at ha
  rw [next_access, h]
  cases hc : s.drv.completes g s.top with
  | false => rfl
  | true =>
    cases hd : statusDone s.top.rd.rData with
    | false => simp [Access.next, hd]
    | true => simp [Access.next, hc, hd] at ha

theorem starts_of_awaits (h : s.awaits = true) : starts (s.drv.drive g) s.top = false := by
  by_cases ha : s.drv.access = .start
  · simp only [Sys.awaits, ha] at h
    simp_all [starts, writes]
  · exact starts_of_ne_start ha

end Step

/-! ## Runs of the system -/

section Run

variable {core : BitVec 16 → BitVec 16} {y₀ : BitVec 16}

/-- A start write that finds the FSM waiting raises `done` five edges later and, up to the next
start write, then only. -/
theorem done_of_start {inp : Nat → SAxi} {k n : Nat} (hw : Waiting (topAt core y₀ inp k))
    (hk : startsAt core y₀ inp k = true) (hkn : k < n)
    (hns : ∀ v, k < v → v < n → startsAt core y₀ inp v = false) :
    (topAt core y₀ inp n).fsm.done = true ↔ n = k + 5 := by
  obtain ⟨h1, h2, -⟩ := hw.start hk
  rw [done_iff]
  constructor
  · rintro ⟨l, rfl, hl⟩
    obtain ⟨a, rfl⟩ := pos_of_state (by rw [hl]; simp)
    obtain ⟨u, rfl, hu⟩ := (leavesIdle_of_load hl).start
    obtain ⟨h3, h4, -⟩ := load_done hl
    rcases (by omega : k < u ∨ u = k ∨ k = u + 1 ∨ k = u + 2 ∨ k = u + 3 ∨ k = u + 4) with
      h | rfl | rfl | rfl | rfl | rfl
    · rw [hns u h (by omega)] at hu; cases hu
    · rfl
    · rw [← startReg_succ, hw.2] at hu; cases hu
    · rw [hw.1] at hl; cases hl
    · rw [hw.1] at h3; cases h3
    · rw [hw.1] at h4; cases h4
  · rintro rfl
    exact ⟨k + 2, rfl, h2⟩

theorem waiting_of_start {inp : Nat → SAxi} {k n : Nat} (hw : Waiting (topAt core y₀ inp k))
    (hk : startsAt core y₀ inp k = true) (hkn : k + 5 ≤ n)
    (hns : ∀ v, k < v → v < n → startsAt core y₀ inp v = false) :
    Waiting (topAt core y₀ inp n) := by
  have h5 : Waiting (topAt core y₀ inp (k + 5)) :=
    ⟨(hw.start hk).2.2.1, by rw [startReg_succ]; exact hns (k + 4) (by omega) (by omega)⟩
  exact (h5.stays hkn fun v h1 h2 => hns v (by omega) h2).1

variable {xs : List (BitVec 16)} {sched : Nat → Sched}

theorem sysAt_inv (n : Nat) : (sysAt core y₀ xs sched n).Inv :=
  stateAt_inv ⟨⟨rfl, nofun, nofun⟩, rfl, rfl, rfl⟩ (fun g _ h => h.step g) sched n

theorem startsAt_traffic (n : Nat) : startsAt core y₀ (traffic core y₀ xs sched) n =
    starts ((sysAt core y₀ xs sched n).drv.drive (sched n)) (sysAt core y₀ xs sched n).top := by
  rw [sysAt_top]; rfl

theorem awaits_succ (n : Nat) : (sysAt core y₀ xs sched (n + 1)).awaits =
    (startsAt core y₀ (traffic core y₀ xs sched) n || ((sysAt core y₀ xs sched n).awaits &&
      !((sysAt core y₀ xs sched n).captures (sched n) &&
        (topAt core y₀ (traffic core y₀ xs sched) n).fsm.done))) := by
  rw [startsAt_traffic, ← sysAt_top]
  exact next_awaits (sysAt_inv n)

theorem startsAt_of_awaits {n : Nat} (h : (sysAt core y₀ xs sched n).awaits = true) :
    startsAt core y₀ (traffic core y₀ xs sched) n = false := by
  rw [startsAt_traffic]; exact starts_of_awaits h

theorem waitDone_succ {n : Nat} (h : (sysAt core y₀ xs sched n).drv.access = .waitDone)
    (ha : (sysAt core y₀ xs sched (n + 1)).awaits = true) :
    (sysAt core y₀ xs sched (n + 1)).drv.access = .waitDone :=
  waitDone_of_awaits (s := sysAt core y₀ xs sched n) h ha

/-- The driver starts a computation only while the FSM waits. -/
theorem waiting_of_startsAt {k : Nat}
    (h : startsAt core y₀ (traffic core y₀ xs sched) k = true) :
    Waiting (topAt core y₀ (traffic core y₀ xs sched) k) := by
  have hb : (topAt core y₀ (traffic core y₀ xs sched) k).wr.bValid = false := by
    have := (writes_of_startsAt h).1
    simp only [writes, Bool.and_eq_true, Bool.not_eq_true'] at this
    exact this.2
  rw [startsAt_traffic] at h
  rw [← sysAt_top] at hb ⊢
  by_cases ha : (sysAt core y₀ xs sched k).drv.access = .start
  · exact ((sysAt_inv k).here_of ha).2.2 hb
  · rw [starts_of_ne_start ha] at h; cases h

theorem awaits_of_not_captures {k : Nat}
    (hk : startsAt core y₀ (traffic core y₀ xs sched) k = true)
    (hc : (sysAt core y₀ xs sched (k + 5)).captures (sched (k + 5)) = false) {n : Nat}
    (hn : k < n) : (sysAt core y₀ xs sched n).awaits = true ∧
      ∀ v, k < v → v < n → startsAt core y₀ (traffic core y₀ xs sched) v = false := by
  induction n, hn using Nat.le_induction with
  | base => exact ⟨by rw [awaits_succ, hk]; rfl, fun v h1 h2 => by omega⟩
  | succ n hn ih =>
    obtain ⟨haw, hns⟩ := ih
    refine ⟨?_, fun v h1 h2 => ?_⟩
    · have hd := done_of_start (waiting_of_startsAt hk) hk hn hns
      rw [awaits_succ, haw]
      by_cases h5 : n = k + 5
      · subst h5; simp [hc]
      · rw [← hd, Bool.not_eq_true] at h5
        simp [h5]
    · rcases Nat.lt_succ_iff_lt_or_eq.1 h2 with h | rfl
      · exact hns v h1 h
      · exact startsAt_of_awaits haw

theorem not_awaits_of_captures {k : Nat}
    (hk : startsAt core y₀ (traffic core y₀ xs sched) k = true)
    (hc : (sysAt core y₀ xs sched (k + 5)).captures (sched (k + 5)) = true) {n : Nat}
    (hn : k + 5 < n)
    (hns : ∀ v, k < v → v < n → startsAt core y₀ (traffic core y₀ xs sched) v = false) :
    (sysAt core y₀ xs sched n).awaits = false := by
  induction n, hn using Nat.le_induction with
  | base =>
    have hd := (done_of_start (waiting_of_startsAt hk) hk (n := k + 5) (by omega)
      fun v h1 h2 => hns v h1 (by omega)).2 rfl
    rw [awaits_succ, hns (k + 5) (by omega) (by omega), hc, hd]
    simp
  | succ n hn ih =>
    rw [awaits_succ, hns n (by omega) (by omega), ih fun v h1 h2 => hns v h1 (by omega)]
    rfl

/-- The completion is lost before edge `n`: the computation of the driver's last start write has
stored its result and the FSM is back in `S_IDLE` with `done` low, and the driver is in its poll
loop with no STATUS value with `done` set received or on its way. -/
def Lost (core : BitVec 16 → BitVec 16) (y₀ : BitVec 16) (xs : List (BitVec 16))
    (sched : Nat → Sched) (n : Nat) : Prop :=
  (sysAt core y₀ xs sched n).drv.access = .waitDone ∧ (sysAt core y₀ xs sched n).sees = false ∧
  (∃ k u, k < u ∧ u < n ∧ startsAt core y₀ (traffic core y₀ xs sched) k = true ∧
    (∀ v, k < v → v < n → startsAt core y₀ (traffic core y₀ xs sched) v = false) ∧
    (topAt core y₀ (traffic core y₀ xs sched) u).fsm.state = .store) ∧
  (topAt core y₀ (traffic core y₀ xs sched) n).fsm.state = .idle ∧
  (topAt core y₀ (traffic core y₀ xs sched) n).fsm.done = false

/-- A lost completion stays lost: the driver polls for ever. -/
theorem Lost.succ {n : Nat} (h : Lost core y₀ xs sched n) : Lost core y₀ xs sched (n + 1) := by
  obtain ⟨hp, hs, ⟨k, u, hku, hun, hk, hns, hu⟩, hst, hd⟩ := h
  have haw : (sysAt core y₀ xs sched n).awaits = true := by rw [awaits_of_waitDone hp, hs]; rfl
  have hn := startsAt_of_awaits haw
  have haw' : (sysAt core y₀ xs sched (n + 1)).awaits = true := by
    rw [awaits_succ, haw, hd]; simp
  have hp' := waitDone_succ hp haw'
  have hsr : (topAt core y₀ (traffic core y₀ xs sched) n).wr.startReg = false := by
    rw [← sysAt_top]; exact ((sysAt_inv n).here_of hp).2.1
  refine ⟨hp', by simpa [awaits_of_waitDone hp'] using haw',
    ⟨k, u, hku, by omega, hk, fun v h1 h2 => ?_, hu⟩, (Waiting.edge ⟨hst, hsr⟩ hn).1, ?_⟩
  · rcases Nat.lt_succ_iff_lt_or_eq.1 h2 with h | rfl
    · exact hns v h1 h
    · exact hn
  · rw [← Bool.not_eq_true]
    intro hd'
    rw [store_of_done hd'] at hst
    cases hst

theorem not_lost_of_captures {k n : Nat}
    (hk : startsAt core y₀ (traffic core y₀ xs sched) k = true)
    (hns : ∀ v, k < v → v < n → startsAt core y₀ (traffic core y₀ xs sched) v = false)
    (hc : (sysAt core y₀ xs sched (k + 5)).captures (sched (k + 5)) = true) {u : Nat} (hku : k < u)
    (hun : u < n) (hu : (topAt core y₀ (traffic core y₀ xs sched) u).fsm.state = .store)
    (hd : (topAt core y₀ (traffic core y₀ xs sched) n).fsm.done = false) :
    (sysAt core y₀ xs sched n).awaits = false := by
  have hw := waiting_of_startsAt hk
  have hu1 : (topAt core y₀ (traffic core y₀ xs sched) (u + 1)).fsm.done = true := by
    rw [topAt_succ, edge_store core _ _ hu]
  have hu5 := (done_of_start hw hk (by omega) fun v h1 h2 => hns v h1 (by omega)).1 hu1
  have hn5 : n ≠ k + 5 := fun h => by
    rw [(done_of_start hw hk (by omega) hns).2 h] at hd; cases hd
  exact not_awaits_of_captures hk hc (by omega) hns

/-- **When a completion is lost to the poll loop.** In a run of the driver no completion is lost
exactly when every start write that is followed by polling has a STATUS read captured five edges
after it. A lost completion is lost for ever. -/
theorem poll_iff (core : BitVec 16 → BitVec 16) (y₀ : BitVec 16) (xs : List (BitVec 16))
    (sched : Nat → Sched) :
    ((∀ n, ¬ Lost core y₀ xs sched n) ↔
      ∀ k, startsAt core y₀ (traffic core y₀ xs sched) k = true →
        (∃ n, k < n ∧ (sysAt core y₀ xs sched n).drv.access = .waitDone) →
        (sysAt core y₀ xs sched (k + 5)).captures (sched (k + 5)) = true) ∧
    ∀ n m, n ≤ m → Lost core y₀ xs sched n → Lost core y₀ xs sched m := by
  refine ⟨⟨?_, ?_⟩, fun n m hnm h => ?_⟩
  · rintro h k hk ⟨n, hkn, hp⟩
    rw [← Bool.not_eq_false]
    intro hc
    have haw := fun {m} (hm : k < m) => awaits_of_not_captures hk hc hm
    have hpoll : ∀ m, n ≤ m → (sysAt core y₀ xs sched m).drv.access = .waitDone := by
      intro m hm
      induction m, hm using Nat.le_induction with
      | base => exact hp
      | succ m hm ih => exact waitDone_succ ih (haw (by omega)).1
    have hp' := hpoll (n + (k + 6)) (by omega)
    obtain ⟨ha, hns⟩ := haw (m := n + (k + 6)) (by omega)
    have hw := waiting_of_startsAt hk
    refine h (n + (k + 6)) ⟨hp', by simpa [awaits_of_waitDone hp'] using ha,
      ⟨k, k + 4, by omega, by omega, hk, hns, (load_done (hw.start hk).2.1).2.1⟩,
      (waiting_of_start hw hk (by omega) hns).1, ?_⟩
    rw [← Bool.not_eq_true, done_of_start hw hk (by omega) hns]
    omega
  · rintro h n ⟨hp, hs, ⟨k, u, hku, hun, hk, hns, hu⟩, -, hd⟩
    have := not_lost_of_captures hk hns (h k hk ⟨n, by omega, hp⟩) hku hun hu hd
    rw [awaits_of_waitDone hp, hs] at this
    cases this
  · induction m, hnm using Nat.le_induction with
    | base => exact h
    | succ m _ ih => exact ih.succ

def Sched.eager (_ : Nat) : Sched := ⟨true, true, true, true, true⟩

/-- Without delays the STATUS reads are captured at edges 4, 6, 8, ..., and `done` is high before
edge 7. -/
theorem poll_lost : ¬ ∀ n, ¬ Lost sigmoid 0 [4096] Sched.eager n := by
  intro h
  refine h 8 ⟨by decide +kernel, by decide +kernel, ⟨2, 6, by decide, by decide,
    by decide +kernel, fun v h1 h2 => ?_, by decide +kernel⟩, by decide +kernel,
    by decide +kernel⟩
  rcases (by omega : v = 3 ∨ v = 4 ∨ v = 5 ∨ v = 6 ∨ v = 7) with rfl | rfl | rfl | rfl | rfl <;>
    decide +kernel

end Run

end CimSigmoid.Sigmoid
