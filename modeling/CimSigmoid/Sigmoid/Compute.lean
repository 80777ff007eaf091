import CimSigmoid.Sigmoid.Bus

/-!
# Starting and running computations

A CTRL write that sets `start_reg` at edge `u` takes the FSM out of `S_IDLE`
at edge `u + 1`; `S_LOAD` copies `x_reg` at edge `u + 2`. The response to the
start write keeps the bus busy at edge `u + 1`, so `x_reg` at edge `u + 2` is
still what it was at edge `u` (`start_load`).

From a load at edge `l` the FSM takes three edges to come back to `S_IDLE`
with `done` high (`load_done`), and `done` is high then only (`done_iff`).
-/

namespace CimSigmoid.Sigmoid

open Clocked

/-- The FSM's next state; `go` is `start_reg && !busy`. -/
def Phase.next (go : Bool) : Phase → Phase
  | .idle => if go then .load else .idle
  | .load => .wait
  | .wait => .store
  | .store => .idle

theorem Phase.of_next_eq_load {go : Bool} {p : Phase} (h : p.next go = .load) : p = .idle := by
  cases p <;> cases go <;> first | rfl | cases h

theorem Phase.of_next_eq_wait {go : Bool} {p : Phase} (h : p.next go = .wait) : p = .load := by
  cases p <;> cases go <;> first | rfl | cases h

theorem Phase.of_next_eq_store {go : Bool} {p : Phase} (h : p.next go = .store) : p = .wait := by
  cases p <;> cases go <;> first | rfl | cases h

theorem edge_state (core : BitVec 16 → BitVec 16) (i : SAxi) (s : Top) :
    (edge core true i s).fsm.state = s.fsm.state.next (s.wr.startReg && !s.fsm.busy) := by
  cases h : s.fsm.state with
  | idle => rw [edge_idle core i s h]; unfold Phase.next; split <;> simp_all
  | load => rw [edge_load core i s h]; rfl
  | wait => rw [edge_wait core i s h]; rfl
  | store => rw [edge_store core i s h]; rfl

section

variable {core : BitVec 16 → BitVec 16} {y₀ : BitVec 16} {inp : Nat → SAxi}

abbrev startsAt (core : BitVec 16 → BitVec 16) (y₀ : BitVec 16) (inp : Nat → SAxi) (t : Nat) :
    Bool :=
  starts (inp t) (topAt core y₀ inp t)

def LeavesIdle (core : BitVec 16 → BitVec 16) (y₀ : BitVec 16) (inp : Nat → SAxi) (t : Nat) :
    Prop :=
  (topAt core y₀ inp t).fsm.state = .idle ∧ (topAt core y₀ inp (t + 1)).fsm.state = .load

/-! ## Invariants -/

/-- What holds before every edge: `busy` is "not in `S_IDLE`", `done` is only high in `S_IDLE`,
and `start_reg` only while the response to the start write is pending. -/
structure Top.Ok (s : Top) : Prop where
  busy : s.fsm.busy = decide (s.fsm.state ≠ .idle)
  done : s.fsm.done = true → s.fsm.state = .idle
  start : s.wr.startReg = true → s.wr.bValid = true

theorem Top.Ok.edge {s : Top} (h : s.Ok) (i : SAxi) : (edge core true i s).Ok where
  busy := by
    have hb := h.busy
    cases hs : s.fsm.state with
    | idle => rw [edge_idle core i s hs]; split <;> simp_all
    | load => rw [edge_load core i s hs]; simp_all
    | wait => rw [edge_wait core i s hs]; simp_all
    | store => rw [edge_store core i s hs]; simp
  done := by
    have hd := h.done
    cases hs : s.fsm.state with
    | idle => rw [edge_idle core i s hs]; split <;> simp_all
    | load => rw [edge_load core i s hs]; simp_all
    | wait => rw [edge_wait core i s hs]; simp_all
    | store => rw [edge_store core i s hs]; simp
  start := by
    rw [edge_startReg, edge_bValid]
    intro hs
    simp only [starts, Bool.and_eq_true] at hs
    simp [hs.1]

theorem topAt_ok (t : Nat) : (topAt core y₀ inp t).Ok :=
  stateAt_inv ⟨rfl, nofun, nofun⟩ (fun i _ h => h.edge i) inp t

/-! ## Starting -/

theorem startReg_succ (t : Nat) :
    (topAt core y₀ inp (t + 1)).wr.startReg = startsAt core y₀ inp t := by
  rw [topAt_succ, edge_startReg]

theorem state_succ (t : Nat) : (topAt core y₀ inp (t + 1)).fsm.state =
    (topAt core y₀ inp t).fsm.state.next
      ((topAt core y₀ inp t).wr.startReg && !(topAt core y₀ inp t).fsm.busy) := by
  rw [topAt_succ, edge_state]

theorem leavesIdle_iff {t : Nat} : LeavesIdle core y₀ inp t ↔
    (topAt core y₀ inp t).fsm.state = .idle ∧ (topAt core y₀ inp t).wr.startReg = true := by
  unfold LeavesIdle
  rw [state_succ]
  refine and_congr_right fun hs => ?_
  rw [(topAt_ok t).busy, hs]
  cases (topAt core y₀ inp t).wr.startReg <;> simp [Phase.next]

theorem leavesIdle_of_load {t : Nat} (h : (topAt core y₀ inp (t + 1)).fsm.state = .load) :
    LeavesIdle core y₀ inp t :=
  ⟨Phase.of_next_eq_load (state_succ t ▸ h), h⟩

theorem LeavesIdle.start {t : Nat} (h : LeavesIdle core y₀ inp t) :
    ∃ u, t = u + 1 ∧ startsAt core y₀ inp u = true := by
  have hs := (leavesIdle_iff.1 h).2
  cases t with
  | zero => cases hs
  | succ u => exact ⟨u, rfl, by rwa [startReg_succ] at hs⟩

/-- No write is acted on at the edge after one that was. -/
theorem writes_succ {t : Nat} (h : writes (inp t) (topAt core y₀ inp t) = true) :
    writes (inp (t + 1)) (topAt core y₀ inp (t + 1)) = false := by
  have hb : (topAt core y₀ inp (t + 1)).wr.bValid = true := by
    rw [topAt_succ, edge_bValid, h]; rfl
  simp [writes, hb]

theorem writes_of_startsAt {t : Nat} (h : startsAt core y₀ inp t = true) :
    writes (inp t) (topAt core y₀ inp t) = true ∧ (inp t).awaddr = addrCtrl ∧
      (inp t).wdata.getLsbD 0 = true := by
  simp only [startsAt, starts, Bool.and_eq_true, decide_eq_true_eq] at h
  exact h

theorem xReg_succ_of_not_writes {t : Nat} (h : writes (inp t) (topAt core y₀ inp t) = false) :
    (topAt core y₀ inp (t + 1)).wr.xReg = (topAt core y₀ inp t).wr.xReg := by
  rw [topAt_succ, edge_xReg, h]; rfl

theorem xReg_succ_of_start {t : Nat} (h : startsAt core y₀ inp t = true) :
    (topAt core y₀ inp (t + 1)).wr.xReg = (topAt core y₀ inp t).wr.xReg := by
  have hne : addrCtrl ≠ addrX := by decide
  rw [topAt_succ, edge_xReg, (writes_of_startsAt h).2.1]
  simp [hne]

/-- The response to a start write keeps `x_reg` as it was for two edges. -/
theorem xReg_of_start {t : Nat} (h : startsAt core y₀ inp t = true) :
    (topAt core y₀ inp (t + 2)).wr.xReg = (topAt core y₀ inp t).wr.xReg := by
  rw [xReg_succ_of_not_writes (writes_succ (writes_of_startsAt h).1), xReg_succ_of_start h]

/-- A start write that finds the FSM idle starts it at the next edge. -/
theorem leavesIdle_of_start {t : Nat} (h : startsAt core y₀ inp t = true)
    (hb : (topAt core y₀ inp t).fsm.busy = false) : LeavesIdle core y₀ inp (t + 1) := by
  have hok : (topAt core y₀ inp t).Ok := topAt_ok t
  have hs : (topAt core y₀ inp t).fsm.state = .idle := by
    have := hok.busy
    rw [hb] at this
    simpa using this.symm
  have hn : (topAt core y₀ inp t).wr.startReg = false := by
    cases hr : (topAt core y₀ inp t).wr.startReg with
    | false => rfl
    | true =>
      have hw := (writes_of_startsAt h).1
      simp [writes, hok.start hr] at hw
  rw [leavesIdle_iff, startReg_succ, state_succ, hs, hn]
  exact ⟨rfl, h⟩

/-! ## The three edges of a computation -/

theorem sigmoidX_load {t : Nat} (h : (topAt core y₀ inp t).fsm.state = .load) :
    (topAt core y₀ inp (t + 1)).fsm.sigmoidX = (topAt core y₀ inp t).wr.xReg := by
  rw [topAt_succ, edge_load core _ _ h]

theorem sigmoidX_not_load {t : Nat} (h : (topAt core y₀ inp t).fsm.state ≠ .load) :
    (topAt core y₀ inp (t + 1)).fsm.sigmoidX = (topAt core y₀ inp t).fsm.sigmoidX := by
  rw [topAt_succ]
  cases hs : (topAt core y₀ inp t).fsm.state with
  | idle => rw [edge_idle core _ _ hs]; split <;> rfl
  | load => exact absurd hs h
  | wait => rw [edge_wait core _ _ hs]
  | store => rw [edge_store core _ _ hs]

theorem yReg_wait {t : Nat} (h : (topAt core y₀ inp t).fsm.state = .wait) :
    (topAt core y₀ inp (t + 1)).fsm.yReg = (topAt core y₀ inp t).sigmoidY := by
  rw [topAt_succ, edge_wait core _ _ h]

theorem yReg_not_wait {t : Nat} (h : (topAt core y₀ inp t).fsm.state ≠ .wait) :
    (topAt core y₀ inp (t + 1)).fsm.yReg = (topAt core y₀ inp t).fsm.yReg := by
  rw [topAt_succ]
  cases hs : (topAt core y₀ inp t).fsm.state with
  | idle => rw [edge_idle core _ _ hs]; split <;> rfl
  | load => rw [edge_load core _ _ hs]
  | wait => exact absurd hs h
  | store => rw [edge_store core _ _ hs]

theorem sigmoidY_succ (t : Nat) :
    (topAt core y₀ inp (t + 1)).sigmoidY = core (topAt core y₀ inp t).fsm.sigmoidX := rfl

/-- What a load at edge `l` leads to, edge by edge. The core's register is one edge behind
`sigmoid_x`, so what `S_WAIT` stores is the core's value at the *previous* `sigmoid_x`. -/
theorem load_done {l : Nat} (h : (topAt core y₀ inp l).fsm.state = .load) :
    (topAt core y₀ inp (l + 1)).fsm.state = .wait ∧
    (topAt core y₀ inp (l + 2)).fsm.state = .store ∧
    (topAt core y₀ inp (l + 3)).fsm.state = .idle ∧
    (topAt core y₀ inp (l + 3)).fsm.done = true ∧
    (topAt core y₀ inp (l + 3)).fsm.sigmoidX = (topAt core y₀ inp l).wr.xReg ∧
    (topAt core y₀ inp (l + 3)).fsm.yReg = core (topAt core y₀ inp l).fsm.sigmoidX := by
  have h1 : (topAt core y₀ inp (l + 1)).fsm.state = .wait := by rw [state_succ, h]; rfl
  have h2 : (topAt core y₀ inp (l + 2)).fsm.state = .store := by rw [state_succ, h1]; rfl
  have h3 : (topAt core y₀ inp (l + 3)).fsm.state = .idle := by rw [state_succ, h2]; rfl
  refine ⟨h1, h2, h3, ?_, ?_, ?_⟩
  · rw [topAt_succ, edge_store core _ _ h2]
  · rw [sigmoidX_not_load (by rw [h2]; simp), sigmoidX_not_load (by rw [h1]; simp), sigmoidX_load h]
  · rw [yReg_not_wait (by rw [h2]; simp), yReg_wait h1, sigmoidY_succ]

theorem load_of_wait {t : Nat} (h : (topAt core y₀ inp (t + 1)).fsm.state = .wait) :
    (topAt core y₀ inp t).fsm.state = .load :=
  Phase.of_next_eq_wait (state_succ t ▸ h)

theorem wait_of_store {t : Nat} (h : (topAt core y₀ inp (t + 1)).fsm.state = .store) :
    (topAt core y₀ inp t).fsm.state = .wait :=
  Phase.of_next_eq_store (state_succ t ▸ h)

theorem store_of_done {t : Nat} (h : (topAt core y₀ inp (t + 1)).fsm.done = true) :
    (topAt core y₀ inp t).fsm.state = .store := by
  have hok : (topAt core y₀ inp t).Ok := topAt_ok t
  rw [topAt_succ] at h
  cases hs : (topAt core y₀ inp t).fsm.state with
  | idle => rw [edge_idle core _ _ hs] at h; split at h <;> simp at h
  | load => rw [edge_load core _ _ hs] at h; rw [hok.done h] at hs; cases hs
  | wait => rw [edge_wait core _ _ hs] at h; rw [hok.done h] at hs; cases hs
  | store => rfl

theorem pos_of_state {t : Nat} (h : (topAt core y₀ inp t).fsm.state ≠ .idle) : ∃ u, t = u + 1 := by
  cases t with
  | zero => exact absurd rfl h
  | succ u => exact ⟨u, rfl⟩

/-- **`done` is high exactly three edges after a load.** -/
theorem done_iff {t : Nat} : (topAt core y₀ inp t).fsm.done = true ↔
    ∃ l, t = l + 3 ∧ (topAt core y₀ inp l).fsm.state = .load := by
  constructor
  · intro h
    cases t with
    | zero => cases h
    | succ t =>
      have h1 := store_of_done h
      obtain ⟨u, rfl⟩ := pos_of_state (by rw [h1]; simp)
      have h2 := wait_of_store h1
      obtain ⟨l, rfl⟩ := pos_of_state (by rw [h2]; simp)
      exact ⟨l, rfl, load_of_wait h2⟩
  · rintro ⟨l, rfl, h⟩
    exact (load_done h).2.2.2.1

/-- **Starts and loads.** Every way out of `S_IDLE` is one edge after a start write of its own; a
start write that finds the FSM not busy is never dropped; what `S_LOAD` copies is `x_reg` as it was
at the edge of the start write. -/
theorem start_load (core : BitVec 16 → BitVec 16) (y₀ : BitVec 16) (inp : Nat → SAxi) :
    (∀ t, LeavesIdle core y₀ inp t → ∃ u, t = u + 1 ∧ startsAt core y₀ inp u = true) ∧
    (∀ t t', LeavesIdle core y₀ inp t → LeavesIdle core y₀ inp t' → t ≠ t' →
      ∃ u u', t = u + 1 ∧ t' = u' + 1 ∧ u ≠ u' ∧ startsAt core y₀ inp u = true ∧
        startsAt core y₀ inp u' = true) ∧
    (∀ u, startsAt core y₀ inp u = true → (topAt core y₀ inp u).fsm.busy = false →
      LeavesIdle core y₀ inp (u + 1)) ∧
    (∀ u, startsAt core y₀ inp u = true → LeavesIdle core y₀ inp (u + 1) →
      (topAt core y₀ inp (u + 2)).fsm.state = .load ∧
      (topAt core y₀ inp (u + 3)).fsm.sigmoidX = (topAt core y₀ inp u).wr.xReg) := by
  refine ⟨fun t h => h.start, fun t t' h h' hne => ?_, fun u h hb => leavesIdle_of_start h hb,
    fun u h hl => ⟨hl.2, ?_⟩⟩
  · obtain ⟨u, rfl, hu⟩ := h.start
    obtain ⟨u', rfl, hu'⟩ := h'.start
    exact ⟨u, u', rfl, rfl, by omega, hu, hu'⟩
  · rw [sigmoidX_load hl.2, xReg_of_start h]

end

end CimSigmoid.Sigmoid
