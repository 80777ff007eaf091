import CimSigmoid.Sigmoid.Compute

/-!
# What a computation returns

The core stores its value one edge after `sigmoid_x` changes, and `S_WAIT`
copies it at that same edge, so it copies the value from before: what a
computation leaves in `y_reg` is the core's value at the operand of the
computation *before* it.

* `Late` is that behaviour on its own: a device that answers each operand with
  the core's value at the one before. `late_refines`: the wrapper is such a
  device, the operands being what the `S_LOAD` steps copied.
* `Drives`: the bus traffic of `main.c`, one operand after the other: write X,
  write CTRL, let the computation finish, read Y, with any timing and any
  number of other reads. `drives_results`: what such a run reads is what
  `Late` answers. Every list of operands can be driven (`exists_drives`).

So the result is right exactly when an operand and the one before it have the
same value (`result_iff`).
-/

namespace CimSigmoid.Sigmoid

open Clocked

/-! ## The late device -/

/-- A device that answers each operand with the core's value at the operand before it. -/
structure Late where
  operand : BitVec 16
  result : BitVec 16
  deriving DecidableEq, Repr

namespace Late

def init : Late := ⟨0, 0⟩

def compute (core : BitVec 16 → BitVec 16) (a : Late) (x : BitVec 16) : Late :=
  ⟨x, core a.operand⟩

def results (core : BitVec 16 → BitVec 16) : Late → List (BitVec 16) → List (BitVec 16)
  | _, [] => []
  | a, x :: xs => (a.compute core x).result :: results core (a.compute core x) xs

/-- The answers are right exactly when each operand has the value of the one before it. -/
theorem results_eq_map_iff (core : BitVec 16 → BitVec 16) (xs : List (BitVec 16)) :
    ∀ a : Late, results core a xs = xs.map core ↔
      (a.operand :: xs).IsChain fun p x => core x = core p := by
  induction xs with
  | nil => intro a; simp [results]
  | cons x xs ih =>
    intro a
    simp only [results, List.map_cons, List.cons.injEq, List.isChain_cons_cons, ih, compute]
    exact and_congr_left fun _ => eq_comm

end Late

/-- The device's registers in the wrapper, outside `S_WAIT`. -/
def Top.late (s : Top) : Late := ⟨s.fsm.sigmoidX, s.fsm.yReg⟩

section

variable {core : BitVec 16 → BitVec 16} {y₀ : BitVec 16} {inp : Nat → SAxi}

/-- The operands the `S_LOAD` steps before edge `t` copied. -/
def loads (core : BitVec 16 → BitVec 16) (y₀ : BitVec 16) (inp : Nat → SAxi) (t : Nat) :
    List (BitVec 16) :=
  log (sampled (fun u => decide ((topAt core y₀ inp u).fsm.state = .load))
    (fun u => (topAt core y₀ inp u).wr.xReg)) t

theorem loads_succ_load {t : Nat} (h : (topAt core y₀ inp t).fsm.state = .load) :
    loads core y₀ inp (t + 1) = loads core y₀ inp t ++ [(topAt core y₀ inp t).wr.xReg] := by
  rw [loads, log_succ, sampled_pos (by simp [h])]; rfl

theorem loads_succ_not_load {t : Nat} (h : (topAt core y₀ inp t).fsm.state ≠ .load) :
    loads core y₀ inp (t + 1) = loads core y₀ inp t := by
  rw [loads, log_succ, sampled_neg (by simp [h]), Option.toList_none, List.append_nil]; rfl

/-- **The wrapper is the late device.** After the loads so far, `sigmoid_x` is the device's
operand; its result is in `y_reg`, or in the core's register on its way there. -/
theorem late_refines (t : Nat) :
    (topAt core y₀ inp t).fsm.sigmoidX =
      ((loads core y₀ inp t).foldl (Late.compute core) Late.init).operand ∧
    (if (topAt core y₀ inp t).fsm.state = .wait then (topAt core y₀ inp t).sigmoidY
      else (topAt core y₀ inp t).fsm.yReg) =
      ((loads core y₀ inp t).foldl (Late.compute core) Late.init).result := by
  induction t with
  | zero => exact ⟨rfl, rfl⟩
  | succ t ih =>
    obtain ⟨ihx, ihy⟩ := ih
    by_cases hl : (topAt core y₀ inp t).fsm.state = .load
    · have hw : (topAt core y₀ inp (t + 1)).fsm.state = .wait := (load_done hl).1
      rw [loads_succ_load hl, List.foldl_append, hw, sigmoidX_load hl, sigmoidY_succ, ihx]
      exact ⟨rfl, rfl⟩
    · have hw : (topAt core y₀ inp (t + 1)).fsm.state ≠ .wait := fun h => hl (load_of_wait h)
      rw [loads_succ_not_load hl, sigmoidX_not_load hl, if_neg hw, ihx, ← ihy]
      refine ⟨rfl, ?_⟩
      by_cases hs : (topAt core y₀ inp t).fsm.state = .wait
      · rw [if_pos hs, yReg_wait hs]
      · rw [if_neg hs, yReg_not_wait hs]

/-! ## Results inside a run -/

/-- Edge `l` is the `S_LOAD` step of the computation that stands finished before edge `t`. -/
def LoadOf (core : BitVec 16 → BitVec 16) (y₀ : BitVec 16) (inp : Nat → SAxi) (l t : Nat) : Prop :=
  l < t ∧ (topAt core y₀ inp l).fsm.state = .load ∧
    ∀ u, l < u → u < t → (topAt core y₀ inp u).fsm.state ≠ .load

theorem LoadOf.unique {l l' t : Nat} (h : LoadOf core y₀ inp l t) (h' : LoadOf core y₀ inp l' t) :
    l = l' := by
  obtain ⟨h1, h2, h3⟩ := h
  obtain ⟨h1', h2', h3'⟩ := h'
  rcases Nat.lt_trichotomy l l' with hlt | heq | hgt
  · exact absurd h2' (h3 l' hlt h1')
  · exact heq
  · exact absurd h2 (h3' l hgt h1)

theorem loadOf_done {l : Nat} (h : (topAt core y₀ inp l).fsm.state = .load) :
    LoadOf core y₀ inp l (l + 3) := by
  obtain ⟨h1, h2, -⟩ := load_done h
  refine ⟨by omega, h, fun u hu hut => ?_⟩
  rcases (by omega : u = l + 1 ∨ u = l + 2) with rfl | rfl
  · rw [h1]; simp
  · rw [h2]; simp

/-- Every finished computation has the core's value at its own operand exactly when every load
copies an operand with the value of the one before. -/
theorem done_result_iff (core : BitVec 16 → BitVec 16) (y₀ : BitVec 16) (inp : Nat → SAxi) :
    (∀ t, (topAt core y₀ inp t).fsm.done = true → ∃ l, LoadOf core y₀ inp l t ∧
      (topAt core y₀ inp t).fsm.yReg = core (topAt core y₀ inp l).wr.xReg) ↔
    ∀ l, (topAt core y₀ inp l).fsm.state = .load →
      core (topAt core y₀ inp l).wr.xReg = core (topAt core y₀ inp l).fsm.sigmoidX := by
  constructor
  · intro h l hl
    obtain ⟨l', hl', hy⟩ := h (l + 3) (done_iff.2 ⟨l, rfl, hl⟩)
    obtain rfl := hl'.unique (loadOf_done hl)
    rw [← hy, (load_done hl).2.2.2.2.2]
  · intro h t ht
    obtain ⟨l, rfl, hl⟩ := done_iff.1 ht
    exact ⟨l, loadOf_done hl, by rw [(load_done hl).2.2.2.2.2, h l hl]⟩

/-! ## Driven runs -/

/-- The bus traffic of the driver loop from edge `t` on: for each operand a write of X, a write of
CTRL, `done`, and a read of Y, with no other write in between. The last list is what the
reads of Y return. -/
inductive Drives (core : BitVec 16 → BitVec 16) (y₀ : BitVec 16) (inp : Nat → SAxi) :
    Nat → List (BitVec 16) → List (BitVec 16) → Prop where
  | nil (t : Nat) : Drives core y₀ inp t [] []
  | cons {t w c d r : Nat} {x y : BitVec 16} {xs ys : List (BitVec 16)} :
    t ≤ w → w < c → c < d → d ≤ r →
    writes (inp w) (topAt core y₀ inp w) = true → (inp w).request = ⟨addrX, 0#16 ++ x, 0b1111⟩ →
    writes (inp c) (topAt core y₀ inp c) = true → (inp c).request = ⟨addrCtrl, 1, 0b1111⟩ →
    (∀ u, t ≤ u → u ≤ r → u ≠ w → u ≠ c → writes (inp u) (topAt core y₀ inp u) = false) →
    (topAt core y₀ inp d).fsm.done = true →
    reads (inp r) (topAt core y₀ inp r) = true → (inp r).araddr = addrY →
    y = (topAt core y₀ inp (r + 1)).rd.rData.extractLsb 15 0 →
    Drives core y₀ inp (r + 1) xs ys →
    Drives core y₀ inp t (x :: xs) (y :: ys)

def Waiting (s : Top) : Prop := s.fsm.state = .idle ∧ s.wr.startReg = false

theorem Waiting.edge {t : Top} (h : Waiting t) {i : SAxi} (hs : starts i t = false) :
    Waiting (edge core true i t) := by
  refine ⟨?_, by rw [edge_startReg, hs]⟩
  rw [edge_state, h.1, h.2]
  rfl

/-- Without start writes a waiting FSM keeps waiting, and its registers stand still. -/
theorem Waiting.stays {a b : Nat} (hab : a ≤ b) (h : Waiting (topAt core y₀ inp a))
    (hn : ∀ u, a ≤ u → u < b → startsAt core y₀ inp u = false) :
    Waiting (topAt core y₀ inp b) ∧
    (topAt core y₀ inp b).late = (topAt core y₀ inp a).late := by
  induction b, hab using Nat.le_induction with
  | base => exact ⟨h, rfl⟩
  | succ b hb ih =>
    obtain ⟨hw, hl⟩ := ih fun u h1 h2 => hn u h1 (by omega)
    refine ⟨hw.edge (hn b hb (by omega)), ?_⟩
    rw [← hl]
    unfold Top.late
    rw [sigmoidX_not_load (by rw [hw.1]; simp), yReg_not_wait (by rw [hw.1]; simp)]

theorem low_half (x : BitVec 16) : (0#16 ++ x).extractLsb 15 0 = x := by
  apply BitVec.eq_of_toNat_eq
  rw [BitVec.extractLsb_toNat, BitVec.toNat_append]
  have := x.isLt
  simp
  omega

theorem xReg_of_request {t : Nat} {x : BitVec 16} (hw : writes (inp t) (topAt core y₀ inp t) = true)
    (hr : (inp t).request = ⟨addrX, 0#16 ++ x, 0b1111⟩) :
    (topAt core y₀ inp (t + 1)).wr.xReg = x := by
  simp only [SAxi.request, Write.mk.injEq] at hr
  obtain ⟨ha, hd, hs⟩ := hr
  rw [topAt_succ, edge_xReg, hw, ha, hs, hd, low_half]
  rfl

theorem startsAt_of_request {t : Nat} (hw : writes (inp t) (topAt core y₀ inp t) = true)
    (hr : (inp t).request = ⟨addrCtrl, 1, 0b1111⟩) : startsAt core y₀ inp t = true := by
  simp only [SAxi.request, Write.mk.injEq] at hr
  obtain ⟨ha, hd, -⟩ := hr
  simp [startsAt, starts, hw, ha, hd]

theorem not_startsAt_of_request {t : Nat} {x : BitVec 32}
    (hr : (inp t).request = ⟨addrX, x, 0b1111⟩) : startsAt core y₀ inp t = false := by
  have hne : addrX ≠ addrCtrl := by decide
  simp only [SAxi.request, Write.mk.injEq] at hr
  simp [startsAt, starts, hr.1, hne]

theorem rData_of_readY {t : Nat} (hr : reads (inp t) (topAt core y₀ inp t) = true)
    (ha : (inp t).araddr = addrY) :
    (topAt core y₀ inp (t + 1)).rd.rData.extractLsb 15 0 = (topAt core y₀ inp t).fsm.yReg := by
  have h : readReg addrY (topAt core y₀ inp t) = 0#16 ++ (topAt core y₀ inp t).fsm.yReg := rfl
  rw [topAt_succ, edge_rData, hr, if_pos rfl, ha, h, low_half]

/-- A start write that finds the FSM waiting is one step of the late device, finished five edges
later. -/
theorem Waiting.start {c : Nat} (h : Waiting (topAt core y₀ inp c))
    (hc : startsAt core y₀ inp c = true) :
    (topAt core y₀ inp (c + 1)).fsm.state = .idle ∧
    (topAt core y₀ inp (c + 2)).fsm.state = .load ∧
    (topAt core y₀ inp (c + 5)).fsm.state = .idle ∧
    (topAt core y₀ inp (c + 5)).late =
      (topAt core y₀ inp c).late.compute core (topAt core y₀ inp c).wr.xReg := by
  have hb : (topAt core y₀ inp c).fsm.busy = false := by rw [(topAt_ok c).busy, h.1]; rfl
  have hl := leavesIdle_of_start hc hb
  obtain ⟨-, -, h3, -, h5, h6⟩ := load_done hl.2
  refine ⟨hl.1, hl.2, h3, ?_⟩
  unfold Top.late Late.compute
  rw [h5, h6, xReg_of_start hc, sigmoidX_not_load (by rw [hl.1]; simp),
    sigmoidX_not_load (by rw [h.1]; simp)]

theorem Waiting.turn {t w c d r : Nat} {x : BitVec 16} (h : Waiting (topAt core y₀ inp t))
    (htw : t ≤ w) (hwc : w < c) (hcd : c < d) (hdr : d ≤ r)
    (hw : writes (inp w) (topAt core y₀ inp w) = true)
    (hwr : (inp w).request = ⟨addrX, 0#16 ++ x, 0b1111⟩)
    (hc : writes (inp c) (topAt core y₀ inp c) = true)
    (hcr : (inp c).request = ⟨addrCtrl, 1, 0b1111⟩)
    (hq : ∀ u, t ≤ u → u ≤ r → u ≠ w → u ≠ c → writes (inp u) (topAt core y₀ inp u) = false)
    (hd : (topAt core y₀ inp d).fsm.done = true) :
    (topAt core y₀ inp r).late = (topAt core y₀ inp t).late.compute core x ∧
    Waiting (topAt core y₀ inp (r + 1)) ∧
    (topAt core y₀ inp (r + 1)).late = (topAt core y₀ inp t).late.compute core x := by
  have hns : ∀ u, t ≤ u → u ≤ r → u ≠ c → startsAt core y₀ inp u = false := by
    intro u h1 h2 h3
    by_cases huw : u = w
    · subst huw; exact not_startsAt_of_request hwr
    · simp [startsAt, starts, hq u h1 h2 huw h3]
  have hsc := startsAt_of_request hc hcr
  obtain ⟨hwait, hlc⟩ := h.stays (b := c) (by omega) fun u h1 h2 => hns u h1 (by omega) (by omega)
  obtain ⟨hs1, hs2, hs5, hl5⟩ := hwait.start hsc
  have hxw : (topAt core y₀ inp c).wr.xReg = x := by
    rw [const_between (r := fun u => (topAt core y₀ inp u).wr.xReg) (a := w + 1) hwc
      fun u h1 h2 => xReg_succ_of_not_writes (hq u (by omega) (by omega) (by omega) (by omega))]
    exact xReg_of_request hw hwr
  have hd5 : c + 5 ≤ d := by
    obtain ⟨l, rfl, hl⟩ := done_iff.1 hd
    have hl1 := (load_done hl).1
    rcases (by omega : l + 1 ≤ c ∨ l + 1 = c + 1 ∨ l + 1 = c + 2 ∨ c + 2 ≤ l) with h1 | h1 | h1 | h1
    · have := (h.stays (b := l + 1) (by omega) fun u h2 h3 => hns u h2 (by omega) (by omega)).1.1
      rw [hl1] at this; cases this
    · rw [h1, hs1] at hl1; cases hl1
    · rw [h1, hs2] at hl1; cases hl1
    · omega
  have hw5 : Waiting (topAt core y₀ inp (c + 5)) :=
    ⟨hs5, by rw [startReg_succ]; exact hns (c + 4) (by omega) (by omega) (by omega)⟩
  obtain ⟨-, hlr⟩ := hw5.stays (b := r) (by omega) fun u h1 h2 =>
    hns u (by omega) (by omega) (by omega)
  obtain ⟨hwr1, hlr1⟩ := hw5.stays (b := r + 1) (by omega) fun u h1 h2 =>
    hns u (by omega) (by omega) (by omega)
  exact ⟨by rw [hlr, hl5, hlc, hxw], hwr1, by rw [hlr1, hl5, hlc, hxw]⟩

/-- **A driven run reads what the late device answers.** -/
theorem drives_results {t : Nat} {xs ys : List (BitVec 16)} (h : Drives core y₀ inp t xs ys)
    (hw : Waiting (topAt core y₀ inp t)) :
    ys = Late.results core (topAt core y₀ inp t).late xs := by
  induction h with
  | nil => rfl
  | cons h1 h2 h3 h4 h5 h6 h7 h8 h9 h10 h11 h12 h13 _ ih =>
    obtain ⟨hr, hwait, hr1⟩ := hw.turn h1 h2 h3 h4 h5 h6 h7 h8 h9 h10
    rw [ih hwait, h13, rData_of_readY h11 h12, hr1, Late.results, ← hr]
    rfl

/-! ## Every list of operands can be driven -/

/-- One turn of a driver without delays. -/
def turnInputs (x : BitVec 16) : List SAxi :=
  [.write addrX (0#16 ++ x), .write addrX (0#16 ++ x), .write addrCtrl 1, .write addrCtrl 1,
    .idle, .idle, .idle, .read addrY, .read addrY]

def driver (xs : List (BitVec 16)) : List SAxi := xs.flatMap turnInputs

def Ready (s : Top) : Prop := Waiting s ∧ s.wr.bValid = false ∧ s.rd.rValid = false

theorem bValid_of_taken {t : Nat} (h : writes (inp t) (topAt core y₀ inp t) = false)
    (hr : (inp t).bready = true) : (topAt core y₀ inp (t + 1)).wr.bValid = false := by
  rw [topAt_succ, edge_bValid, h, hr]; simp

theorem rValid_of_taken {t : Nat} (h : reads (inp t) (topAt core y₀ inp t) = false)
    (hr : (inp t).rready = true) : (topAt core y₀ inp (t + 1)).rd.rValid = false := by
  rw [topAt_succ, edge_rValid, h, hr]; simp

theorem Ready.turn_bus {n : Nat} {x : BitVec 16} (h : Ready (topAt core y₀ inp n))
    (hin : ∀ j, j < 9 → inp (n + j) = SAxi.play (turnInputs x) j) :
    (∀ j, j < 9 → writes (inp (n + j)) (topAt core y₀ inp (n + j)) = decide (j = 0 ∨ j = 2)) ∧
    reads (inp (n + 7)) (topAt core y₀ inp (n + 7)) = true ∧
    (topAt core y₀ inp (n + 9)).wr.bValid = false ∧
    (topAt core y₀ inp (n + 9)).rd.rValid = false := by
  obtain ⟨-, hb, hr⟩ := h
  have i0 := hin 0 (by omega); have i1 := hin 1 (by omega); have i2 := hin 2 (by omega)
  have i3 := hin 3 (by omega); have i4 := hin 4 (by omega); have i5 := hin 5 (by omega)
  have i6 := hin 6 (by omega); have i7 := hin 7 (by omega); have i8 := hin 8 (by omega)
  simp only [SAxi.play, turnInputs, List.getD_cons_zero, List.getD_cons_succ, Nat.add_zero] at *
  have w0 : writes (inp n) (topAt core y₀ inp n) = true := by
    simp [writes, i0, hb, SAxi.write]
  have w1 := writes_succ w0
  have b2 := bValid_of_taken w1 (by rw [i1]; rfl)
  have w2 : writes (inp (n + 2)) (topAt core y₀ inp (n + 2)) = true := by
    simp [writes, i2, b2, SAxi.write]
  have w3 := writes_succ w2
  have w4 : writes (inp (n + 4)) (topAt core y₀ inp (n + 4)) = false := by
    simp [writes, i4, SAxi.idle]
  have w5 : writes (inp (n + 5)) (topAt core y₀ inp (n + 5)) = false := by
    simp [writes, i5, SAxi.idle]
  have w6 : writes (inp (n + 6)) (topAt core y₀ inp (n + 6)) = false := by
    simp [writes, i6, SAxi.idle]
  have w7 : writes (inp (n + 7)) (topAt core y₀ inp (n + 7)) = false := by
    simp [writes, i7, SAxi.read, SAxi.idle]
  have w8 : writes (inp (n + 8)) (topAt core y₀ inp (n + 8)) = false := by
    simp [writes, i8, SAxi.read, SAxi.idle]
  have r6 : reads (inp (n + 6)) (topAt core y₀ inp (n + 6)) = false := by
    simp [reads, i6, SAxi.idle]
  have v7 := rValid_of_taken r6 (by rw [i6]; rfl)
  have r7 : reads (inp (n + 7)) (topAt core y₀ inp (n + 7)) = true := by
    simp [reads, i7, v7, SAxi.read]
  have v8 : (topAt core y₀ inp (n + 8)).rd.rValid = true := by
    rw [topAt_succ, edge_rValid, r7]; rfl
  have r8 : reads (inp (n + 8)) (topAt core y₀ inp (n + 8)) = false := by
    simp [reads, v8]
  refine ⟨fun j hj => ?_, r7, bValid_of_taken w8 (by rw [i8]; rfl),
    rValid_of_taken r8 (by rw [i8]; rfl)⟩
  rcases (by omega : j = 0 ∨ j = 1 ∨ j = 2 ∨ j = 3 ∨ j = 4 ∨ j = 5 ∨ j = 6 ∨ j = 7 ∨ j = 8) with
    rfl | rfl | rfl | rfl | rfl | rfl | rfl | rfl | rfl <;> simpa

theorem drives_driver (xs : List (BitVec 16)) : ∀ (l : List SAxi) (t : Nat), t ≤ l.length →
    (∀ u, t ≤ u → u < l.length → writes (SAxi.play (l ++ driver xs) u)
      (topAt core y₀ (SAxi.play (l ++ driver xs)) u) = false) →
    Ready (topAt core y₀ (SAxi.play (l ++ driver xs)) l.length) →
    ∃ ys, Drives core y₀ (SAxi.play (l ++ driver xs)) t xs ys := by
  induction xs with
  | nil => intro l t _ _ _; exact ⟨[], .nil t⟩
  | cons x xs ih =>
    intro l t ht hq hready
    have happ : l ++ driver (x :: xs) = (l ++ turnInputs x) ++ driver xs := by simp [driver]
    rw [happ] at hq hready ⊢
    generalize hinp : SAxi.play ((l ++ turnInputs x) ++ driver xs) = inp at hq hready ⊢
    generalize hn : l.length = n at ht hq hready
    have hin : ∀ j, j < 9 → inp (n + j) = SAxi.play (turnInputs x) j := by
      intro j hj
      rw [← hinp, ← hn, SAxi.play_append_of_lt _ (by simpa [turnInputs] using hj), SAxi.play_append]
    obtain ⟨hwr, hrd, hb9, hv9⟩ := hready.turn_bus hin
    have hnr : ∀ u, t ≤ u → u ≤ n + 8 → u ≠ n → u ≠ n + 2 →
        writes (inp u) (topAt core y₀ inp u) = false := by
      intro u h1 h2 h3 h4
      by_cases hu : u < n
      · exact hq u h1 hu
      · obtain ⟨j, rfl⟩ := Nat.exists_eq_add_of_le (show n ≤ u by omega)
        rw [hwr j (by omega)]
        simp; omega
    have hw0 : writes (inp n) (topAt core y₀ inp n) = true := by simpa using hwr 0 (by omega)
    have hw2 : writes (inp (n + 2)) (topAt core y₀ inp (n + 2)) = true := by
      simpa using hwr 2 (by omega)
    have hreq0 : (inp n).request = ⟨addrX, 0#16 ++ x, 0b1111⟩ := by
      rw [show n = n + 0 from rfl, hin 0 (by omega)]; rfl
    have hreq2 : (inp (n + 2)).request = ⟨addrCtrl, 1, 0b1111⟩ := by rw [hin 2 (by omega)]; rfl
    have hdone : (topAt core y₀ inp (n + 7)).fsm.done = true := by
      have hwait := (hready.1.stays (b := n + 2) (by omega) fun u h1 h2 => by
        by_cases hu : u = n
        · subst hu; exact not_startsAt_of_request hreq0
        · simp [startsAt, starts, hnr u (by omega) (by omega) hu (by omega)]).1
      exact done_iff.2 ⟨n + 4, rfl, (hwait.start (startsAt_of_request hw2 hreq2)).2.1⟩
    have hturn := hready.1.turn (t := n) (w := n) (c := n + 2) (d := n + 7) (r := n + 8) (x := x)
      (by omega) (by omega) (by omega) (by omega) hw0 hreq0 hw2 hreq2
      (fun u h1 h2 h3 h4 => hnr u (by omega) h2 h3 h4) hdone
    have hlen : (l ++ turnInputs x).length = n + 9 := by simp [turnInputs, hn]
    have hrest := ih (l ++ turnInputs x) (n + 8) (by omega)
    rw [hinp, hlen] at hrest
    obtain ⟨ys, hys⟩ := hrest (fun u h1 h2 => hnr u (by omega) (by omega) (by omega) (by omega))
      ⟨hturn.2.1, hb9, hv9⟩
    exact ⟨_, .cons ht (by omega) (by omega) (by omega) hw0 hreq0 hw2 hreq2
      (fun u h1 h2 h3 h4 => hnr u h1 (by omega) h3 h4) hdone hrd
      (by rw [hin 7 (by omega)]; rfl) rfl hys⟩

/-- **Every list of operands can be driven.** -/
theorem exists_drives (core : BitVec 16 → BitVec 16) (y₀ : BitVec 16) (xs : List (BitVec 16)) :
    ∃ ys, Drives core y₀ (SAxi.play (driver xs)) 0 xs ys :=
  drives_driver xs [] 0 (Nat.le_refl _) (fun u _ h => by simp at h) ⟨⟨rfl, rfl⟩, rfl, rfl⟩

end

/-! ## The Azevedo wrapper -/

/-- **When the results are right.** In a run from reset every finished computation has the
sigmoid of its own operand in `y_reg` exactly when every load copies an operand with the sigmoid
of the one before it (of 0, for the first). A driven run returns the sigmoids of its operands
under the same condition. -/
theorem result_iff (y₀ : BitVec 16) (inp : Nat → SAxi) :
    ((∀ t, (topAt sigmoid y₀ inp t).fsm.done = true → ∃ l, LoadOf sigmoid y₀ inp l t ∧
        (topAt sigmoid y₀ inp t).fsm.yReg = sigmoid (topAt sigmoid y₀ inp l).wr.xReg) ↔
      ∀ l, (topAt sigmoid y₀ inp l).fsm.state = .load →
        sigmoid (topAt sigmoid y₀ inp l).wr.xReg = sigmoid (topAt sigmoid y₀ inp l).fsm.sigmoidX) ∧
    ∀ xs ys, Drives sigmoid y₀ inp 0 xs ys →
      (ys = xs.map sigmoid ↔ (0 :: xs).IsChain fun p x => sigmoid x = sigmoid p) := by
  refine ⟨done_result_iff sigmoid y₀ inp, fun xs ys h => ?_⟩
  rw [drives_results h ⟨rfl, rfl⟩]
  exact Late.results_eq_map_iff sigmoid xs _

/-- The operands 67 to 69 have the sigmoid of 0, so they come out right in any order. -/
theorem result_iff_plateau :
    ∃ ys, Drives sigmoid 0 (SAxi.play (driver [67, 69, 68])) 0 [67, 69, 68] ys ∧
      ys = [67, 69, 68].map sigmoid := by
  obtain ⟨ys, h⟩ := exists_drives sigmoid 0 [67, 69, 68]
  exact ⟨ys, h, ((result_iff 0 _).2 [67, 69, 68] ys h).2 (by decide)⟩

/-- Driving the operand 1.0 returns the sigmoid of 0. -/
theorem result_of_one :
    (¬ ∀ t, (topAt sigmoid 0 (SAxi.play (driver [4096])) t).fsm.done = true →
      ∃ l, LoadOf sigmoid 0 (SAxi.play (driver [4096])) l t ∧
        (topAt sigmoid 0 (SAxi.play (driver [4096])) t).fsm.yReg =
          sigmoid (topAt sigmoid 0 (SAxi.play (driver [4096])) l).wr.xReg) ∧
    ∃ ys, Drives sigmoid 0 (SAxi.play (driver [4096])) 0 [4096] ys ∧ ys = [sigmoid 0] ∧
      ys ≠ [4096].map sigmoid := by
  constructor
  · rw [done_result_iff]
    intro h
    exact absurd (h 4 (by decide +kernel)) (by decide +kernel)
  · obtain ⟨ys, h⟩ := exists_drives sigmoid 0 [4096]
    have hys : ys = [sigmoid 0] := drives_results h ⟨rfl, rfl⟩
    exact ⟨ys, h, hys, by rw [hys]; decide⟩

end CimSigmoid.Sigmoid
