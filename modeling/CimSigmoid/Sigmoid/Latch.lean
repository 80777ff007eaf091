import CimSigmoid.Sigmoid.Result

/-!
# Two readings of the Vaisnav core

The process of `fast_Vaisnav16/sigmoid.vhdl` is sensitive to `ck` and tests
`ck = '1'` without asking for an edge. A simulator runs its body at the clock's
events (`eventCycle`): at the rising edge, with the `x` from before it, and at
the falling edge. The level test describes a latch (`levelCycle`): `y` follows
`x` while the clock is high, so also after the wrapper has changed
`sigmoid_x`.

The event reading is the wrapper `topAt sigmoide` (`cycle_event`). The wrapper's
FSM does not look at `y`, so the two readings run through the same states
(`sameControl`) and differ in what `S_WAIT` copies: the value at the operand
before, and the value at the operand just loaded.
-/

namespace CimSigmoid.Sigmoid

open Clocked

/-- The body of the process `calcula_saida`, run with the clock at `ck`. -/
def calculaSaida (ck : Bool) (x y : BitVec 16) : BitVec 16 := if ck then sigmoide x else y

/-- One clock cycle of the process under the event reading: `x` before the rising edge and `x'`
from just after it on. -/
def eventCycle (x x' y : BitVec 16) : BitVec 16 := calculaSaida false x' (calculaSaida true x y)

/-- One clock cycle of the process under the level reading: the body also follows the change
from `x` to `x'` while the clock is high. -/
def levelCycle (x x' y : BitVec 16) : BitVec 16 :=
  calculaSaida false x' (calculaSaida true x' (calculaSaida true x y))

def cycle (out : BitVec 16 → BitVec 16 → BitVec 16 → BitVec 16) (rstN : Bool) (i : SAxi) (s : Top) :
    Top where
  wr := writeChannel rstN i s.wr
  rd := readChannel rstN i s
  fsm := processingFsm rstN s
  sigmoidY := out s.fsm.sigmoidX (processingFsm rstN s).sigmoidX s.sigmoidY

theorem eventCycle_eq (x x' y : BitVec 16) : eventCycle x x' y = sigmoide x := by
  simp [eventCycle, calculaSaida]

theorem levelCycle_eq (x x' y : BitVec 16) : levelCycle x x' y = sigmoide x' := by
  simp [levelCycle, calculaSaida]

theorem cycle_event : cycle eventCycle = edge sigmoide := by
  funext rstN i s
  rw [cycle, edge, eventCycle_eq]

def readAt (out : BitVec 16 → BitVec 16 → BitVec 16 → BitVec 16) (y₀ : BitVec 16)
    (inp : Nat → SAxi) (t : Nat) : Top :=
  stateAt (cycle out true) (Top.reset y₀) inp t

theorem readAt_event (y₀ : BitVec 16) (inp : Nat → SAxi) (t : Nat) :
    readAt eventCycle y₀ inp t = topAt sigmoide y₀ inp t := by
  rw [readAt, topAt, cycle_event]

/-- Two wrappers that differ in the core's output, `y_reg` and the read channel at most. -/
structure SameControl (s s' : Top) : Prop where
  wr : s.wr = s'.wr
  state : s.fsm.state = s'.fsm.state
  busy : s.fsm.busy = s'.fsm.busy
  done : s.fsm.done = s'.fsm.done
  sigmoidX : s.fsm.sigmoidX = s'.fsm.sigmoidX

theorem SameControl.cycle {out out' : BitVec 16 → BitVec 16 → BitVec 16 → BitVec 16} {s s' : Top}
    (h : SameControl s s') (i : SAxi) :
    SameControl (cycle out true i s) (cycle out' true i s') := by
  obtain ⟨hw, hs, hb, hd, hx⟩ := h
  cases hp : s'.fsm.state with
  | idle =>
    cases hg : s'.wr.startReg && !s'.fsm.busy <;> constructor <;>
      simp [Sigmoid.cycle, processingFsm, hw, hs, hb, hx, hp, hg]
  | load | wait | store =>
    constructor <;> simp [Sigmoid.cycle, processingFsm, hw, hs, hb, hd, hx, hp]

theorem sameControl (out out' : BitVec 16 → BitVec 16 → BitVec 16 → BitVec 16) (y₀ y₁ : BitVec 16)
    (inp : Nat → SAxi) (t : Nat) : SameControl (readAt out y₀ inp t) (readAt out' y₁ inp t) := by
  induction t with
  | zero => exact ⟨rfl, rfl, rfl, rfl, rfl⟩
  | succ t ih => exact ih.cycle (inp t)

section

variable {y₀ y₁ : BitVec 16} {inp : Nat → SAxi}

theorem readAt_yReg_wait {out : BitVec 16 → BitVec 16 → BitVec 16 → BitVec 16} {t : Nat}
    (h : (readAt out y₀ inp t).fsm.state = .wait) :
    (readAt out y₀ inp (t + 1)).fsm.yReg = (readAt out y₀ inp t).sigmoidY := by
  change (processingFsm true (readAt out y₀ inp t)).yReg = _
  simp [processingFsm, h]

theorem readAt_yReg_not_wait {out : BitVec 16 → BitVec 16 → BitVec 16 → BitVec 16} {t : Nat}
    (h : (readAt out y₀ inp t).fsm.state ≠ .wait) :
    (readAt out y₀ inp (t + 1)).fsm.yReg = (readAt out y₀ inp t).fsm.yReg := by
  change (processingFsm true (readAt out y₀ inp t)).yReg = _
  unfold processingFsm
  cases hs : (readAt out y₀ inp t).fsm.state with
  | idle => simp only [Bool.not_true, Bool.false_eq_true, if_false]; split <;> rfl
  | load => rfl
  | wait => exact absurd hs h
  | store => rfl

/-- A latch that was open since `sigmoid_x` last changed has the value at `sigmoid_x`. -/
theorem level_sigmoidY (t : Nat) : (readAt levelCycle y₀ inp (t + 1)).sigmoidY =
    sigmoide (readAt levelCycle y₀ inp (t + 1)).fsm.sigmoidX :=
  levelCycle_eq (readAt levelCycle y₀ inp t).fsm.sigmoidX _ (readAt levelCycle y₀ inp t).sigmoidY

theorem yReg_readings (y₁ : BitVec 16) {l : Nat} (h : (topAt sigmoide y₀ inp l).fsm.state = .load) :
    (readAt eventCycle y₀ inp (l + 2)).fsm.yReg = sigmoide (topAt sigmoide y₀ inp l).fsm.sigmoidX ∧
    (readAt levelCycle y₁ inp (l + 2)).fsm.yReg = sigmoide (topAt sigmoide y₀ inp l).wr.xReg := by
  have hw : (topAt sigmoide y₀ inp (l + 1)).fsm.state = .wait := (load_done h).1
  have hc := sameControl levelCycle eventCycle y₁ y₀ inp (l + 1)
  rw [readAt_event] at hc
  constructor
  · rw [readAt_event, yReg_wait hw, sigmoidY_succ]
  · rw [readAt_yReg_wait (hc.state.trans hw), level_sigmoidY, hc.sigmoidX, sigmoidX_load h]

/-- **When simulation and hardware agree.** The two readings give the same sequence of `y_reg`
values exactly when every load copies an operand with the value of the one before it. -/
theorem readings_agree_iff (y₀ y₁ : BitVec 16) (inp : Nat → SAxi) :
    (∀ t, (readAt eventCycle y₀ inp t).fsm.yReg = (readAt levelCycle y₁ inp t).fsm.yReg) ↔
    ∀ l, (readAt eventCycle y₀ inp l).fsm.state = .load →
      sigmoide (readAt eventCycle y₀ inp l).wr.xReg =
        sigmoide (readAt eventCycle y₀ inp l).fsm.sigmoidX := by
  constructor
  · intro h l hl
    have he := h (l + 2)
    rw [readAt_event] at hl ⊢
    obtain ⟨hevent, hlevel⟩ := yReg_readings y₁ hl
    rw [hevent, hlevel] at he
    exact he.symm
  · intro h t
    induction t with
    | zero => rfl
    | succ t ih =>
      have hc := sameControl levelCycle eventCycle y₁ y₀ inp t
      by_cases hw : (readAt eventCycle y₀ inp t).fsm.state = .wait
      · rw [readAt_event] at hw
        obtain ⟨l, rfl⟩ := pos_of_state (t := t) (by rw [hw]; simp)
        have hl := load_of_wait hw
        obtain ⟨hevent, hlevel⟩ := yReg_readings y₁ hl
        have hx := h l (by rw [readAt_event, hl])
        rw [readAt_event] at hx
        rw [hevent, hlevel, hx]
      · rw [readAt_yReg_not_wait hw, readAt_yReg_not_wait (hc.state.symm ▸ hw), ih]

/-- One computation on 1.0: simulation stores the value at 0, hardware the value at 1.0. -/
theorem readings_differ_one :
    (readAt eventCycle 0 (SAxi.play (driver [4096])) 6).fsm.yReg = 2048 ∧
    (readAt levelCycle 0 (SAxi.play (driver [4096])) 6).fsm.yReg = 3072 ∧
    ¬ ∀ t, (readAt eventCycle 0 (SAxi.play (driver [4096])) t).fsm.yReg =
      (readAt levelCycle 0 (SAxi.play (driver [4096])) t).fsm.yReg :=
  ⟨by decide +kernel, by decide +kernel, fun h => absurd (h 6) (by decide +kernel)⟩

end

end CimSigmoid.Sigmoid
