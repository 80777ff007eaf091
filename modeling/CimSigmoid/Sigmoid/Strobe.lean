import CimSigmoid.Sigmoid.Compute

/-!
# Write strobes

On an AXI4-Lite port a write replaces the bytes its strobes select and no others;
`mergeX` is that for the two bytes of `x_reg`, and `laneFold` for a list of writes
from reset. The wrapper's `case` looks at `wstrb[0]` only, takes both bytes of X with
it, and looks at no strobe for CTRL. `strobes_iff` is what must hold of the writes
for `x_reg` to be the fold all along, and for no computation to be started by a write
that does not select the byte of the start bit.
-/

namespace CimSigmoid.Sigmoid

open Clocked

/-! ## Byte lanes -/

section

variable {w : Nat} (x : BitVec w)

def lowByte : BitVec 8 := x.extractLsb' 0 8

def highByte : BitVec 8 := x.extractLsb' 8 8

end

/-- The bytes of `w` that its strobes select, the others from `x`. -/
def mergeX (w : Write) (x : BitVec 16) : BitVec 16 :=
  (if w.strb.getLsbD 1 then highByte w.data else highByte x) ++
    if w.strb.getLsbD 0 then lowByte w.data else lowByte x

/-- The writes to X among `ws`, lane by lane, over the reset value. -/
def laneFold (ws : List Write) : BitVec 16 :=
  ws.foldl (fun x w => if w.addr = addrX then mergeX w x else x) 0

theorem laneFold_concat (ws : List Write) (w : Write) :
    laneFold (ws ++ [w]) = if w.addr = addrX then mergeX w (laneFold ws) else laneFold ws := by
  rw [laneFold, List.foldl_append]
  rfl

theorem bytes_ext {x y : BitVec 16} : x = y ↔ highByte x = highByte y ∧ lowByte x = lowByte y := by
  refine ⟨fun h => h ▸ ⟨rfl, rfl⟩, fun ⟨hh, hl⟩ => BitVec.eq_of_getLsbD_eq fun i hi => ?_⟩
  by_cases h8 : i < 8
  · have h := congrArg (·.getLsbD i) hl
    simpa [lowByte, h8] using h
  · have h := congrArg (·.getLsbD (i - 8)) hh
    have e : 8 + (i - 8) = i := by omega
    have hlt : i - 8 < 8 := by omega
    simpa [highByte, hlt, e] using h

@[simp] theorem highByte_append (h l : BitVec 8) : highByte (h ++ l) = h := by
  refine BitVec.eq_of_getLsbD_eq fun i hi => ?_
  rw [highByte, BitVec.getLsbD_extractLsb', BitVec.getLsbD_append]
  simp [hi]

@[simp] theorem lowByte_append (h l : BitVec 8) : lowByte (h ++ l) = l := by
  refine BitVec.eq_of_getLsbD_eq fun i hi => ?_
  rw [lowByte, BitVec.getLsbD_extractLsb', BitVec.getLsbD_append]
  simp [hi]

theorem highByte_extractLsb (d : BitVec 32) : highByte (d.extractLsb 15 0) = highByte d := by
  refine BitVec.eq_of_getLsbD_eq fun i hi => ?_
  have : 8 + i < 16 := by omega
  simp [highByte, hi, this]

theorem lowByte_extractLsb (d : BitVec 32) : lowByte (d.extractLsb 15 0) = lowByte d := by
  refine BitVec.eq_of_getLsbD_eq fun i hi => ?_
  have : i < 16 := by omega
  simp [lowByte, hi, this]

/-! ## One write -/

/-- The strobes of both bytes agree, or the upper byte is written as it is. -/
def LanesAgree (w : Write) (x : BitVec 16) : Prop :=
  w.strb.getLsbD 0 = w.strb.getLsbD 1 ∨ highByte w.data = highByte x

theorem xWrite_eq_mergeX_iff (w : Write) (x : BitVec 16) :
    (if w.strb.getLsbD 0 then w.data.extractLsb 15 0 else x) = mergeX w x ↔ LanesAgree w x := by
  rw [bytes_ext, mergeX, LanesAgree, highByte_append, lowByte_append]
  cases w.strb.getLsbD 0 <;> cases w.strb.getLsbD 1 <;>
    simp [highByte_extractLsb, lowByte_extractLsb, eq_comm]

section

variable {core : BitVec 16 → BitVec 16} {y₀ : BitVec 16} {inp : Nat → SAxi}

theorem applied_succ_of_writes {t : Nat} (h : writes (inp t) (topAt core y₀ inp t) = true) :
    applied core y₀ inp (t + 1) = applied core y₀ inp t ++ [(inp t).request] := by
  rw [applied_succ, if_pos h]

theorem applied_succ_of_not_writes {t : Nat}
    (h : writes (inp t) (topAt core y₀ inp t) = false) :
    applied core y₀ inp (t + 1) = applied core y₀ inp t := by
  rw [applied_succ, h, if_neg Bool.false_ne_true, List.append_nil]

theorem xReg_succ_of_writes {t : Nat} (h : writes (inp t) (topAt core y₀ inp t) = true) :
    (topAt core y₀ inp (t + 1)).wr.xReg =
      if (inp t).awaddr = addrX then
        if (inp t).wstrb.getLsbD 0 then (inp t).wdata.extractLsb 15 0
        else (topAt core y₀ inp t).wr.xReg
      else (topAt core y₀ inp t).wr.xReg := by
  rw [topAt_succ, edge_xReg, h]
  by_cases ha : (inp t).awaddr = addrX <;> simp [ha]

/-! ## Runs -/

def XLanesAgree (core : BitVec 16 → BitVec 16) (y₀ : BitVec 16) (inp : Nat → SAxi) : Prop :=
  ∀ t, writes (inp t) (topAt core y₀ inp t) = true → (inp t).awaddr = addrX →
    LanesAgree (inp t).request (topAt core y₀ inp t).wr.xReg

/-- `x_reg` is the fold of the writes all along exactly when all of them agree on their lanes. -/
theorem xReg_laneFold_iff :
    (∀ t, (topAt core y₀ inp t).wr.xReg = laneFold (applied core y₀ inp t)) ↔
      XLanesAgree core y₀ inp := by
  constructor
  · intro h t hw ha
    have hreq : (inp t).request.addr = addrX := ha
    have hs := h (t + 1)
    rw [xReg_succ_of_writes hw, applied_succ_of_writes hw, laneFold_concat, ← h t, if_pos ha,
      if_pos hreq] at hs
    exact (xWrite_eq_mergeX_iff _ _).1 hs
  · intro h t
    induction t with
    | zero => rfl
    | succ t ih =>
      cases hw : writes (inp t) (topAt core y₀ inp t) with
      | false => rw [xReg_succ_of_not_writes hw, applied_succ_of_not_writes hw, ih]
      | true =>
        rw [xReg_succ_of_writes hw, applied_succ_of_writes hw, laneFold_concat, ← ih]
        by_cases ha : (inp t).request.addr = addrX
        · rw [if_pos ha, if_pos (show (inp t).awaddr = addrX from ha)]
          exact (xWrite_eq_mergeX_iff _ _).2 (h t hw ha)
        · rw [if_neg ha, if_neg (show (inp t).awaddr ≠ addrX from ha)]

/-- The CTRL write acted on at edge `t` starts a computation: the FSM leaves `S_IDLE` for it. -/
def Launches (core : BitVec 16 → BitVec 16) (y₀ : BitVec 16) (inp : Nat → SAxi) (t : Nat) : Prop :=
  writes (inp t) (topAt core y₀ inp t) = true ∧ (inp t).awaddr = addrCtrl ∧
    LeavesIdle core y₀ inp (t + 1)

/-- The FSM can take a start that is written now: it ends a computation, or idles with no start
pending. -/
def Top.Free (s : Top) : Prop :=
  s.fsm.state = .store ∨ s.fsm.state = .idle ∧ s.wr.startReg = false

theorem idle_succ_iff (t : Nat) :
    (topAt core y₀ inp (t + 1)).fsm.state = .idle ↔ (topAt core y₀ inp t).Free := by
  rw [state_succ, (topAt_ok t).busy, Top.Free]
  cases hs : (topAt core y₀ inp t).fsm.state <;>
    cases (topAt core y₀ inp t).wr.startReg <;> simp [Phase.next]

theorem launches_iff (t : Nat) : Launches core y₀ inp t ↔
    writes (inp t) (topAt core y₀ inp t) = true ∧ (inp t).awaddr = addrCtrl ∧
      (inp t).wdata.getLsbD 0 = true ∧ (topAt core y₀ inp t).Free := by
  rw [Launches, leavesIdle_iff, idle_succ_iff, startReg_succ, startsAt, starts]
  refine and_congr_right fun hw => and_congr_right fun ha => ?_
  simp [hw, ha, and_comm]

/-- **Strobes.** Along every run from reset, `x_reg` is the byte-lane fold of the writes acted on
and every computation is started by a CTRL write with `wstrb[0]`, exactly when every write to X
agrees on its lanes and every CTRL write with the start bit that finds the FSM free has
`wstrb[0]`. -/
theorem strobes_iff (core : BitVec 16 → BitVec 16) (y₀ : BitVec 16) (inp : Nat → SAxi) :
    ((∀ t, (topAt core y₀ inp t).wr.xReg = laneFold (applied core y₀ inp t)) ∧
      ∀ t, Launches core y₀ inp t → (inp t).wstrb.getLsbD 0 = true) ↔
    ∀ t, writes (inp t) (topAt core y₀ inp t) = true →
      ((inp t).awaddr = addrX → LanesAgree (inp t).request (topAt core y₀ inp t).wr.xReg) ∧
      ((inp t).awaddr = addrCtrl → (inp t).wdata.getLsbD 0 = true →
        (topAt core y₀ inp t).Free → (inp t).wstrb.getLsbD 0 = true) := by
  rw [xReg_laneFold_iff]
  constructor
  · rintro ⟨hx, hc⟩ t hw
    exact ⟨hx t hw, fun ha hd hf => hc t ((launches_iff t).2 ⟨hw, ha, hd, hf⟩)⟩
  · intro h
    refine ⟨fun t hw => (h t hw).1, fun t hl => ?_⟩
    obtain ⟨hw, ha, hd, hf⟩ := (launches_iff t).1 hl
    exact (h t hw).2 ha hd hf

/-- A write of `0x1234` to X that selects its low byte takes both bytes, and a CTRL write that
selects no byte starts a computation. -/
theorem strobes_ignored :
    let inp := SAxi.play [{ SAxi.write addrX 0x1234 with wstrb := 0b0001 }, SAxi.idle,
      { SAxi.write addrCtrl 1 with wstrb := 0b0000 }]
    (topAt sigmoid 0 inp 1).wr.xReg = 0x1234 ∧ laneFold (applied sigmoid 0 inp 1) = 0x0034 ∧
      Launches sigmoid 0 inp 2 ∧ (inp 2).wstrb = 0 := by
  refine ⟨by decide, by decide, ⟨by decide, by decide, by decide, by decide⟩, by decide⟩

end

end CimSigmoid.Sigmoid
