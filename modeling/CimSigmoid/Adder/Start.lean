import CimSigmoid.Adder.Top

/-!
# Starting the adder

A write to CTRL sets or clears `reg_ctrl_start`, and nothing else changes it:
the FSM does not consume the flag. So a single start write keeps the FSM
going round, once every three edges, and every round stores the sum of
whatever operands are there then.

`start_iff` is the exact condition under which a start write causes one pass
and its result stays: the flag must survive to the first edge that finds the
FSM in `STATE_IDLE`, be written again during the pass, and the operands must
not change between the edge that leaves `STATE_IDLE` and the one that adds.
-/

namespace CimSigmoid.Adder

open Clocked

section

variable (m n : Nat) (inp : Nat → SAxi)

def ctrlWrite (t : Nat) : Bool := executesAt ctrlReg (inp t) (topAt m n inp t)

def startWrite (t : Nat) : Bool := ctrlWrite m n inp t && (inp t).wdata.getLsbD 0

/-- The FSM begins a pass from `STATE_IDLE` through `STATE_CALC` to `STATE_DONE` at edge `p`. -/
def Pass (p : Nat) : Prop :=
  (topAt m n inp p).fsm.state = .stateIdle ∧ (topAt m n inp (p + 1)).fsm.state = .stateCalc ∧
    (topAt m n inp (p + 2)).fsm.state = .stateDone

/-- The pass at edge `p` is one that the start write at edge `t` causes: no other start write
stands between them. -/
def Causes (t p : Nat) : Prop :=
  t < p ∧ Pass m n inp p ∧ ∀ u, t < u → u < p → startWrite m n inp u = false

/-- The start write at edge `t` causes exactly one pass, and from then to the next start write
`reg_sum` is the truncated sum of the operands held when that pass began. -/
def StartsOnce (t : Nat) : Prop :=
  ∃ p, (Causes m n inp t p ∧ ∀ p', Causes m n inp t p' → p' = p) ∧
    ∀ k, p + 2 ≤ k → (∀ u, t < u → u < k → startWrite m n inp u = false) →
      (topAt m n inp k).fsm.regSum = wireSum n (topAt m n inp p)

def State.toIdle : State → Nat
  | .stateIdle => 0
  | .stateCalc => 2
  | .stateDone => 1
  | .other => 1

def firstIdle (t : Nat) : Nat := t + 1 + (topAt m n inp (t + 1)).fsm.state.toIdle

/-- The start write at edge `t` is left alone until the FSM is idle, CTRL is written again during
the pass, and the operands stay until they are added (or another start write makes the result its
own). -/
def Fits (t : Nat) : Prop :=
  (∀ u, t < u → u < firstIdle m n inp t → ctrlWrite m n inp u = false) ∧
  (∃ u, firstIdle m n inp t ≤ u ∧ u ≤ firstIdle m n inp t + 2 ∧ ctrlWrite m n inp u = true) ∧
  ((∃ u, firstIdle m n inp t ≤ u ∧ u ≤ firstIdle m n inp t + 1 ∧ startWrite m n inp u = true) ∨
    wireSum n (topAt m n inp (firstIdle m n inp t + 1)) =
      wireSum n (topAt m n inp (firstIdle m n inp t)))

end

section

variable {m n : Nat} {inp : Nat → SAxi}

/-! ## The flag -/

theorem flag_succ (t : Nat) : (topAt m n inp (t + 1)).wr.regCtrlStart =
    if ctrlWrite m n inp t then (inp t).wdata.getLsbD 0 else (topAt m n inp t).wr.regCtrlStart := by
  rw [topAt_succ, edge_regCtrlStart]; rfl

theorem flag_of_startWrite {t : Nat} (h : startWrite m n inp t = true) :
    (topAt m n inp (t + 1)).wr.regCtrlStart = true := by
  rw [startWrite, Bool.and_eq_true] at h
  rw [flag_succ, if_pos h.1, h.2]

theorem flag_of_clear {t : Nat} (hc : ctrlWrite m n inp t = true)
    (hs : startWrite m n inp t = false) : (topAt m n inp (t + 1)).wr.regCtrlStart = false := by
  rw [startWrite, hc, Bool.true_and] at hs
  rw [flag_succ, if_pos hc, hs]

theorem flag_keeps {a b : Nat} (hab : a ≤ b)
    (h : ∀ u, a ≤ u → u < b → ctrlWrite m n inp u = false) :
    (topAt m n inp b).wr.regCtrlStart = (topAt m n inp a).wr.regCtrlStart :=
  const_between (r := fun u => (topAt m n inp u).wr.regCtrlStart) hab fun u h1 h2 => by
    rw [flag_succ, h u h1 h2]; rfl

theorem flag_stays_clear {a b : Nat} (hab : a ≤ b)
    (ha : (topAt m n inp a).wr.regCtrlStart = false)
    (h : ∀ u, a ≤ u → u < b → startWrite m n inp u = false) :
    (topAt m n inp b).wr.regCtrlStart = false := by
  induction b, hab using Nat.le_induction with
  | base => exact ha
  | succ b hb ih =>
    have hb' := h b hb (by omega)
    by_cases hc : ctrlWrite m n inp b = true
    · exact flag_of_clear hc hb'
    · rw [flag_succ, if_neg hc]
      exact ih fun u h1 h2 => h u h1 (by omega)

/-- After a CTRL write that clears the flag it stays clear, without start writes. -/
theorem flag_clear_after {u b : Nat} (hub : u < b) (hc : ctrlWrite m n inp u = true)
    (h : ∀ v, u ≤ v → v < b → startWrite m n inp v = false) :
    (topAt m n inp b).wr.regCtrlStart = false :=
  flag_stays_clear hub (flag_of_clear hc (h u (Nat.le_refl u) hub)) fun v h1 h2 =>
    h v (by omega) h2

/-! ## Passes -/

theorem state_succ (t : Nat) : (topAt m n inp (t + 1)).fsm.state =
    (topAt m n inp t).fsm.state.next (topAt m n inp t).wr.regCtrlStart := by
  rw [topAt_succ, edge_state]

theorem regSum_succ (t : Nat) : (topAt m n inp (t + 1)).fsm.regSum =
    if (topAt m n inp t).fsm.state = .stateCalc then wireSum n (topAt m n inp t)
    else (topAt m n inp t).fsm.regSum := by
  rw [topAt_succ, edge_regSum]

theorem pass_iff {p : Nat} : Pass m n inp p ↔
    (topAt m n inp p).fsm.state = .stateIdle ∧ (topAt m n inp p).wr.regCtrlStart = true := by
  unfold Pass
  rw [state_succ (p + 1), state_succ p]
  cases (topAt m n inp p).fsm.state <;> cases (topAt m n inp p).wr.regCtrlStart <;>
    simp [State.next]

theorem Pass.idle_again {p : Nat} (h : Pass m n inp p) :
    (topAt m n inp (p + 3)).fsm.state = .stateIdle := by
  rw [state_succ, h.2.2]; rfl

theorem Pass.regSum {p : Nat} (h : Pass m n inp p) :
    (topAt m n inp (p + 2)).fsm.regSum = wireSum n (topAt m n inp (p + 1)) := by
  rw [regSum_succ, if_pos h.2.1]

/-- Passes do not overlap. -/
theorem Pass.le_of_idle {p q : Nat} (h : Pass m n inp p) (hpq : p < q)
    (hq : (topAt m n inp q).fsm.state = .stateIdle) : p + 3 ≤ q := by
  rcases (by omega : q = p + 1 ∨ q = p + 2 ∨ p + 3 ≤ q) with rfl | rfl | h3
  · rw [h.2.1] at hq; cases hq
  · rw [h.2.2] at hq; cases hq
  · exact h3

theorem firstIdle_idle (t : Nat) : (topAt m n inp (firstIdle m n inp t)).fsm.state = .stateIdle := by
  unfold firstIdle
  cases h : (topAt m n inp (t + 1)).fsm.state with
  | stateIdle => exact h
  | stateCalc =>
    have h2 : (topAt m n inp (t + 2)).fsm.state = .stateDone := by rw [state_succ, h]; rfl
    rw [State.toIdle, state_succ, h2]; rfl
  | stateDone | other => rw [State.toIdle, state_succ, h]; rfl

theorem firstIdle_le {t q : Nat} (htq : t < q) (hq : (topAt m n inp q).fsm.state = .stateIdle) :
    firstIdle m n inp t ≤ q := by
  rw [firstIdle]
  cases h : (topAt m n inp (t + 1)).fsm.state with
  | stateIdle => rw [State.toIdle]; omega
  | stateCalc =>
    have h2 : (topAt m n inp (t + 2)).fsm.state = .stateDone := by rw [state_succ, h]; rfl
    rw [State.toIdle]
    rcases (by omega : q = t + 1 ∨ q = t + 2 ∨ t + 3 ≤ q) with rfl | rfl | h3
    · rw [h] at hq; cases hq
    · rw [h2] at hq; cases hq
    · exact h3
  | stateDone | other =>
    rw [State.toIdle]
    rcases (by omega : q = t + 1 ∨ t + 2 ≤ q) with rfl | h2
    · rw [h] at hq; cases hq
    · exact h2

/-- Without start writes an idle FSM whose flag is clear stands still. -/
theorem idle_stays {a b : Nat} (hab : a ≤ b) (hs : (topAt m n inp a).fsm.state = .stateIdle)
    (ha : (topAt m n inp a).wr.regCtrlStart = false)
    (h : ∀ u, a ≤ u → u < b → startWrite m n inp u = false) :
    (topAt m n inp b).fsm.state = .stateIdle ∧
    (topAt m n inp b).fsm.regSum = (topAt m n inp a).fsm.regSum := by
  induction b, hab using Nat.le_induction with
  | base => exact ⟨hs, rfl⟩
  | succ b hb ih =>
    obtain ⟨hsb, hrb⟩ := ih fun u h1 h2 => h u h1 (by omega)
    have hfb := flag_stays_clear hb ha fun u h1 h2 => h u h1 (by omega)
    rw [state_succ, regSum_succ, hsb, hfb]
    exact ⟨rfl, hrb⟩

/-! ## What a start write causes -/

theorem firstIdle_gt (t : Nat) : t < firstIdle m n inp t := by unfold firstIdle; omega

theorem Causes.firstIdle_le {t p : Nat} (h : Causes m n inp t p) : firstIdle m n inp t ≤ p :=
  Adder.firstIdle_le h.1 h.2.1.1

/-- A CTRL write between the start write and the pass has to set the flag, and would then be what
causes the pass. -/
theorem Causes.not_ctrlWrite {t p u : Nat} (h : Causes m n inp t p) (htu : t < u) (hup : u < p) :
    ctrlWrite m n inp u = false := by
  obtain ⟨-, hp, hns⟩ := h
  rw [← Bool.not_eq_true]
  intro hc
  have hf := flag_clear_after hup hc fun v h1 h2 => hns v (by omega) h2
  rw [(pass_iff.1 hp).2] at hf
  cases hf

theorem not_startWrite {u : Nat} (h : ctrlWrite m n inp u = false) :
    startWrite m n inp u = false := by rw [startWrite, h]; rfl

/-- A start write that is left alone until the FSM is idle causes a pass there. -/
theorem causes_firstIdle {t : Nat} (ht : startWrite m n inp t = true)
    (h : ∀ u, t < u → u < firstIdle m n inp t → ctrlWrite m n inp u = false) :
    Causes m n inp t (firstIdle m n inp t) := by
  refine ⟨firstIdle_gt t, pass_iff.2 ⟨firstIdle_idle t, ?_⟩,
    fun u h1 h2 => not_startWrite (h u h1 h2)⟩
  rw [flag_keeps (firstIdle_gt t) fun u h1 h2 => h u h1 h2]
  exact flag_of_startWrite ht

/-- Without a CTRL write during the pass the flag starts another one. -/
theorem Causes.again {t p : Nat} (h : Causes m n inp t p)
    (hq : ∀ u, p ≤ u → u ≤ p + 2 → ctrlWrite m n inp u = false) : Causes m n inp t (p + 3) := by
  obtain ⟨htp, hp, hns⟩ := h
  refine ⟨by omega, pass_iff.2 ⟨hp.idle_again, ?_⟩, fun u h1 h2 => ?_⟩
  · rw [flag_keeps (a := p) (by omega) fun u h1 h2 => hq u h1 (by omega)]
    exact (pass_iff.1 hp).2
  · by_cases hup : u < p
    · exact hns u h1 hup
    · exact not_startWrite (hq u (by omega) (by omega))

theorem Causes.quiet {t p q u : Nat} (h : Causes m n inp t p) (hq : Causes m n inp t q)
    (hpq : p < q) (hpu : p ≤ u) (hup : u ≤ p + 2) : ctrlWrite m n inp u = false :=
  hq.not_ctrlWrite (by have := h.1; omega) (by have := h.2.1.le_of_idle hpq hq.2.1.1; omega)

theorem fits_of_startsOnce {t : Nat} (ht : startWrite m n inp t = true)
    (h : StartsOnce m n inp t) : Fits m n inp t := by
  obtain ⟨p, ⟨hp, hu⟩, hsum⟩ := h
  have hno : ∀ u, t < u → u < firstIdle m n inp t → ctrlWrite m n inp u = false :=
    fun u h1 h2 => hp.not_ctrlWrite h1 (by have := hp.firstIdle_le; omega)
  obtain rfl := hu _ (causes_firstIdle ht hno)
  refine ⟨hno, ?_, ?_⟩
  · by_contra hc
    simp only [not_exists, not_and, Bool.not_eq_true] at hc
    have h3 := hu _ (hp.again hc)
    omega
  · by_cases hs : ∃ u, firstIdle m n inp t ≤ u ∧ u ≤ firstIdle m n inp t + 1 ∧
        startWrite m n inp u = true
    · exact .inl hs
    · simp only [not_exists, not_and, Bool.not_eq_true] at hs
      refine .inr ?_
      rw [← hp.2.1.regSum]
      refine hsum _ (Nat.le_refl _) fun u h1 h2 => ?_
      by_cases hup : u < firstIdle m n inp t
      · exact hp.2.2 u h1 hup
      · exact hs u (by omega) (by omega)

theorem startsOnce_of_fits {t : Nat} (ht : startWrite m n inp t = true)
    (h : Fits m n inp t) : StartsOnce m n inp t := by
  obtain ⟨hno, ⟨u, hpu, hup, hu⟩, hsum⟩ := h
  have htp : t < firstIdle m n inp t := firstIdle_gt t
  have hp := causes_firstIdle ht hno
  refine ⟨_, ⟨hp, fun q hq => ?_⟩, fun k hk hns => ?_⟩
  · rcases Nat.eq_or_lt_of_le hq.firstIdle_le with heq | hlt
    · exact heq.symm
    · rw [hp.quiet hq hlt hpu hup] at hu; cases hu
  · have hsum' : wireSum n (topAt m n inp (firstIdle m n inp t + 1)) =
        wireSum n (topAt m n inp (firstIdle m n inp t)) := by
      rcases hsum with ⟨v, h1, h2, h3⟩ | h3
      · rw [hns v (by omega) (by omega)] at h3; cases h3
      · exact h3
    rw [← hsum', ← hp.2.1.regSum]
    rcases Nat.eq_or_lt_of_le hk with rfl | hlt
    · rfl
    · have hclear : (topAt m n inp (firstIdle m n inp t + 3)).wr.regCtrlStart = false :=
        flag_clear_after (by omega) hu fun v h1 h2 => hns v (by omega) (by omega)
      rw [(idle_stays hlt hp.2.1.idle_again hclear fun v h1 h2 =>
        hns v (by omega) h2).2, regSum_succ, hp.2.1.2.2]
      rfl

end

/-- **When a start write is one computation.** -/
theorem start_iff (m n : Nat) (inp : Nat → SAxi) (t : Nat) (ht : startWrite m n inp t = true) :
    StartsOnce m n inp t ↔ Fits m n inp t :=
  ⟨fits_of_startsOnce ht, startsOnce_of_fits ht⟩

/-- CTRL is set and cleared again: one computation. -/
def setClear : Nat → SAxi :=
  SAxi.play [.write 0x08 1, .write 0x08 1, .write 0x08 0, .write 0x08 0]

theorem start_iff_setClear : StartsOnce 16 4 setClear 1 :=
  (start_iff 16 4 setClear 1 (by decide)).2 ⟨fun u h1 h2 => by
    have : firstIdle 16 4 setClear 1 = 2 := by decide
    omega, ⟨3, by decide, by decide, by decide⟩, .inr (by decide +kernel)⟩

/-- A is 16, CTRL is set once, and A becomes 32 when the sum has been stored. -/
def rewriteA : Nat → SAxi :=
  SAxi.play [.write 0x00 16, .write 0x00 16, .write 0x08 1, .write 0x08 1, .idle, .idle,
    .write 0x00 32, .write 0x00 32]

/-- The flag is still set when the first pass is over, so the FSM adds again. -/
theorem rewriteA_adds_again :
    (¬ ∀ t, startWrite 16 4 rewriteA t = true → StartsOnce 16 4 rewriteA t) ∧
    startWrite 16 4 rewriteA 3 = true ∧
    (∀ u, 3 < u → u < 9 → startWrite 16 4 rewriteA u = false) ∧
    (topAt 16 4 rewriteA 6).fsm.regSum = 16 ∧ (topAt 16 4 rewriteA 9).fsm.regSum = 32 := by
  have hs : startWrite 16 4 rewriteA 3 = true := by decide +kernel
  have hno : ∀ u, 3 < u → u < 9 → ctrlWrite 16 4 rewriteA u = false := by
    intro u h1 h2
    rcases (by omega : u = 4 ∨ u = 5 ∨ u = 6 ∨ u = 7 ∨ u = 8) with rfl | rfl | rfl | rfl | rfl <;>
      decide +kernel
  have hp : firstIdle 16 4 rewriteA 3 = 4 := by decide +kernel
  refine ⟨fun h => ?_, hs, fun u h1 h2 => not_startWrite (hno u h1 h2), by decide +kernel,
    by decide +kernel⟩
  obtain ⟨-, ⟨u, h1, h2, h3⟩, -⟩ := fits_of_startsOnce hs (h 3 hs)
  rw [hp] at h1 h2
  rw [hno u (by omega) (by omega)] at h3
  cases h3

end CimSigmoid.Adder
