import Mathlib.Data.List.Infix

/-!
# Event systems with assertions

A `System` is driven by events. `enabled` says which events the environment may
produce in a state; `step` handles one and either gives the next state or fails
with a fault (an assertion of the program). `Run` are the event lists from the
initial state that meet no fault.

`Run.inv` is the invariant rule, `Safe` says that no enabled event fails, and
`Run.along_iff` gives the exact condition under which a property holds along a
run, from the steps that keep it and the steps that break it. `trace` is what
can be seen of the events from a state on, and `trace_eq_of_sim` compares two states.
-/

namespace CimSigmoid.Machine

structure System (S E F : Type) where
  init : S
  enabled : S → E → Prop
  step : S → E → Except F S

theorem ok_of_bind {F A B : Type} {x : Except F A} {f : A → Except F B} {b : B}
    (h : (x >>= f) = .ok b) : ∃ a, x = .ok a ∧ f a = .ok b := by
  cases x with
  | error e => cases h
  | ok a => exact ⟨a, rfl, h⟩

theorem ok_of_map {F A B : Type} {x : Except F A} {f : A → B} {b : B}
    (h : x.map f = .ok b) : ∃ a, x = .ok a ∧ f a = b := by
  cases x with
  | error e => cases h
  | ok a => exact ⟨a, rfl, Except.ok.inj h⟩

namespace System

variable {S E F : Type} {sys : System S E F}

/-- The events of a run and the state they lead to. -/
inductive Run (sys : System S E F) : List E → S → Prop where
  | nil : Run sys [] sys.init
  | snoc {es : List E} {e : E} {s s' : S} :
      Run sys es s → sys.enabled s e → sys.step s e = .ok s' → Run sys (es ++ [e]) s'

/-- No event the environment may produce fails. -/
def Safe (sys : System S E F) (s : S) : Prop := ∀ e, sys.enabled s e → ∃ s', sys.step s e = .ok s'

theorem Run.inv {P : S → Prop} (h0 : P sys.init)
    (hstep : ∀ s e s', P s → sys.enabled s e → sys.step s e = .ok s' → P s')
    {es : List E} {s : S} (h : sys.Run es s) : P s := by
  induction h with
  | nil => exact h0
  | snoc _ he hs ih => exact hstep _ _ _ ih he hs

theorem Run.snoc_inv {es : List E} {e : E} {s' : S} (h : sys.Run (es ++ [e]) s') :
    ∃ s, sys.Run es s ∧ sys.enabled s e ∧ sys.step s e = .ok s' := by
  generalize hl : es ++ [e] = l at h
  cases h with
  | nil => simp at hl
  | snoc hr he hs =>
    obtain ⟨rfl, hlast⟩ := List.append_inj' hl rfl
    cases hlast
    exact ⟨_, hr, he, hs⟩

theorem Run.unique {es : List E} {s s' : S} (h : sys.Run es s) (h' : sys.Run es s') : s = s' := by
  induction h generalizing s' with
  | nil =>
    generalize hl : ([] : List E) = l at h'
    cases h' with
    | nil => rfl
    | snoc => simp at hl
  | snoc _ _ hs ih =>
    obtain ⟨t, ht, -, hs'⟩ := h'.snoc_inv
    obtain rfl := ih ht
    rw [hs] at hs'
    cases hs'
    rfl

section

variable {P J : S → Prop} {Bad : S → E → Prop}

def Along (sys : System S E F) (P : S → Prop) (es : List E) : Prop :=
  ∀ es' s, es' <+: es → sys.Run es' s → P s

def Avoids (sys : System S E F) (Bad : S → E → Prop) (es : List E) : Prop :=
  ∀ es' e s, es' ++ [e] <+: es → sys.Run es' s → ¬ Bad s e

/-- **A property along a run.** With an invariant `J` that gives `P`, is kept by every step that
is not bad and whose bad steps break `P`: `P` holds along a run exactly if no step is bad. -/
theorem Run.along_iff (h0 : J sys.init) (hP : ∀ s, J s → P s)
    (hkeep : ∀ s e s', J s → sys.enabled s e → sys.step s e = .ok s' → ¬ Bad s e → J s')
    (hbreak : ∀ s e s', J s → sys.enabled s e → sys.step s e = .ok s' → Bad s e → ¬ P s')
    {es : List E} {s : S} (h : sys.Run es s) : sys.Along P es ↔ sys.Avoids Bad es := by
  have hJ : ∀ {es s}, sys.Run es s → sys.Avoids Bad es → J s := by
    intro es s h
    induction h with
    | nil => exact fun _ => h0
    | snoc hr he hs ih =>
      intro ha
      have hpre : sys.Avoids Bad _ := fun es' e s hp =>
        ha es' e s (hp.trans (List.prefix_append _ _))
      exact hkeep _ _ _ (ih hpre) he hs (ha _ _ _ (List.prefix_refl _) hr)
  refine ⟨fun hal => ?_, fun ha es' s' hp hr => hP _ (hJ hr fun l e t hl =>
    ha l e t (hl.trans hp))⟩
  induction h with
  | nil =>
    intro es' e s hp
    exact absurd (List.prefix_nil.1 hp) (by simp)
  | @snoc es e s s' hr he hs ih =>
    have hpre := ih fun es' s hp => hal es' s (hp.trans (List.prefix_append _ _))
    intro es' e' t hp ht
    rcases List.prefix_concat_iff.1 hp with heq | hp
    · obtain ⟨rfl, hlast⟩ := List.append_inj' heq rfl
      cases hlast
      obtain rfl := hr.unique ht
      exact fun hb => hbreak _ _ _ (hJ hr hpre) he hs hb
        (hal _ _ (List.prefix_refl _) (.snoc hr he hs))
    · exact hpre es' e' t hp ht

end

section

variable {O : Type} {obs : S → E → O} {R : S → S → Prop}

/-- What `obs` shows of the events, up to the first fault. -/
def trace (sys : System S E F) (obs : S → E → O) : S → List E → List O
  | _, [] => []
  | s, e :: es =>
    obs s e :: match sys.step s e with
      | .ok s' => sys.trace obs s' es
      | .error _ => []

theorem trace_cons_ok {s s' : S} {e : E} (h : sys.step s e = .ok s') (es : List E) :
    sys.trace obs s (e :: es) = obs s e :: sys.trace obs s' es := by
  rw [trace, h]

/-- States that show the same and step in parallel, or both fail, show the same for ever. -/
theorem trace_eq_of_sim (hobs : ∀ s t e, R s t → obs s e = obs t e)
    (hstep : ∀ s t e, R s t → (∃ s' t', sys.step s e = .ok s' ∧ sys.step t e = .ok t' ∧ R s' t') ∨
      ∃ f f', sys.step s e = .error f ∧ sys.step t e = .error f')
    {s t : S} (h : R s t) (es : List E) : sys.trace obs s es = sys.trace obs t es := by
  induction es generalizing s t with
  | nil => rfl
  | cons e es ih =>
    rcases hstep s t e h with ⟨s', t', hs, ht, h'⟩ | ⟨f, f', hs, ht⟩
    · rw [trace_cons_ok hs, trace_cons_ok ht, hobs s t e h, ih h']
    · rw [trace, trace, hs, ht, hobs s t e h]

end

end System

end CimSigmoid.Machine
