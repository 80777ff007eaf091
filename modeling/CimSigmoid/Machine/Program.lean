import Mathlib.Init

/-!
# Programs over a state that may fail

A program takes a state to a result and a state, or fails (an assertion of the
program, a lookup that has no answer). `Ends p s Q` is total correctness: from `s`
the program does not fail and ends in `Q`. A proof walks through a program with
`Ends.bind`; a counted loop takes an invariant indexed by the number of passes.
-/

namespace CimSigmoid.Machine

abbrev Prog (S A : Type) := StateT S Option A

variable {S A B : Type}

/-- From `s` the program ends, in a result and a state of `Q`. -/
def Ends (p : Prog S A) (s : S) (Q : A → S → Prop) : Prop :=
  ∃ a s', p.run s = some (a, s') ∧ Q a s'

def check (c : Prop) [Decidable c] : Prog S Unit := if c then pure () else failure

/-- `body 0`, …, `body (n - 1)`. -/
def forRange : Nat → (Nat → Prog S Unit) → Prog S Unit
  | 0, _ => pure ()
  | n + 1, body => do
    forRange n body
    body n

section

variable {s : S} {Q R : A → S → Prop}

theorem ends_of_run {p : Prog S A} {a : A} {s' : S} (h : p.run s = some (a, s')) (hq : Q a s') :
    Ends p s Q := ⟨a, s', h, hq⟩

theorem Ends.mono {p : Prog S A} (h : Ends p s Q) (hqr : ∀ a s', Q a s' → R a s') :
    Ends p s R := by
  obtain ⟨a, s', hr, hq⟩ := h
  exact ⟨a, s', hr, hqr a s' hq⟩

theorem ends_pure {a : A} (h : Q a s) : Ends (pure a : Prog S A) s Q := ⟨a, s, rfl, h⟩

theorem Ends.bind {p : Prog S A} {f : A → Prog S B} {Q : A → S → Prop} {R : B → S → Prop}
    (h : Ends p s Q) (hf : ∀ a s', Q a s' → Ends (f a) s' R) : Ends (p >>= f) s R := by
  obtain ⟨a, s', hr, hq⟩ := h
  obtain ⟨b, s'', hr', hq'⟩ := hf a s' hq
  refine ⟨b, s'', ?_, hq'⟩
  rw [StateT.run_bind, hr]
  exact hr'

theorem ends_seq {p : Prog S A} {f : A → Prog S B} {a : A} {s' : S} {R : B → S → Prop}
    (h : p.run s = some (a, s')) (hf : Ends (f a) s' R) : Ends (p >>= f) s R :=
  Ends.bind (Q := fun b t => b = a ∧ t = s') ⟨a, s', h, rfl, rfl⟩ fun _ _ ⟨hb, ht⟩ => hb ▸ ht ▸ hf

theorem run_check {c : Prop} [Decidable c] (h : c) : (check c : Prog S Unit).run s = some ((), s) := by
  rw [check, if_pos h]
  rfl

end

/-- **The invariant rule of a counted loop.** -/
theorem ends_forRange {n : Nat} {body : Nat → Prog S Unit} {s : S} (I : Nat → S → Prop) (h0 : I 0 s)
    (hstep : ∀ i < n, ∀ s', I i s' → Ends (body i) s' fun _ => I (i + 1)) :
    Ends (forRange n body) s fun _ => I n := by
  induction n with
  | zero => exact ends_pure h0
  | succ n ih =>
    refine (ih fun i hi => hstep i (by omega)).bind fun _ s' h => ?_
    exact hstep n (by omega) s' h

end CimSigmoid.Machine
