import Mathlib.Data.Nat.Count

/-!
# Runs of clocked machines

A machine takes one step per clock edge: `step i s` is the state after an
edge that finds the inputs `i` and the registers `s`. `stateAt step s₀ inp t`
is the state before edge `t` under the input stream `inp`; only the inputs
before edge `t` enter it, so a statement about every stream and every `t` is a
statement about runs of every length.

`log ev t` lists what `ev` reports at the edges before `t`, oldest first;
`Nat.count` counts edges.
-/

namespace CimSigmoid.Clocked

section Run

variable {S I : Type} (step : I → S → S) (s₀ : S)

def stateAt (inp : Nat → I) : Nat → S
  | 0 => s₀
  | t + 1 => step (inp t) (stateAt inp t)

variable {step s₀}

theorem stateAt_inv {P : S → Prop} (h0 : P s₀) (hstep : ∀ i s, P s → P (step i s))
    (inp : Nat → I) (t : Nat) : P (stateAt step s₀ inp t) := by
  induction t with
  | zero => exact h0
  | succ t ih => exact hstep _ _ ih

end Run

section Log

variable {α β : Type}

def log (ev : Nat → Option α) (t : Nat) : List α := (List.range t).filterMap ev

@[simp] theorem log_zero (ev : Nat → Option α) : log ev 0 = [] := rfl

theorem log_succ (ev : Nat → Option α) (t : Nat) :
    log ev (t + 1) = log ev t ++ (ev t).toList := by
  rw [log, List.range_succ, List.filterMap_append]
  cases h : ev t <;> simp [log, h]

/-- `ev` reports `v t` at the edges where `p` holds. -/
def sampled (p : Nat → Bool) (v : Nat → α) (t : Nat) : Option α := if p t then some (v t) else none

theorem sampled_pos {p : Nat → Bool} {v : Nat → α} {t : Nat} (h : p t = true) :
    sampled p v t = some (v t) := by simp [sampled, h]

theorem sampled_neg {p : Nat → Bool} {v : Nat → α} {t : Nat} (h : p t = false) :
    sampled p v t = none := by simp [sampled, h]

theorem length_log_sampled (p : Nat → Bool) (v : Nat → α) (t : Nat) :
    (log (sampled p v) t).length = Nat.count (fun k => p k = true) t := by
  induction t with
  | zero => simp
  | succ t ih =>
    rw [log_succ, List.length_append, ih, Nat.count_succ]
    cases h : p t <;> simp [sampled, h]

/-- If `p` only holds where `q` does, the two are counted the same all along exactly when they
are the same. -/
theorem count_eq_iff {p q : Nat → Bool} (hpq : ∀ t, p t = true → q t = true) :
    (∀ t, Nat.count (fun k => p k = true) t = Nat.count (fun k => q k = true) t) ↔ p = q := by
  constructor
  · intro h
    funext t
    have h1 := h (t + 1)
    rw [Nat.count_succ, Nat.count_succ, h t] at h1
    cases hp : p t <;> cases hq : q t <;> simp_all
  · rintro rfl t
    rfl

end Log

/-! ## Registers along a run -/

theorem const_between {α : Type} {r : Nat → α} {a b : Nat} (hab : a ≤ b)
    (h : ∀ u, a ≤ u → u < b → r (u + 1) = r u) : r b = r a := by
  induction b, hab using Nat.le_induction with
  | base => rfl
  | succ b hb ih => rw [h b hb (by omega), ih fun u h1 h2 => h u h1 (by omega)]

end CimSigmoid.Clocked
