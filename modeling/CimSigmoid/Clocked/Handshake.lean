import CimSigmoid.Clocked.Run

/-!
# Valid/ready channels and response slots

A channel transfers at the edges that find `valid` and `ready` high (`xfer`).
A sender is `Held` when it keeps `valid` and the payload until the receiver
is ready.

* `EarlyReady`: a receiver that acts on a request (`take`) one edge before it
  raises `ready`. Against a held sender it acts on each transferred request
  once, in order, and is at most one request ahead (`EarlyReady.log_take`).
* `Slot`: a one-place response register. `put` fills it and the other side
  empties it by a transfer. A `put` into a full slot that is not being emptied
  is an `overrun`: one response is lost. `Slot.count_put` accounts for every
  `put`; without overruns the slot hands out what was put, in order
  (`Slot.log_put`).
-/

namespace CimSigmoid.Clocked

variable {α β : Type}

def xfer (valid ready : Nat → Bool) (t : Nat) : Bool := valid t && ready t

/-! ## Requests -/

/-- The sender keeps `valid` and the payload until the receiver is ready. -/
def Held (valid ready : Nat → Bool) (payload : Nat → α) : Prop :=
  ∀ t, valid t = true → ready t = false → valid (t + 1) = true ∧ payload (t + 1) = payload t

theorem Held.pair {v w ready : Nat → Bool} {p : Nat → α} {q : Nat → β} (hv : Held v ready p)
    (hw : Held w ready q) :
    Held (fun t => v t && w t) ready (fun t => (p t, q t)) := by
  intro t h hr
  simp only [Bool.and_eq_true] at h ⊢
  obtain ⟨h1, h2⟩ := hv t h.1 hr
  obtain ⟨h3, h4⟩ := hw t h.2 hr
  exact ⟨⟨h1, h3⟩, by rw [h2, h4]⟩

/-- The receiver acts on a request one edge before it raises `ready`, and not again while
`ready` is high. -/
structure EarlyReady (valid ready take : Nat → Bool) : Prop where
  ready_zero : ready 0 = false
  ready_succ : ∀ t, ready (t + 1) = take t
  valid_of_take : ∀ t, take t = true → valid t = true
  not_ready : ∀ t, take t = true → ready t = false

namespace EarlyReady

variable {valid ready take : Nat → Bool} {payload : Nat → α}

/-- A held request that was acted on is still there when `ready` is raised. -/
theorem valid_of_ready (h : EarlyReady valid ready take) (hh : Held valid ready payload) {t : Nat}
    (hr : ready t = true) : valid t = true := by
  cases t with
  | zero => rw [h.ready_zero] at hr; cases hr
  | succ t =>
    rw [h.ready_succ] at hr
    exact (hh t (h.valid_of_take t hr) (h.not_ready t hr)).1

/-- **Each transferred request is acted on once, in order**; at most one is still to be
transferred. -/
theorem log_take (h : EarlyReady valid ready take) (hh : Held valid ready payload) (t : Nat) :
    log (sampled take payload) t =
      log (sampled (xfer valid ready) payload) t ++ (if ready t then [payload t] else []) := by
  induction t with
  | zero => simp [h.ready_zero]
  | succ t ih =>
    rw [log_succ, log_succ, ih, h.ready_succ]
    cases hr : ready t with
    | true =>
      have hv := h.valid_of_ready hh hr
      have ht : take t = false := by
        cases ht : take t with
        | false => rfl
        | true => rw [h.not_ready t ht] at hr; cases hr
      simp [sampled, xfer, hv, hr, ht]
    | false =>
      cases ht : take t with
      | false => simp [sampled, xfer, hr, ht]
      | true =>
        have hp := (hh t (h.valid_of_take t ht) hr).2
        simp [sampled, xfer, hr, ht, hp]

end EarlyReady

/-! ## Responses -/

/-- A one-place response register: full after a `put`, empty after a transfer without one. -/
structure Slot (put full ready : Nat → Bool) : Prop where
  full_zero : full 0 = false
  full_succ : ∀ t, full (t + 1) = (put t || (full t && !ready t))

/-- A `put` into a full slot that is not being emptied. -/
def overrun (put full ready : Nat → Bool) (t : Nat) : Bool := put t && full t && !ready t

namespace Slot

variable {put full ready : Nat → Bool}

/-- **Every `put` is transferred, still in the slot, or lost to an overrun.** -/
theorem count_put (h : Slot put full ready) (t : Nat) :
    Nat.count (fun k => xfer full ready k = true) t + (full t).toNat +
      Nat.count (fun k => overrun put full ready k = true) t =
    Nat.count (fun k => put k = true) t := by
  induction t with
  | zero => simp [h.full_zero]
  | succ t ih =>
    rw [Nat.count_succ, Nat.count_succ, Nat.count_succ, h.full_succ]
    cases hp : put t <;> cases hf : full t <;> cases hr : ready t <;>
      simp [xfer, overrun, hp, hf, hr] at ih ⊢ <;> omega

/-- The response count is right along the whole run exactly when no `put` overruns. -/
theorem count_put_iff (h : Slot put full ready) :
    (∀ t, Nat.count (fun k => xfer full ready k = true) t + (full t).toNat =
      Nat.count (fun k => put k = true) t) ↔ ∀ t, overrun put full ready t = false := by
  constructor
  · intro hc t
    have h1 := h.count_put (t + 1)
    have h2 := hc (t + 1)
    rw [Nat.count_succ (fun k => overrun put full ready k = true)] at h1
    cases ho : overrun put full ready t with
    | false => rfl
    | true => simp only [ho, if_true] at h1; omega
  · intro ho t
    have h1 := h.count_put t
    have h2 : Nat.count (fun k => overrun put full ready k = true) t = 0 := by
      rw [Nat.count_iff_forall_not]
      intro k _
      simp [ho k]
    omega

/-- **Without overruns the slot hands out what was put, in order.** -/
theorem log_put (h : Slot put full ready) (ho : ∀ t, overrun put full ready t = false)
    {v data : Nat → α} (hd : ∀ t, data (t + 1) = if put t then v t else data t) (t : Nat) :
    log (sampled put v) t =
      log (sampled (xfer full ready) data) t ++ (if full t then [data t] else []) := by
  induction t with
  | zero => simp [h.full_zero]
  | succ t ih =>
    have hot := ho t
    rw [log_succ, log_succ, ih, h.full_succ, hd]
    cases hp : put t <;> cases hf : full t <;> cases hr : ready t <;>
      simp_all [sampled, xfer, overrun]

end Slot

end CimSigmoid.Clocked
