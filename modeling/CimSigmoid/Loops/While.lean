import Mathlib.Data.Nat.Notation

/-!
# While loops

`whileLoop cond body fuel s` runs `body` from `s` as long as `cond` holds. A body may
fail, and a loop has no result if a step fails or the fuel runs out before the
condition is false. `whileLoop_total` is the rule for total correctness: an invariant
that the body keeps without failing, and a measure that it lowers, give a result at
any amount of fuel above the measure.
-/

namespace CimSigmoid.Loops

variable {S : Type} {cond : S → Bool} {body : S → Option S}

def whileLoop (cond : S → Bool) (body : S → Option S) : Nat → S → Option S
  | 0, _ => none
  | fuel + 1, s => if cond s then (body s).bind (whileLoop cond body fuel) else some s

theorem whileLoop_of_false {s : S} (h : cond s = false) (fuel : Nat) :
    whileLoop cond body (fuel + 1) s = some s := by
  rw [whileLoop, h, if_neg Bool.false_ne_true]

theorem whileLoop_of_true {s s' : S} (h : cond s = true) (hb : body s = some s') (fuel : Nat) :
    whileLoop cond body (fuel + 1) s = whileLoop cond body fuel s' := by
  rw [whileLoop, if_pos h, hb, Option.bind_some]

theorem whileLoop_total {I : S → Prop} {μ : S → Nat}
    (hstep : ∀ s, I s → cond s = true → ∃ s', body s = some s' ∧ I s' ∧ μ s' < μ s)
    {s : S} (h : I s) :
    ∃ s', I s' ∧ cond s' = false ∧ ∀ fuel, μ s < fuel → whileLoop cond body fuel s = some s' := by
  induction hn : μ s using Nat.strongRecOn generalizing s with
  | _ n ih =>
    cases hc : cond s with
    | false =>
      refine ⟨s, h, hc, fun fuel hf => ?_⟩
      obtain ⟨k, rfl⟩ : ∃ k, fuel = k + 1 := ⟨fuel - 1, by omega⟩
      exact whileLoop_of_false hc k
    | true =>
      obtain ⟨t, hb, ht, hlt⟩ := hstep s h hc
      obtain ⟨s', hs', hc', hrun⟩ := ih (μ t) (hn ▸ hlt) ht rfl
      refine ⟨s', hs', hc', fun fuel hf => ?_⟩
      obtain ⟨k, rfl⟩ : ∃ k, fuel = k + 1 := ⟨fuel - 1, by omega⟩
      rw [whileLoop_of_true hc hb]
      exact hrun k (by omega)

end CimSigmoid.Loops
