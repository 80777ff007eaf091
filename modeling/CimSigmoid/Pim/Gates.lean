import CimSigmoid.Pim.Simulator
import Mathlib.Algebra.BigOperators.Intervals

/-!
# Gates and ripple loops of the serial arithmetic

The one-bit operations of `serial/AritPIM.py`, each a sequence of NOT and NOR over freshly
allocated columns. Their outputs may be columns of their inputs: every gate has read
them by then. `ends_ripple` is the rule of the loops that add bit by bit, whatever the
addend's bits are made of.
-/

namespace CimSigmoid.Pim

open Machine Mem Bits SerialSimulator

variable {cols : Nat} {ι : Type} [NeZero cols]

/-! ## Operations -/

/-- The optional complement of an input: computed into an own column when it is not given. -/
def withNot (given : Option (Fin cols)) (a : Fin cols) (body : Fin cols → SerialM cols ι Unit) :
    SerialM cols ι Unit :=
  match given with
  | some nota => body nota
  | none => scratchOne fun nota => do
    initNot a nota
    body nota

/-- `__xor`. The source frees the complement of `a` before that of `b`. -/
def xor (a b z : Fin cols) (nota notb notz : Option (Fin cols)) : SerialM cols ι Unit :=
  withNot nota a fun nota => withNot notb b fun notb => do
    scratch 2 fun t => do
      initNor a b (t 0)
      initNor nota notb (t 1)
      initNor (t 0) (t 1) z
    match notz with
    | some w => initNot z w
    | none => pure ()

def halfAdder (a b s cout : Fin cols) : SerialM cols ι Unit :=
  scratch 3 fun t => do
    initNor a b (t 0)
    initNot a (t 1)
    initNot b (t 2)
    initNor (t 1) (t 2) cout
    initNor (t 0) cout s

def fullAdder (a b c s cout : Fin cols) : SerialM cols ι Unit :=
  scratch 4 fun t => do
    initNor a b (t 0)
    initNor a (t 0) (t 1)
    initNor b (t 0) (t 2)
    initNor (t 1) (t 2) (t 3)
    initNor (t 3) c (t 1)
    initNor (t 1) (t 3) (t 2)
    initNor (t 1) c (t 3)
    initNor (t 3) (t 2) s
    initNor (t 0) (t 1) cout

def fullSubtractor (a b c s cout : Fin cols) : SerialM cols ι Unit :=
  scratchOne fun notb => do
    initNot b notb
    fullAdder a notb c s cout

/-! ## What they compute -/

section

variable {σ : SerialSimulator cols ι} {a b c s z cout : Fin cols}

theorem ends_fullAdder (hf : 4 ≤ σ.inter.free.length) (ha : a ∉ σ.inter.free)
    (hb : b ∉ σ.inter.free) (hc : c ∉ σ.inter.free) (hs : s ∉ σ.inter.free)
    (ho : cout ∉ σ.inter.free) (hab : a ≠ b) (hso : s ≠ cout) :
    Ends (fullAdder a b c s cout) σ fun _ σ' => Step (fun i => i = s ∨ i = cout) 4 18 σ σ' ∧
      ∀ r, (σ'.memory s r).toNat + 2 * (σ'.memory cout r).toNat =
        (σ.memory a r).toNat + (σ.memory b r).toNat + (σ.memory c r).toNat := by
  refine ends_scratch (m := 0) (Q := fun mem => ∀ r, (mem s r).toNat + 2 * (mem cout r).toNat =
    (σ.memory a r).toNat + (σ.memory b r).toNat + (σ.memory c r).toNat) (by omega) hf fun t ht => ?_
  have hct := ht.ne hc
  have hst := ht.ne hs
  have hot := ht.ne ho
  have hta := fun i hi => (ht.ne ha i hi).symm
  have htb := fun i hi => (ht.ne hb i hi).symm
  have htc := fun i hi => (hct i hi).symm
  have htt := ht.eq_iff
  refine ends_seq (run_initNor hab (by simp [hta]) (by simp [htb])) ?_
  refine ends_seq (run_initNor (by simp [hta]) (by simp [hta]) (by simp [htt])) ?_
  refine ends_seq (run_initNor (by simp [htb]) (by simp [htb]) (by simp [htt])) ?_
  refine ends_seq (run_initNor (by simp [htt]) (by simp [htt]) (by simp [htt])) ?_
  refine ends_seq (run_initNor (by simp [hct]) (by simp [htt]) (by simp [htc])) ?_
  refine ends_seq (run_initNor (by simp [htt]) (by simp [htt]) (by simp [htt])) ?_
  refine ends_seq (run_initNor (by simp [hct]) (by simp [htt]) (by simp [htc])) ?_
  refine ends_seq (run_initNor (by simp [htt]) (by simp [hst]) (by simp [hst])) ?_
  refine ends_of_run (run_initNor (by simp [htt]) (by simp [hot]) (by simp [hot])) ⟨⟨rfl, ?_⟩, ?_⟩
  · have hT : ∀ i < 4, Reach (fun o => (o = s ∨ o = cout) ∨ ∃ i < 4, t i = o)
        (σ.inter.alloc (listing 4 t)) 0 (t i) := fun i hi => .inl (.inr ⟨i, hi, rfl⟩)
    have h0 := hT 0 (by omega)
    have h1 := hT 1 (by omega)
    have h2 := hT 2 (by omega)
    have h3 := hT 3 (by omega)
    exact ((((((((Changes.refl.nor h0).nor h1).nor h2).nor h3).nor h1).nor h2).nor h3).nor
      (.inl (.inl (.inl rfl)))).nor (.inl (.inl (.inr rfl)))
  · intro r
    simp only [nor_memory, withInter_memory, ne_eq, hso, hst, hta, htb, htc, htt,
      not_false_eq_true, Function.update_of_ne, Function.update_self, Nat.reduceLT, Nat.reduceEqDiff,
      reduceCtorEq]
    cases σ.memory a r <;> cases σ.memory b r <;> cases σ.memory c r <;> rfl

theorem ends_halfAdder (hf : 3 ≤ σ.inter.free.length) (ha : a ∉ σ.inter.free)
    (hb : b ∉ σ.inter.free) (hs : s ∉ σ.inter.free) (ho : cout ∉ σ.inter.free) (hab : a ≠ b)
    (hso : s ≠ cout) :
    Ends (halfAdder a b s cout) σ fun _ σ' => Step (fun i => i = s ∨ i = cout) 3 10 σ σ' ∧
      ∀ r, (σ'.memory s r).toNat + 2 * (σ'.memory cout r).toNat =
        (σ.memory a r).toNat + (σ.memory b r).toNat := by
  refine ends_scratch (m := 0) (Q := fun mem => ∀ r, (mem s r).toNat + 2 * (mem cout r).toNat =
    (σ.memory a r).toNat + (σ.memory b r).toNat) (by omega) hf fun t ht => ?_
  have hst := ht.ne hs
  have hot := ht.ne ho
  have hta := fun i hi => (ht.ne ha i hi).symm
  have htb := fun i hi => (ht.ne hb i hi).symm
  have htt := ht.eq_iff
  refine ends_seq (run_initNor hab (by simp [hta]) (by simp [htb])) ?_
  refine ends_seq (run_initNot (by simp [hta])) ?_
  refine ends_seq (run_initNot (by simp [htb])) ?_
  refine ends_seq (run_initNor (by simp [htt]) (by simp [hot]) (by simp [hot])) ?_
  refine ends_of_run (run_initNor (by simp [hot]) (by simp [hst]) hso.symm) ⟨⟨rfl, ?_⟩, ?_⟩
  · have hT : ∀ i < 3, Reach (fun o => (o = s ∨ o = cout) ∨ ∃ i < 3, t i = o)
        (σ.inter.alloc (listing 3 t)) 0 (t i) := fun i hi => .inl (.inr ⟨i, hi, rfl⟩)
    exact ((((Changes.refl.nor (hT 0 (by omega))).not (hT 1 (by omega))).not (hT 2 (by omega))).nor
      (.inl (.inl (.inr rfl)))).nor (.inl (.inl (.inl rfl)))
  · intro r
    simp only [nor_memory, not_memory, withInter_memory, ne_eq, hso.symm, hot, hta, htb, htt,
      not_false_eq_true, Function.update_of_ne, Function.update_self, Nat.reduceLT,
      Nat.reduceEqDiff, reduceCtorEq]
    cases σ.memory a r <;> cases σ.memory b r <;> rfl

theorem ends_fullSubtractor (hf : 5 ≤ σ.inter.free.length) (ha : a ∉ σ.inter.free)
    (hb : b ∉ σ.inter.free) (hc : c ∉ σ.inter.free) (hs : s ∉ σ.inter.free)
    (ho : cout ∉ σ.inter.free) (hso : s ≠ cout) :
    Ends (fullSubtractor a b c s cout) σ fun _ σ' => Step (fun i => i = s ∨ i = cout) 5 20 σ σ' ∧
      ∀ r, (σ'.memory s r).toNat + 2 * (σ'.memory cout r).toNat =
        (σ.memory a r).toNat + (!σ.memory b r).toNat + (σ.memory c r).toNat := by
  refine ends_scratchOne (m := 4) (Q := fun mem => ∀ r, (mem s r).toNat + 2 * (mem cout r).toNat =
    (σ.memory a r).toNat + (!σ.memory b r).toNat + (σ.memory c r).toNat) (by omega) fun t ht => ?_
  have hta := ne_of_first ht ha
  have htb := ne_of_first ht hb
  have htc := ne_of_first ht hc
  refine ends_seq (run_initNot htb.symm) ?_
  refine Ends.mono (ends_fullAdder (le_length_alloc hf) (not_free_alloc ha) not_free_self
    (not_free_alloc hc) (not_free_alloc hs) (not_free_alloc ho) hta.symm hso) ?_
  rintro _ σ' ⟨hstep, hsum⟩
  refine ⟨(step_not (.inr rfl)).trans (hstep.mono (fun _ => .inl) (Nat.le_refl 4)), fun r => ?_⟩
  rw [hsum r]
  simp [hta.symm, htc.symm]

/-- What a column that was not free at `σ` is at `σ₁`: not free, and as it was. -/
def Inside (σ σ₁ : SerialSimulator cols ι) : Prop :=
  ∀ i, i ∉ σ.inter.free → i ∉ σ₁.inter.free ∧ σ₁.memory i = σ.memory i

theorem ends_withNot {given : Option (Fin cols)} {body : Fin cols → SerialM cols ι Unit}
    {W : Fin cols → Prop} {m n : Nat} {Q : (Fin cols → ι → Bool) → Prop}
    (hf : 1 ≤ σ.inter.free.length) (ha : a ∉ σ.inter.free)
    (hg : ∀ i ∈ given, i ∉ σ.inter.free ∧ ∀ r, σ.memory i r = !σ.memory a r)
    (hbody : ∀ i σ₁, Inside σ σ₁ → σ.inter.free.length ≤ 1 + σ₁.inter.free.length →
      i ∉ σ₁.inter.free → (∀ r, σ₁.memory i r = !σ.memory a r) → (i ∈ given ∨ i ∈ σ.inter.free) →
      Ends (body i) σ₁ fun _ σ' => Step W m n σ₁ σ' ∧ Q σ'.memory) :
    Ends (withNot given a body) σ fun _ σ' =>
      Step W (1 + m) ((if given.isNone then 2 else 0) + n) σ σ' ∧ Q σ'.memory := by
  cases given with
  | some i =>
    obtain ⟨hi, hv⟩ := hg i rfl
    refine Ends.mono (hbody i σ (fun o ho => ⟨ho, rfl⟩) (by omega) hi hv (.inl rfl)) ?_
    rintro _ σ' ⟨hstep, hq⟩
    simp only [Option.isNone_some, Bool.false_eq_true, if_false, Nat.zero_add]
    exact ⟨hstep.mono (fun _ => id) (by omega), hq⟩
  | none =>
    simp only [withNot, Option.isNone_none, if_true]
    refine ends_scratchOne (n := 2 + n) (Q := Q) hf fun t ht => ?_
    have hta := ne_of_first ht ha
    refine ends_seq (run_initNot hta.symm) ?_
    have hin : Inside σ ((σ.withInter (σ.inter.alloc [t])).not a t) := fun o ho =>
      ⟨not_free_alloc ho, Function.update_of_ne (ne_of_first ht ho).symm ..⟩
    refine Ends.mono (hbody t _ hin (Pool.length_free_alloc (C := [t])) not_free_self (fun r => ?_)
      (.inr (Pool.mem_free_of_first ht))) ?_
    · simp
    · rintro _ σ' ⟨hstep, hq⟩
      exact ⟨(step_not (.inr rfl)).trans (hstep.mono (fun _ => .inl) (Nat.le_refl m)), hq⟩

theorem ends_xor {nota notb : Option (Fin cols)} (hf : 4 ≤ σ.inter.free.length)
    (ha : a ∉ σ.inter.free) (hb : b ∉ σ.inter.free) (hz : z ∉ σ.inter.free) (hab : a ≠ b)
    (hna : ∀ i ∈ nota, i ∉ σ.inter.free ∧ ∀ r, σ.memory i r = !σ.memory a r)
    (hnb : ∀ i ∈ notb, i ∉ σ.inter.free ∧ ∀ r, σ.memory i r = !σ.memory b r)
    (hne : ∀ i ∈ nota, i ∉ notb) :
    Ends (xor a b z nota notb none) σ fun _ σ' =>
      Step (· = z) 4 ((if nota.isNone then 2 else 0) + ((if notb.isNone then 2 else 0) + 6)) σ σ' ∧
      ∀ r, σ'.memory z r = (σ.memory a r ^^ σ.memory b r) := by
  refine ends_withNot (m := 3) (Q := fun mem => ∀ r, mem z r = (σ.memory a r ^^ σ.memory b r))
    (by omega) ha hna fun i σ₁ h₁ hf₁ hi₁ hiv hi => ?_
  obtain ⟨ha₁, hav⟩ := h₁ a ha
  obtain ⟨hb₁, hbv⟩ := h₁ b hb
  refine ends_withNot (m := 2) (Q := fun mem => ∀ r, mem z r = (σ.memory a r ^^ σ.memory b r))
    (by omega) hb₁ (fun j hj => ?_) fun j σ₂ h₂ hf₂ hj₂ hjv hj => ?_
  · obtain ⟨hj₁, hjv⟩ := h₁ j (hnb j hj).1
    exact ⟨hj₁, fun r => by rw [hjv, hbv, (hnb j hj).2]⟩
  · obtain ⟨ha₂, hav₂⟩ := h₂ a ha₁
    obtain ⟨hb₂, hbv₂⟩ := h₂ b hb₁
    obtain ⟨hi₂, hiv₂⟩ := h₂ i hi₁
    obtain ⟨hz₂, -⟩ := h₂ z (h₁ z hz).1
    have hij : i ≠ j := by
      rintro rfl
      rcases hj with hj | hj
      · exact hi.elim (fun h => hne i h hj) (hnb i hj).1
      · exact hi₁ hj
    refine Ends.bind (ends_scratch (m := 0) (k := 2) (n := 6) (W := (· = z))
      (Q := fun mem => ∀ r, mem z r = (σ.memory a r ^^ σ.memory b r)) (by omega) (by omega)
      fun t ht => ?_) fun _ σ' h => ends_pure h
    have hzt := ht.ne hz₂
    have hta := fun i hi => (ht.ne ha₂ i hi).symm
    have htb := fun i hi => (ht.ne hb₂ i hi).symm
    have hti := fun i hi => (ht.ne hi₂ i hi).symm
    have htj := fun i hi => (ht.ne hj₂ i hi).symm
    have htt := ht.eq_iff
    refine ends_seq (run_initNor hab (by simp [hta]) (by simp [htb])) ?_
    refine ends_seq (run_initNor hij (by simp [hti]) (by simp [htj])) ?_
    refine ends_of_run (run_initNor (by simp [htt]) (by simp [hzt]) (by simp [hzt]))
      ⟨⟨rfl, ?_⟩, fun r => ?_⟩
    · exact ((Changes.refl.nor (.inl (.inr ⟨0, by omega, rfl⟩))).nor
        (.inl (.inr ⟨1, by omega, rfl⟩))).nor (.inl (.inl rfl))
    · have hi' := hiv r
      have hj' := hjv r
      rw [hbv] at hj'
      simp only [nor_memory, withInter_memory, ne_eq, hti, htj, htt, not_false_eq_true,
        Function.update_of_ne, Function.update_self, Nat.reduceLT, zero_ne_one, hav₂, hbv₂, hiv₂, hav, hbv, hi', hj']
      cases σ.memory a r <;> cases σ.memory b r <;> rfl

end

/-! ## Ripple loops -/

section

variable {s : SerialSimulator cols ι} {N k : Nat} {body : Nat → SerialM cols ι Unit}
  {z c : Nat → Fin cols} {x y : Nat → ι → Bool}

omit [NeZero cols] in
/-- **The rule of a ripple loop.** Pass `i` adds the bits `x i` and `y i` and the carry of
`c i`, into `z i` and `c (i + 1)`, and may use the columns `V` as it likes. What it needs of
the columns that earlier passes have not written is as it was before the loop. -/
theorem ends_ripple {V : Fin cols → Prop} {n : Nat → Nat} (hz : Distinct N z) (hzf : Held s N z)
    (hzc : ∀ i < N, ∀ j < N, z i ≠ c (j + 1)) (hzV : ∀ i < N, ¬V (z i))
    (hbody : ∀ i < N, ∀ s', s'.inter = s.inter →
      (∀ o, o ∉ s.inter.free → ¬V o → (∀ j < i, o ≠ z j ∧ o ≠ c (j + 1)) →
        s'.memory o = s.memory o) →
      Ends (body i) s' fun _ s'' => Step (fun o => V o ∨ o = z i ∨ o = c (i + 1)) k (n i) s' s'' ∧
        ∀ r, (s''.memory (z i) r).toNat + 2 * (s''.memory (c (i + 1)) r).toNat =
          (x i r).toNat + (y i r).toNat + (s'.memory (c i) r).toNat) :
    Ends (forRange N body) s fun _ s' =>
      Step (fun o => V o ∨ ∃ i < N, o = z i ∨ o = c (i + 1)) k (∑ i ∈ Finset.range N, n i) s s' ∧
      ∀ r, num N z s'.memory r + 2 ^ N * (s'.memory (c N) r).toNat =
        bitsValue N (x · r) + bitsValue N (y · r) + (s.memory (c 0) r).toNat := by
  refine ends_forRange (fun i s' =>
    Step (fun o => V o ∨ ∃ j < i, o = z j ∨ o = c (j + 1)) k (∑ j ∈ Finset.range i, n j) s s' ∧
    ∀ r, num i z s'.memory r + 2 ^ i * (s'.memory (c i) r).toNat =
      bitsValue i (x · r) + bitsValue i (y · r) + (s.memory (c 0) r).toNat) ⟨.refl, fun r => ?_⟩ ?_
  · simp [num, bitsValue]
  · rintro i hi s' ⟨hstep, hsum⟩
    refine Ends.mono (hbody i hi s' hstep.inter fun o ho hV hW => hstep.memory_eq ho ?_) ?_
    · rintro (h | ⟨j, hj, e | e⟩)
      · exact hV h
      · exact (hW j hj).1 e
      · exact (hW j hj).2 e
    · rintro _ s'' ⟨hstep', hbit⟩
      refine ⟨?_, fun r => ?_⟩
      · rw [Finset.sum_range_succ]
        refine (hstep.mono (fun o => Or.imp id ?_) (Nat.le_refl k)).trans
          (hstep'.mono (fun o => Or.imp id fun h => ⟨i, by omega, h⟩) (Nat.le_refl k))
        rintro ⟨j, hj, h⟩
        exact ⟨j, by omega, h⟩
      · have hnum : num i z s''.memory r = num i z s'.memory r := by
          refine hstep'.num_eq (fun j hj => ?_) (fun j hj => ?_) r
          · rw [hstep.inter]
            exact hzf j (by omega)
          · rintro (h | e | e)
            · exact hzV j (by omega) h
            · have := hz j (by omega) i hi e
              omega
            · exact hzc j (by omega) i hi e
        have hi' := hsum r
        have hn := congrArg (2 ^ i * ·) (hbit r)
        simp only [num, bitsValue, Nat.pow_succ, Nat.mul_add] at hi' hn hnum ⊢
        rw [hnum]
        linarith

end

theorem sum_range_const (N n : Nat) : ∑ _i ∈ Finset.range N, n = N * n := by simp

end CimSigmoid.Pim
