import CimSigmoid.Pim.Parallel.Addition

/-!
# Fixed-point multiplication over partitions

`fixedMultiplication` of `parallel/AritPIM.py`: a carry-save multiplier. Every pass copies one bit of
`y` to all partitions, adds the partial product to a sum word and a carry word, puts the lowest sum
bit out to `z` and moves the sum word down by one partition, where the carries already are. The sum
word is kept in `w`, and its last value and the carry word are added into `w` in the end.
-/

namespace CimSigmoid.Pim.Parallel

open Machine Mem Bits ParallelSimulator

variable {P W : Nat} [NeZero P] [NeZero W] {ι : Type}

def copyBit (N : Nat) (ps : Nat → Fin P) (y : Fin W) (k : Nat) (pbit : Fin W) : ParallelM P W ι Unit :=
  scratchOne (span N ps) fun temp => do
    perform .init1 [] [temp] (span N ps) (span N ps)
    perform .init1 [] [pbit] (span N ps) (span N ps)
    perform .not [y] [temp] [ps k] [ps 0]
    perform .not [temp] [pbit] [ps 0] [ps 0]
    broadcast N ps pbit temp

/-- The gates of the full-adder up to its sum, which is the `NOR` of `t 0` and `t 2`. -/
def carrySave (sbit cbit pbit : Fin W) (t : Nat → Fin W) (S : List (Fin P)) : ParallelM P W ι Unit := do
  initNor sbit cbit (t 0) S
  initNor sbit (t 0) (t 1) S
  initNor cbit (t 0) (t 2) S
  initNor (t 1) (t 2) (t 3) S
  initNor pbit (t 3) (t 1) S
  initNor (t 0) (t 1) cbit S
  initNor (t 1) (t 3) (t 0) S
  initNor pbit (t 1) (t 2) S

/-- Sum of full-adder while shifting: the lowest bit goes to `z`. -/
def shiftSum (N : Nat) (ps : Nat → Fin P) (z sbit a b : Fin W) (k : Nat) : ParallelM P W ι Unit := do
  perform .init1 [] [z] [ps k] [ps k]
  perform .init1 [] [sbit] (span (N - 1) ps) (span (N - 1) ps)
  perform .nor [a, b] [z] [ps 0] [ps k]
  shiftOne .nor [a, b] sbit N ps 1 0

def productPass (N : Nat) (ps : Nat → Fin P) (xnot y z sbit cbit : Fin W) (k : Nat) :
    ParallelM P W ι Unit :=
  scratchOne (span N ps) fun pbit => do
    copyBit N ps y k pbit
    perform .not [xnot] [pbit] (span N ps) (span N ps)
    scratch 4 (span N ps) fun t => do
      carrySave sbit cbit pbit t (span N ps)
      shiftSum N ps z sbit (t 0) (t 2) k

def fixedMultiplication (N : Nat) (ps : Nat → Fin P) (x y z w : Fin W) : ParallelM P W ι Unit := do
  let xnot ← mallocOne (span N ps)
  initNot x xnot (span N ps)
  let cbit ← mallocOne (span N ps)
  perform .init0 [] [w] (span N ps) (span N ps)
  perform .init0 [] [cbit] (span N ps) (span N ps)
  forRange N fun k => productPass N ps xnot y z w cbit k
  freeOne xnot (span N ps)
  fixedAddition N ps cbit w w .zero none
  freeOne cbit (span N ps)

/-! ## The parts of a pass -/

section

variable {s : ParallelSimulator P W ι} {ps : Nat → Fin P} {N k : Nat}

theorem ends_copyBit {y p : Fin W} (h : Consecutive N ps) (hk : k < N) (hb : span N ps ⊆ s.inter.banks)
    (hf : 1 ≤ s.inter.available) (hp : Held s.inter (span N ps) p) (hy : ¬s.inter.Open (ps k) y)
    (hyp : y ≠ p) :
    Ends (copyBit N ps y k p) s fun _ s' =>
      Step (fun c q => c = p ∧ q ∈ span N ps) 1 (4 + 2 * levels N, 4 * N) s s' ∧
      ∀ t < N, ∀ r, s'.memory p (ps t) r = s.memory y (ps k) r := by
  have hS := h.progression_span (by omega)
  have h0 := hS.ne_nil
  have hm : ∀ t < N, ps t ∈ span N ps := fun t ht => mem_span.mpr ⟨t, ht, rfl⟩
  refine ends_scratchOne (m := 0) (T := fun c q => c = p ∧ q ∈ span N ps)
    (w := (4 + 2 * levels N, 4 * N))
    (Q := fun mem => ∀ t < N, ∀ r, mem p (ps t) r = s.memory y (ps k) r) h0 hb hf fun temp htemp => ?_
  have htp : temp ≠ p := hp.ne h0 htemp
  have hty : temp ≠ y := fun e => hy (e ▸ htemp _ (hm k hk))
  have hp0 := progression_single (ps 0)
  have hT : ∀ q ∈ span N ps, (temp = p ∧ q ∈ span N ps) ∨ q ∈ span N ps ∧ temp = temp :=
    fun q hq => .inr ⟨hq, rfl⟩
  have hT0 : ∀ q ∈ [ps 0], q ∈ span N ps := fun q hq => List.mem_singleton.mp hq ▸ hm 0 (by omega)
  have h₀ := Session.start (k := 0) (s := s.withInter (s.inter.alloc (Banked.block (span N ps) [temp])))
    (T := fun c q => (c = p ∧ q ∈ span N ps) ∨ q ∈ span N ps ∧ c = temp)
  refine h₀.seq (run_set1 hS) h0 (fun q hq => .inl (hT q hq)) (by simp) fun h₁ => ?_
  refine h₁.seq (run_set1 hS) h0 (fun q hq => .inl (.inl ⟨rfl, hq⟩)) (by simp) fun h₂ => ?_
  refine h₂.seq (run_across (.not y) fun _ => ⟨by simp, by simpa using hty⟩) hp0.ne_nil
    (fun q hq => .inl (hT q (hT0 q hq))) (by simp) fun h₃ => ?_
  refine h₃.seq (run_andNot hp0 htp) hp0.ne_nil (fun q hq => .inl (.inl ⟨rfl, hT0 q hq⟩)) (by simp)
    fun h₄ => ?_
  refine (ends_broadcast (b := s.memory y (ps k)) h htp.symm (fun r => ?_) fun t ht ht0 r => ?_).mono ?_
  · simp [hm 0 (by omega), htp, htp.symm, hyp, hty.symm]
  · have hne : ps t ≠ ps 0 := fun e => absurd ((h.inj ht (by omega)).mp e) (by omega)
    simp [hm t ht, hne, htp, htp.symm]
  · rintro _ s' ⟨hstep, hv⟩
    refine ⟨((h₄.step hstep ?_ (by simp)).of_cost ?_).finish, fun t ht r => (hv t ht r).1⟩
    · rintro c q ⟨hc | hc, hq⟩
      · exact .inl (.inl ⟨hc, hq⟩)
      · exact .inl (.inr ⟨hq, hc⟩)
    · rw [length_span]
      ext <;> simp
      omega

omit [NeZero W] in
theorem ends_carrySave {S : List (Fin P)} {a c p : Fin W} {t : Nat → Fin W} (hS : Progression S)
    (hac : a ≠ c) (hpc : p ≠ c) (ht : ∀ i < 4, ∀ j < 4, t i = t j → i = j) (hta : ∀ i < 4, t i ≠ a)
    (htc : ∀ i < 4, t i ≠ c) (htp : ∀ i < 4, t i ≠ p) :
    Ends (carrySave a c p t S) s fun _ s' =>
      Step (fun d q => (d = c ∨ ∃ i < 4, t i = d) ∧ q ∈ S) 0 (16, 16 * S.length) s s' ∧
      ∀ q ∈ S, ∀ r,
        s'.memory c q r = (s.memory a q r && s.memory c q r ||
          (s.memory a q r || s.memory c q r) && s.memory p q r) ∧
        (!(s'.memory (t 0) q r || s'.memory (t 2) q r)) =
          ((s.memory a q r ^^ s.memory c q r) ^^ s.memory p q r) := by
  have h0 := hS.ne_nil
  have htt : ∀ i j, i < 4 → j < 4 → i ≠ j → t i ≠ t j := fun i j hi hj hij e => hij (ht i hi j hj e)
  have t01 := htt 0 1 (by omega) (by omega) (by omega)
  have t02 := htt 0 2 (by omega) (by omega) (by omega)
  have t03 := htt 0 3 (by omega) (by omega) (by omega)
  have t12 := htt 1 2 (by omega) (by omega) (by omega)
  have t13 := htt 1 3 (by omega) (by omega) (by omega)
  have t23 := htt 2 3 (by omega) (by omega) (by omega)
  have hT : ∀ i < 4, ∀ q ∈ S, ((t i = c ∨ ∃ j < 4, t j = t i) ∧ q ∈ S) ∨
      ∃ e ∈ ([] : List (List (Fin P) × Fin W)), q ∈ e.1 ∧ t i = e.2 :=
    fun i hi q hq => .inl ⟨.inr ⟨i, hi, rfl⟩, hq⟩
  have h := Session.start (k := 0) (s := s) (T := fun d q => (d = c ∨ ∃ i < 4, t i = d) ∧ q ∈ S)
  refine h.seqOf (run_initNor hS hac (hta 0 (by omega)).symm (htc 0 (by omega)).symm) h0
    (hT 0 (by omega)) (by simp) fun s₁ h₁ v₁ k₁ => ?_
  refine h₁.seqOf (run_initNor hS (hta 0 (by omega)).symm (hta 1 (by omega)).symm t01) h0
    (hT 1 (by omega)) (by simp) fun s₂ h₂ v₂ k₂ => ?_
  refine h₂.seqOf (run_initNor hS (htc 0 (by omega)).symm (htc 2 (by omega)).symm t02) h0
    (hT 2 (by omega)) (by simp) fun s₃ h₃ v₃ k₃ => ?_
  refine h₃.seqOf (run_initNor hS t12 t13 t23) h0 (hT 3 (by omega)) (by simp) fun s₄ h₄ v₄ k₄ => ?_
  refine h₄.seqOf (run_initNor hS (htp 3 (by omega)).symm (htp 1 (by omega)).symm t13.symm) h0
    (hT 1 (by omega)) (by simp) fun s₅ h₅ v₅ k₅ => ?_
  refine h₅.seqOf (run_initNor hS t01 (htc 0 (by omega)) (htc 1 (by omega))) h0
    (fun q hq => .inl ⟨.inl rfl, hq⟩) (by simp) fun s₆ h₆ v₆ k₆ => ?_
  refine h₆.seqOf (run_initNor hS t13 t01.symm t03.symm) h0 (hT 0 (by omega)) (by simp)
    fun s₇ h₇ v₇ k₇ => ?_
  refine (h₇.gate (run_initNor hS (htp 1 (by omega)).symm (htp 2 (by omega)).symm t12) h0
    (hT 2 (by omega)) (by simp)).mono ?_
  rintro _ _ ⟨rfl, h₈⟩
  refine ⟨(h₈.of_cost ?_).finish, fun q hq r => ?_⟩
  · ext <;> simp
    omega
  · have hat := fun i hi => (hta i hi).symm
    have hct := fun i hi => (htc i hi).symm
    have hpt := fun i hi => (htp i hi).symm
    simp only [fill_memory, hq, if_true, ne_eq, not_false_eq_true, Function.update_of_ne,
      Function.update_self, v₁ q hq, v₂ q hq, v₃ q hq, v₄ q hq, v₅ q hq, v₆ q hq, v₇ q hq, k₁, k₂, k₃, k₄,
      k₅, k₆, k₇, hpc, htc, hat, hct, hpt, t01, t02, t03, t12, t23, t01.symm, t02.symm, t12.symm,
      t13.symm, Nat.reduceLT]
    cases s.memory a q r <;> cases s.memory c q r <;> cases s.memory p q r <;> decide

omit [NeZero W] in
theorem ends_shiftSum {z o a b : Fin W} (h : Consecutive N ps) (hN : 3 ≤ N) (hab : a ≠ b)
    (hzo : z ≠ o) (hz : z ≠ a ∧ z ≠ b) (ho : o ≠ a ∧ o ≠ b) :
    Ends (shiftSum N ps z o a b k) s fun _ s' =>
      Step (fun c q => (c = o ∧ q ∈ span N ps) ∨ c = z ∧ q = ps k) 0 (5, 2 * N) s s' ∧
      (∀ r, s'.memory z (ps k) r = !(s.memory a (ps 0) r || s.memory b (ps 0) r)) ∧
      (∀ t, t + 1 < N → ∀ r,
        s'.memory o (ps t) r = !(s.memory a (ps (t + 1)) r || s.memory b (ps (t + 1)) r)) ∧
      s'.memory o (ps (N - 1)) = s.memory o (ps (N - 1)) := by
  have hS := (h.mono (Nat.sub_le N 1)).progression_span (by omega)
  have hpk := progression_single (ps k)
  have hz' : ∀ q ∈ [ps k], ((z = o ∧ q ∈ span N ps) ∨ z = z ∧ q = ps k) ∨
      ∃ e ∈ ([] : List (List (Fin P) × Fin W)), q ∈ e.1 ∧ z = e.2 :=
    fun q hq => .inl (.inr ⟨rfl, List.mem_singleton.mp hq⟩)
  have h₀ := Session.start (k := 0) (s := s)
    (T := fun c q => (c = o ∧ q ∈ span N ps) ∨ c = z ∧ q = ps k)
  refine h₀.seqOf (run_set1 hpk) hpk.ne_nil hz' (by simp) fun s₁ h₁ v₁ k₁ => ?_
  refine h₁.seq (run_set1 hS) hS.ne_nil (fun q hq => .inl (.inl ⟨rfl, ?_⟩)) (by simp) fun h₂ => ?_
  · obtain ⟨t, ht, rfl⟩ := mem_span.mp hq
    exact mem_span.mpr ⟨t, by omega, rfl⟩
  obtain ⟨s₂, hs₂⟩ : ∃ s₂, s₂ = s₁.fill (span (N - 1) ps) o (fun _ _ => true) 1 := ⟨_, rfl⟩
  rw [← hs₂] at h₂ ⊢
  refine h₂.seqOf (run_across (.nor a b) fun _ => ⟨by simp [hab], by simp [hz]⟩) hpk.ne_nil hz' (by simp)
    fun s₃ h₃ v₃ k₃ => ?_
  refine (ends_shiftOne (.nor a b) h hN rfl (by simp [ho])).mono ?_
  rintro _ s' ⟨hstep, hv, hlast⟩
  have hread : ∀ c, c = a ∨ c = b → s₃.memory c = s.memory c := by
    rintro c (rfl | rfl)
    · rw [k₃ _ hz.1.symm, hs₂, fill_memory, Function.update_of_ne ho.1.symm, k₁ _ hz.1.symm]
    · rw [k₃ _ hz.2.symm, hs₂, fill_memory, Function.update_of_ne ho.2.symm, k₁ _ hz.2.symm]
  have hz₃ : s'.memory z (ps k) = s₃.memory z (ps k) := hstep.memory_eq_zero fun e => hzo e.1
  have ho₃ : s₃.memory o = s₂.memory o := k₃ o hzo.symm
  refine ⟨((h₃.step hstep (fun c q hc => .inl (.inl hc)) (by simp)).of_cost ?_).finish, fun r => ?_,
    fun t ht r => ?_, ?_⟩
  · rw [length_span]
    ext <;> simp
    omega
  · have hz₂ : s₂.memory z (ps k) = fun _ => true := by
      rw [hs₂, fill_memory, Function.update_of_ne hzo, v₁ _ (List.mem_singleton_self _)]
    have hread₂ : ∀ c, c = a ∨ c = b → s₂.memory c = s.memory c := fun c hc => by
      have hcz : c ≠ z := hc.elim (fun e => e ▸ hz.1.symm) fun e => e ▸ hz.2.symm
      rw [← hread c hc, k₃ c hcz]
    rw [hz₃, v₃ _ (List.mem_singleton_self _)]
    simp [hz₂, hread₂]
  · have hone : s₃.memory o (ps t) r = true := by
      have hmem : ps t ∈ span (N - 1) ps := mem_span.mpr ⟨t, by omega, rfl⟩
      rw [ho₃, hs₂, fill_memory, Function.update_self, if_pos hmem]
    have := hv t ht r
    rw [Nat.zero_add, hone, Nat.add_comm 1 t] at this
    rw [this]
    simp [hread]
  · have hmem : ps (N - 1) ∉ span (N - 1) ps := fun hm => by
      obtain ⟨t, ht, e⟩ := mem_span.mp hm
      have := (h.inj (by omega) (by omega)).mp e
      omega
    rw [hlast (N - 1) (by omega) (.inr (by omega)), ho₃, hs₂, fill_memory, Function.update_self,
      if_neg hmem, k₁ o hzo.symm]

/-- What a carry-save pass makes of the sum word `o` and the carry word `c` when it adds `p`: the sums
go down by one, the lowest to position `k` of `z`. -/
structure Saved (N : Nat) (ps : Nat → Fin P) (o c z : Fin W) (k : Nat) (p : ι → Nat → Bool)
    (mem mem' : Fin W → Fin P → ι → Bool) : Prop where
  carry : ∀ t < N, ∀ r, mem' c (ps t) r = (mem o (ps t) r && mem c (ps t) r ||
    (mem o (ps t) r || mem c (ps t) r) && p r t)
  low : ∀ r, mem' z (ps k) r = ((mem o (ps 0) r ^^ mem c (ps 0) r) ^^ p r 0)
  sum : ∀ t, t + 1 < N → ∀ r, mem' o (ps t) r =
    ((mem o (ps (t + 1)) r ^^ mem c (ps (t + 1)) r) ^^ p r (t + 1))
  top : mem' o (ps (N - 1)) = mem o (ps (N - 1))

def PassWrites (N : Nat) (ps : Nat → Fin P) (o c z : Fin W) (k : Nat) (d : Fin W) (q : Fin P) : Prop :=
  (d = o ∨ d = c) ∧ q ∈ span N ps ∨ d = z ∧ q = ps k

theorem ends_addProduct {o c z p : Fin W} (h : Consecutive N ps) (hN : 3 ≤ N) (hk : k < N)
    (hb : span N ps ⊆ s.inter.banks) (hf : 4 ≤ s.inter.available) (ho : Held s.inter (span N ps) o)
    (hc : Held s.inter (span N ps) c) (hp : Held s.inter (span N ps) p) (hz : ¬s.inter.Open (ps k) z)
    (hoc : o ≠ c) (hpc : p ≠ c) (hzo : z ≠ o) (hzc : z ≠ c) :
    Ends (scratch 4 (span N ps) fun t => do
        carrySave o c p t (span N ps)
        shiftSum N ps z o (t 0) (t 2) k) s fun _ s' =>
      Step (PassWrites N ps o c z k) 4 (21, 18 * N) s s' ∧
      Saved N ps o c z k (fun r t => s.memory p (ps t) r) s.memory s'.memory := by
  have hS := h.progression_span (by omega)
  have h0 := hS.ne_nil
  have hm : ∀ t < N, ps t ∈ span N ps := fun t ht => mem_span.mpr ⟨t, ht, rfl⟩
  refine ends_scratch (m := 0) (T := PassWrites N ps o c z k) (w := (21, 18 * N))
    (Q := fun mem => Saved N ps o c z k (fun r t => s.memory p (ps t) r) s.memory mem) (by omega) h0 hb hf
    fun t ht => ?_
  have htz : ∀ i < 4, z ≠ t i := fun i hi e => hz (e ▸ ht.opened i hi _ (hm k hk))
  have hto := fun i hi => (ht.ne h0 ho i hi).symm
  refine Ends.bind (ends_carrySave hS hoc hpc ht.inj (ht.ne h0 ho) (ht.ne h0 hc) (ht.ne h0 hp)) ?_
  rintro _ s₁ ⟨hstep₁, hv₁⟩
  have ht02 : t 0 ≠ t 2 := fun e => absurd (ht.inj 0 (by omega) 2 (by omega) e) (by omega)
  refine (ends_shiftSum h hN ht02 hzo ⟨htz 0 (by omega), htz 2 (by omega)⟩
    ⟨hto 0 (by omega), hto 2 (by omega)⟩).mono ?_
  rintro _ s' ⟨hstep, hlow, hsum, htop⟩
  have hco₁ : ∀ t' < N, s₁.memory o (ps t') = s.memory o (ps t') := fun t' _ => by
    refine hstep₁.memory_eq_zero ?_
    rintro ⟨e | ⟨i, hi, e⟩, -⟩
    · exact hoc e
    · exact hto i hi e.symm
  refine ⟨((hstep₁.mono ?_ (Nat.le_refl 0)).trans (hstep.mono ?_ (Nat.le_refl 0))).of_cost ?_,
    fun t' ht' r => ?_, fun r => ?_, fun t' ht' r => ?_, ?_⟩
  · rintro d q ⟨e | e, hq⟩
    · exact .inl (.inl ⟨.inr e, hq⟩)
    · exact .inr ⟨hq, e⟩
  · rintro d q (⟨e, hq⟩ | e)
    · exact .inl (.inl ⟨.inl e, hq⟩)
    · exact .inl (.inr e)
  · rw [length_span]
    ext <;> simp
    omega
  · rw [hstep.memory_eq_zero, (hv₁ _ (hm t' ht') r).1]
    · rfl
    · rintro (e | e)
      · exact hoc e.1.symm
      · exact hzc e.1.symm
  · rw [hlow r]
    exact (hv₁ _ (hm 0 (by omega)) r).2
  · rw [hsum t' ht' r]
    exact (hv₁ _ (hm _ ht') r).2
  · rw [htop, hco₁ _ (by omega)]

structure Factored (s : ParallelSimulator P W ι) (N : Nat) (ps : Nat → Fin P) (xnot y z o c : Fin W) :
    Prop where
  line : Consecutive N ps
  banks : span N ps ⊆ s.inter.banks
  heldX : Held s.inter (span N ps) xnot
  heldY : Held s.inter (span N ps) y
  heldZ : Held s.inter (span N ps) z
  heldS : Held s.inter (span N ps) o
  heldC : Held s.inter (span N ps) c
  sum_ne_carry : o ≠ c
  low_ne_sum : z ≠ o
  low_ne_carry : z ≠ c

omit [NeZero P] [NeZero W] in
theorem Factored.of_inter {s' : ParallelSimulator P W ι} {x y z o c : Fin W}
    (h : Factored s N ps x y z o c) (e : s'.inter = s.inter) : Factored s' N ps x y z o c :=
  ⟨h.line, e ▸ h.banks, e ▸ h.heldX, e ▸ h.heldY, e ▸ h.heldZ, e ▸ h.heldS, e ▸ h.heldC,
    h.sum_ne_carry, h.low_ne_sum, h.low_ne_carry⟩

theorem ends_productPass {xnot y z o c : Fin W} (h : Factored s N ps xnot y z o c) (hN : 3 ≤ N)
    (hk : k < N) (hf : 5 ≤ s.inter.available) :
    Ends (productPass N ps xnot y z o c k) s fun _ s' =>
      Step (PassWrites N ps o c z k) 5 (26 + 2 * levels N, 23 * N) s s' ∧
      Saved N ps o c z k (fun r t => s.memory y (ps k) r && !s.memory xnot (ps t) r)
        s.memory s'.memory := by
  have hS := h.line.progression_span (by omega)
  have h0 := hS.ne_nil
  have hm : ∀ t < N, ps t ∈ span N ps := fun t ht => mem_span.mpr ⟨t, ht, rfl⟩
  refine ends_scratchOne (m := 4) (T := PassWrites N ps o c z k) (w := (26 + 2 * levels N, 23 * N))
    (Q := fun mem => Saved N ps o c z k
      (fun r t => s.memory y (ps k) r && !s.memory xnot (ps t) r) s.memory mem) h0 h.banks hf
    fun p hp => ?_
  have hpx : p ≠ xnot := h.heldX.ne h0 hp
  have hpy : p ≠ y := h.heldY.ne h0 hp
  have hpo : p ≠ o := h.heldS.ne h0 hp
  have hpc : p ≠ c := h.heldC.ne h0 hp
  obtain ⟨s₀, hs₀⟩ : ∃ s₀, s₀ = s.withInter (s.inter.alloc (Banked.block (span N ps) [p])) := ⟨_, rfl⟩
  have hmem₀ : s₀.memory = s.memory := by rw [hs₀]; rfl
  have hin₀ : s₀.inter = s.inter.alloc (Banked.block (span N ps) [p]) := by rw [hs₀]; rfl
  have hav : 4 ≤ s₀.inter.available := hin₀ ▸ available_alloc_block hf
  have hheld : ∀ d, Held s.inter (span N ps) d → Held s₀.inter (span N ps) d := fun d hd =>
    hin₀ ▸ hd.alloc
  have hheldP : Held s₀.inter (span N ps) p := hin₀ ▸ held_block List.mem_cons_self
  rw [← hs₀]
  have h₀ := Session.start (k := 4) (s := s₀)
    (T := fun d q => PassWrites N ps o c z k d q ∨ q ∈ span N ps ∧ d = p)
  refine Ends.bind (ends_copyBit h.line hk (hin₀ ▸ h.banks) (by omega) hheldP
    (hheld y h.heldY _ (hm k hk)) hpy.symm) ?_
  rintro _ s₁ ⟨hstep₁, hv₁⟩
  have h₁ := h₀.step hstep₁ (fun d q hd => .inl (.inr ⟨hd.2, hd.1⟩)) (by simp)
  refine h₁.seqOf (run_andNot hS hpx.symm) h0 (fun q hq => .inl (.inr ⟨hq, rfl⟩)) (by simp)
    fun s₂ h₂ v₂ k₂ => ?_
  have hin₂ : s₂.inter = s₀.inter := h₂.inter.trans Banked.alloc_empty
  have hheld₂ : ∀ d, Held s.inter (span N ps) d → Held s₂.inter (span N ps) d := fun d hd =>
    hin₂ ▸ hheld d hd
  have hkeep₁ : ∀ d, Held s.inter (span N ps) d → p ≠ d → ∀ t < N,
      s₁.memory d (ps t) = s.memory d (ps t) := fun d hd hpd t ht => by
    rw [hstep₁.memory_eq (hheld d hd _ (hm t ht)) fun e => hpd e.1.symm, hmem₀]
  have hkeep : ∀ d, Held s.inter (span N ps) d → p ≠ d → ∀ t < N,
      s₂.memory d (ps t) = s.memory d (ps t) := fun d hd hpd t ht => by
    rw [k₂ d hpd.symm, hkeep₁ d hd hpd t ht]
  have hbit : ∀ t < N, ∀ r, s₂.memory p (ps t) r =
      (s.memory y (ps k) r && !s.memory xnot (ps t) r) := fun t ht r => by
    simp only [v₂ _ (hm t ht), hv₁ t ht r, hmem₀, hkeep₁ xnot h.heldX hpx t ht]
  refine (ends_addProduct h.line hN hk (hin₂ ▸ hin₀ ▸ h.banks) (hin₂ ▸ hav) (hheld₂ o h.heldS)
    (hheld₂ c h.heldC) (hin₂ ▸ hheldP) (hheld₂ z h.heldZ _ (hm k hk)) h.sum_ne_carry hpc h.low_ne_sum
    h.low_ne_carry).mono ?_
  rintro _ s' ⟨hstep, hsaved⟩
  refine ⟨((h₂.step hstep (fun d q hd => .inl (.inl hd)) (by simp)).of_cost ?_).finish,
    fun t ht r => ?_, fun r => ?_, fun t ht r => ?_, ?_⟩
  · rw [length_span]
    ext <;> simp <;> omega
  · rw [hsaved.carry t ht r, hbit t ht r, hkeep o h.heldS hpo t ht, hkeep c h.heldC hpc t ht]
  · rw [hsaved.low r, hbit 0 (by omega) r, hkeep o h.heldS hpo 0 (by omega),
      hkeep c h.heldC hpc 0 (by omega)]
  · rw [hsaved.sum t ht r, hbit _ ht r, hkeep o h.heldS hpo _ ht, hkeep c h.heldC hpc _ ht]
  · rw [hsaved.top, hkeep o h.heldS hpo _ (by omega)]

omit [NeZero P] [NeZero W] in
/-- **A pass keeps the sum of the words**, where the sum word has no highest bit. -/
theorem Saved.value {o c z : Fin W} {p : ι → Nat → Bool} {mem mem' : Fin W → Fin P → ι → Bool}
    (h : Saved N ps o c z k p mem mem') (hN : 0 < N) {r : ι} (htop : mem o (ps (N - 1)) r = false) :
    2 * (num N ps o mem' r + num N ps c mem' r) + (mem' z (ps k) r).toNat =
      num N ps o mem r + num N ps c mem r + bitsValue N (p r) := by
  obtain ⟨n, rfl⟩ : ∃ n, N = n + 1 := ⟨N - 1, by omega⟩
  have hsum : num (n + 1) ps o mem' r =
      bitsValue n fun j => (mem o (ps (j + 1)) r ^^ mem c (ps (j + 1)) r) ^^ p r (j + 1) := by
    have htop' : mem' o (ps n) r = false := (congrFun h.top r).trans htop
    rw [num, bitsValue, htop', Bool.toNat_false, Nat.mul_zero, Nat.add_zero]
    exact bitsValue_congr fun j hj => h.sum j (by omega) r
  have hcarry : num (n + 1) ps c mem' r = bitsValue (n + 1) fun j => mem o (ps j) r && mem c (ps j) r ||
      (mem o (ps j) r || mem c (ps j) r) && p r j := bitsValue_congr fun j hj => h.carry j hj r
  have hsave := bitsValue_carrySave (n + 1) (fun j => mem o (ps j) r) (fun j => mem c (ps j) r) (p r)
  have hlow := bitsValue_low n fun j => (mem o (ps j) r ^^ mem c (ps j) r) ^^ p r j
  rw [hsum, hcarry, h.low r]
  simp only [num]
  omega

end

/-! ## The loop -/

section

variable {s : ParallelSimulator P W ι} {ps : Nat → Fin P} {N : Nat} {xnot y z o c : Fin W}

/-- After `k` passes the words and the bits put out make up the product with the `k` lowest bits of
`y`. -/
structure Products (N : Nat) (ps : Nat → Fin P) (z o c : Fin W) (X : ι → Nat) (Y : ι → Nat → Bool)
    (k : Nat) (mem : Fin W → Fin P → ι → Bool) : Prop where
  value : ∀ r, 2 ^ k * (num N ps o mem r + num N ps c mem r) + num k ps z mem r =
    X r * bitsValue k (Y r)
  top : ∀ r, mem o (ps (N - 1)) r = false

theorem ends_productLoop (h : Factored s N ps xnot y z o c) (hN : 3 ≤ N) (hf : 5 ≤ s.inter.available)
    (hx : xnot ≠ z ∧ xnot ≠ o ∧ xnot ≠ c) (hy : y ≠ z ∧ y ≠ o ∧ y ≠ c) {X : ι → Nat}
    (hX : ∀ r, (bitsValue N fun j => !s.memory xnot (ps j) r) = X r)
    (ho : ∀ r, num N ps o s.memory r = 0) (hc : ∀ r, num N ps c s.memory r = 0) :
    Ends (forRange N fun k => productPass N ps xnot y z o c k) s fun _ s' =>
      Step (fun d q => (d = o ∨ d = c ∨ d = z) ∧ q ∈ span N ps) 5
        (N * (26 + 2 * levels N), N * (23 * N)) s s' ∧
      Products N ps z o c X (fun r t => s.memory y (ps t) r) N s'.memory := by
  have hm : ∀ t < N, ps t ∈ span N ps := fun t ht => mem_span.mpr ⟨t, ht, rfl⟩
  refine ends_loop (w := fun _ => (26 + 2 * levels N, 23 * N))
    (C := fun i => (i * (26 + 2 * levels N), i * (23 * N)))
    (fun i mem => Products N ps z o c X (fun r t => s.memory y (ps t) r) i mem) (by simp)
    (fun i _ => by ext <;> simp [Nat.succ_mul]) ⟨fun r => ?_, fun r => ?_⟩ fun i hi s' hs hI => ?_
  · rw [ho r, hc r]
    rfl
  · exact bitsValue_eq_zero.mp (ho r) (N - 1) (by omega)
  have h' := h.of_inter hs.inter
  refine (ends_productPass h' hN hi (hs.inter ▸ hf)).mono ?_
  rintro _ s'' ⟨hstep, hsaved⟩
  refine ⟨hstep.mono ?_ (Nat.le_refl 5), fun r => ?_, fun r => (congrFun hsaved.top r).trans (hI.top r)⟩
  · rintro d q (⟨e | e, hq⟩ | ⟨e, hq⟩)
    · exact ⟨.inl e, hq⟩
    · exact ⟨.inr (.inl e), hq⟩
    · exact ⟨.inr (.inr e), hq ▸ hm i hi⟩
  -- the pass leaves `y`, the complement of `x` and the bits already put out as they were
  have hyi : s'.memory y (ps i) r = s.memory y (ps i) r := by
    rw [hs.memory_eq (h.heldY _ (hm i hi)) fun e => e.1.elim hy.2.1 fun e => e.elim hy.2.2 hy.1]
  have hxt : (bitsValue N fun j => !s'.memory xnot (ps j) r) = X r := by
    rw [← hX r]
    refine bitsValue_congr fun j hj => ?_
    rw [hs.memory_eq (h.heldX _ (hm j hj)) fun e => e.1.elim hx.2.1 fun e => e.elim hx.2.2 hx.1]
  have hlow : num i ps z s''.memory r = num i ps z s'.memory r := bitsValue_congr fun j hj => by
    rw [hstep.memory_eq (h'.heldZ _ (hm j (by omega)))]
    rintro (⟨e | e, -⟩ | ⟨-, e⟩)
    · exact h.low_ne_sum e
    · exact h.low_ne_carry e
    · exact absurd ((h.line.inj (by omega) hi).mp e) (by omega)
  have hpp : (bitsValue N fun t => s'.memory y (ps i) r && !s'.memory xnot (ps t) r) =
      X r * (s.memory y (ps i) r).toNat := by
    rw [← hxt, ← hyi, ← bitsValue_and]
    exact bitsValue_congr fun j _ => Bool.and_comm _ _
  have hval := hsaved.value (by omega) (hI.top r)
  rw [hpp] at hval
  have hnum : num (i + 1) ps z s''.memory r =
      num i ps z s''.memory r + 2 ^ i * (s''.memory z (ps i) r).toNat := rfl
  calc 2 ^ (i + 1) * (num N ps o s''.memory r + num N ps c s''.memory r) + num (i + 1) ps z s''.memory r
      = 2 ^ i * (2 * (num N ps o s''.memory r + num N ps c s''.memory r) +
          (s''.memory z (ps i) r).toNat) + num i ps z s''.memory r := by
        rw [hnum]
        ring
    _ = 2 ^ i * (num N ps o s'.memory r + num N ps c s'.memory r) + num i ps z s'.memory r +
          2 ^ i * (X r * (s.memory y (ps i) r).toNat) := by
        rw [hval, hlow]
        ring
    _ = X r * bitsValue (i + 1) fun t => s.memory y (ps t) r := by
        rw [hI.value r, bitsValue]
        ring

end

/-! ## The product -/

section

variable {s : ParallelSimulator P W ι} {ps : Nat → Fin P} {N : Nat} {x y z w : Fin W}

/-- What a multiplication needs of its cells. The factors may be the same cell, and `x` may be one of
the results. -/
structure Factors (s : ParallelSimulator P W ι) (N : Nat) (ps : Nat → Fin P) (x y z w : Fin W) : Prop where
  line : Consecutive N ps
  banks : span N ps ⊆ s.inter.banks
  heldX : Held s.inter (span N ps) x
  heldY : Held s.inter (span N ps) y
  heldZ : Held s.inter (span N ps) z
  heldW : Held s.inter (span N ps) w
  lower_ne_upper : z ≠ w
  factor_ne_lower : y ≠ z
  factor_ne_upper : y ≠ w

def sumEnergy (N : Nat) : Nat := 30 * N + lookaheadEnergy N

theorem ends_fixedMultiplication (hN : 3 ≤ N) (hf : 7 ≤ s.inter.available) (h : Factors s N ps x y z w) :
    Ends (fixedMultiplication N ps x y z w) s fun _ s' =>
      Step (fun c q => (c = z ∨ c = w) ∧ q ∈ span N ps) 7
        (N * (26 + 2 * levels N) + 14 * levels N + 29, 23 * N ^ 2 + 4 * N + sumEnergy N) s s' ∧
      ∀ r, 2 ^ N * num N ps w s'.memory r + num N ps z s'.memory r =
        num N ps x s.memory r * num N ps y s.memory r := by
  have hS := h.line.progression_span (by omega)
  have h0 := hS.ne_nil
  have hm : ∀ t < N, ps t ∈ span N ps := fun t ht => mem_span.mpr ⟨t, ht, rfl⟩
  have h₀ := Session.start (k := 7) (s := s) (T := fun c q => (c = z ∨ c = w) ∧ q ∈ span N ps)
  refine Ends.bind (h₀.mallocOne h.banks (by simp) hf) ?_
  rintro xn s₁ ⟨h₁, hm₁, hxn⟩
  have hxx : xn ≠ x := h.heldX.ne h0 hxn
  refine h₁.seqOf (run_initNot hS hxx.symm) h0 (fun q hq => .inr ⟨_, List.mem_cons_self, hq, rfl⟩)
    (by simp) fun s₂ h₂ v₂ k₂ => ?_
  refine Ends.bind (h₂.mallocOne h.banks (by simp) hf) ?_
  rintro cb s₃ ⟨h₃, hm₃, hcb⟩
  refine h₃.seqOf (run_set0 hS) h0 (fun q hq => .inl ⟨.inr rfl, hq⟩) (by simp) fun s₄ h₄ v₄ k₄ => ?_
  refine h₄.seqOf (run_set0 hS) h0 (fun q hq => .inr ⟨_, List.mem_cons_self, hq, rfl⟩) (by simp)
    fun s₅ h₅ v₅ k₅ => ?_
  have hkeep : ∀ d, Held s.inter (span N ps) d → Held s₅.inter (span N ps) d := fun d hd => h₅.keeps hd
  have hxz : xn ≠ z := h.heldZ.ne h0 hxn
  have hxw : xn ≠ w := h.heldW.ne h0 hxn
  have hcz : cb ≠ z := (h₂.keeps h.heldZ).ne h0 hcb
  have hcw : cb ≠ w := (h₂.keeps h.heldW).ne h0 hcb
  have hcy : cb ≠ y := (h₂.keeps h.heldY).ne h0 hcb
  have hcx : cb ≠ xn := (h₂.own List.mem_cons_self).ne h0 hcb
  have hfac : Factored s₅ N ps xn y z w cb := ⟨h.line, h₅.banks ▸ h.banks, h₅.own (by simp),
    hkeep y h.heldY, hkeep z h.heldZ, hkeep w h.heldW, h₅.own (by simp), hcw.symm, h.lower_ne_upper,
    hcz.symm⟩
  have hX : ∀ r, (bitsValue N fun j => !s₅.memory xn (ps j) r) = num N ps x s.memory r := fun r =>
    bitsValue_congr fun j hj => by
      simp only [k₅ xn hcx.symm, k₄ xn hxw, hm₃, v₂ _ (hm j hj), hm₁, Bool.not_not]
  have hO : ∀ r, num N ps w s₅.memory r = 0 := fun r => bitsValue_eq_zero.mpr fun j hj => by
    rw [k₅ w hcw.symm, v₄ _ (hm j hj)]
  have hC : ∀ r, num N ps cb s₅.memory r = 0 := fun r => bitsValue_eq_zero.mpr fun j hj => by
    rw [v₅ _ (hm j hj)]
  have hY : ∀ r, (bitsValue N fun t => s₅.memory y (ps t) r) = num N ps y s.memory r := fun r =>
    bitsValue_congr fun j hj => by
      rw [k₅ y hcy.symm, k₄ y h.factor_ne_upper, hm₃, k₂ y (h.heldY.ne h0 hxn).symm, hm₁]
  refine Ends.bind (ends_productLoop hfac hN (h₅.available (by simpa using hf)) ⟨hxz, hxw, hcx.symm⟩
    ⟨h.factor_ne_lower, h.factor_ne_upper, hcy.symm⟩ hX hO hC) ?_
  rintro _ s₆ ⟨hstep₆, hprod⟩
  have h₆ := h₅.step hstep₆ (fun d q hd => ?_) (by simp)
  swap
  · rcases hd with ⟨e | e | e, hq⟩
    · exact .inl ⟨.inr e, hq⟩
    · exact .inr ⟨_, List.mem_cons_self, hq, e⟩
    · exact .inl ⟨.inl e, hq⟩
  refine Ends.bind (h₆.freeOne (A := [(span N ps, cb)]) (B := []) rfl h0) ?_
  rintro _ s₇ ⟨h₇, hm₇⟩
  have hsum : Summands s₇ N ps cb w w .zero none := ⟨h.line, h₇.banks ▸ h.banks, h₇.own (by simp),
    h₇.keeps h.heldW, h₇.keeps h.heldW, fun _ _ e => (by cases e), fun _ _ e => absurd e not_goesOut_none⟩
  refine Ends.bind (ends_fixedAddition hN (h₇.available (by simp; omega)) hsum hcw) ?_
  rintro _ s₈ ⟨hstep₈, hbits, -⟩
  have hw : ∀ c q, Written N ps w none c q → c = w ∧ q ∈ span N ps := by
    rintro c q (e | e)
    · exact e
    · exact absurd e not_goesOut_none
  have h₈ := h₇.step hstep₈ (fun c q hc => .inl ⟨.inr (hw c q hc).1, (hw c q hc).2⟩) (by simp)
  refine (h₈.freeOne (A := []) (B := []) rfl h0).mono ?_
  rintro _ s' ⟨h', hm'⟩
  refine ⟨(h'.of_cost ?_).finish, fun r => ?_⟩
  · rw [length_span]
    ext
    · simp [CarryIn.gates, outGates]
      omega
    · simp [CarryIn.gates, outGates, sumEnergy]
      ring
  · have hz : num N ps z s'.memory r = num N ps z s₆.memory r := bitsValue_congr fun j hj => by
      rw [hm', hstep₈.memory_eq (h₇.keeps h.heldZ _ (hm j hj)) fun e => h.lower_ne_upper (hw _ _ e).1, hm₇]
    have hadd := num_sum fun t ht => hbits t ht r
    have hval := hprod.value r
    rw [hY r] at hval
    rw [hz, hm']
    rw [hm₇] at hadd
    -- the words add up without a carry, since the product has 2 * N bits
    have hprodlt : num N ps x s.memory r * num N ps y s.memory r < 2 ^ N * 2 ^ N :=
      Nat.mul_lt_mul'' (bitsValue_lt N _) (bitsValue_lt N _)
    have hlt : num N ps w s₆.memory r + num N ps cb s₆.memory r < 2 ^ N := by
      refine Nat.lt_of_mul_lt_mul_left (a := 2 ^ N) ?_
      omega
    have hsum' : num N ps w s₈.memory r = num N ps w s₆.memory r + num N ps cb s₆.memory r := by
      generalize carryAt ps cb w (CarryIn.bit ps s₆.memory .zero) s₆.memory r N = co at hadd
      cases co with
      | false =>
        simp only [Bool.toNat_false, CarryIn.bit] at hadd
        omega
      | true =>
        simp only [Bool.toNat_true, CarryIn.bit, Bool.toNat_false] at hadd
        omega
    rw [hsum', hval]

/-- An operation has left the product `v` in `z` and `w`, the lower half in `z`, at the cost `u`, and else
only used intermediate cells, which it has given back. -/
structure LeavesProduct (N : Nat) (ps : Nat → Fin P) (z w : Fin W) (v : ι → Nat) (u : Nat × Nat)
    (s s' : ParallelSimulator P W ι) : Prop where
  lower : ∀ r, num N ps z s'.memory r = v r % 2 ^ N
  upper : ∀ r, num N ps w s'.memory r = v r / 2 ^ N
  cost : s'.cost = s.cost + u
  inter : s'.inter = s.inter
  frame : ∀ c q, ¬s.inter.Open q c → ¬((c = z ∨ c = w) ∧ q ∈ span N ps) → s'.memory c q = s.memory c q

/-- **`fixedMultiplication` over partitions multiplies**, also a number by itself: no gate breaks the
minimal model and no allocation fails. -/
theorem fixedMultiplication_multiplies (hN : 3 ≤ N) (hf : 7 ≤ s.inter.available)
    (h : Factors s N ps x y z w) :
    Ends (fixedMultiplication N ps x y z w) s fun _ s' =>
      LeavesProduct N ps z w (fun r => num N ps x s.memory r * num N ps y s.memory r)
        (N * (26 + 2 * levels N) + 14 * levels N + 29, 23 * N ^ 2 + 4 * N + sumEnergy N) s s' := by
  refine (ends_fixedMultiplication hN hf h).mono ?_
  rintro _ s' ⟨hstep, hval⟩
  have hlt : ∀ r, num N ps z s'.memory r < 2 ^ N := fun r => bitsValue_lt N _
  refine ⟨fun r => ?_, fun r => ?_, hstep.changes.cost, hstep.inter, fun c q => hstep.memory_eq⟩
  · rw [← hval r, Nat.mul_add_mod, Nat.mod_eq_of_lt (hlt r)]
  · rw [← hval r, Nat.mul_add_div (Nat.two_pow_pos N), Nat.div_eq_of_lt (hlt r), Nat.add_zero]

theorem fixedMultiplication_multiplies_seven :
    Ends (fixedMultiplication 3 partitions 0 0 1 2)
      (loaded 3 (fun c _ => c = 0) : ParallelSimulator 3 10 Unit) fun _ s' =>
        LeavesProduct 3 partitions 1 2 (fun _ => 49)
          (3 * (26 + 2 * levels 3) + 14 * levels 3 + 29, 23 * 3 ^ 2 + 4 * 3 + sumEnergy 3)
          (loaded 3 fun c _ => c = 0) s' :=
  fixedMultiplication_multiplies (N := 3) (x := 0) (y := 0) (by decide) (by decide)
    ⟨consecutive_partitions (by decide), by decide, fun _ _ => not_open_allocator (by decide),
      fun _ _ => not_open_allocator (by decide), fun _ _ => not_open_allocator (by decide),
      fun _ _ => not_open_allocator (by decide), by decide, by decide, by decide⟩

end

end CimSigmoid.Pim.Parallel
