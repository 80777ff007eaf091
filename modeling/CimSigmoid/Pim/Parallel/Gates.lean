import CimSigmoid.Pim.Parallel.Session

/-!
# Gates of several cycles

The helpers of `parallel/AritPIM.py` that are made of `NOT` and `NOR` inside each partition:
`__or`, `__nand`, `__xor` and `__xnor`. They act in every partition of a list alike, so what they
compute is said of one partition.
-/

namespace CimSigmoid.Pim.Parallel

open Machine Mem Bits ParallelSimulator

variable {P W : Nat} [NeZero P] [NeZero W] {ι : Type}

/-- A cell that the caller gives or that is allocated. -/
def withCell (given : Option (Fin W)) (S : List (Fin P)) (body : Fin W → ParallelM P W ι Unit) :
    ParallelM P W ι Unit :=
  match given with
  | some c => body c
  | none => scratchOne S body

/-- The complement of `a`, which the caller gives or which is computed. -/
def withNot (given : Option (Fin W)) (a : Fin W) (S : List (Fin P))
    (body : Fin W → ParallelM P W ι Unit) : ParallelM P W ι Unit :=
  match given with
  | some c => body c
  | none => scratchOne S fun c => do
    initNot a c S
    body c

def alsoNot (z : Fin W) (notz : Option (Fin W)) (S : List (Fin P)) : ParallelM P W ι Unit :=
  match notz with
  | some c => initNot z c S
  | none => pure ()

def or (a b z : Fin W) (notz : Option (Fin W)) (S : List (Fin P)) : ParallelM P W ι Unit :=
  withCell notz S fun notz => do
    initNor a b notz S
    initNot notz z S

/-- `__nand`. Where it computes the complement of `a`, it does so in the output cell. -/
def nand (a b z : Fin W) (nota notb notz : Option (Fin W)) (S : List (Fin P)) :
    ParallelM P W ι Unit := do
  if nota.isNone then initNot a z S
  withNot notb b S fun notb => withCell notz S fun notz => do
    initNor (nota.getD z) notb notz S
    initNot notz z S

def xnor (a b z : Fin W) (notz : Option (Fin W)) (S : List (Fin P)) : ParallelM P W ι Unit := do
  scratch 3 S fun t => do
    initNor a b (t 0) S
    initNor (t 0) a (t 1) S
    initNor (t 0) b (t 2) S
    initNor (t 1) (t 2) z S
  alsoNot z notz S

/-! ## What they compute -/

section

variable {s : ParallelSimulator P W ι} {S : List (Fin P)} {a b z : Fin W}

omit [NeZero P] in
theorem Progression.ne_nil (hS : Progression S) : S ≠ [] := by
  obtain ⟨N, ps, i, n, st, h, hn, hst, hi, rfl⟩ := hS
  refine List.ne_nil_of_length_pos ?_
  rw [length_strided]
  exact hn

theorem ends_or {notz : Fin W} (hS : Progression S) (hab : a ≠ b) (han : a ≠ notz) (hbn : b ≠ notz)
    (hnz : notz ≠ z) :
    Ends (or a b z (some notz) S) s fun _ s' =>
      Step (fun c q => (c = z ∨ c = notz) ∧ q ∈ S) 0 (4, 4 * S.length) s s' ∧
      ∀ q ∈ S, ∀ r, s'.memory z q r = (s.memory a q r || s.memory b q r) ∧
        s'.memory notz q r = !(s.memory a q r || s.memory b q r) := by
  refine ends_seq (run_initNor hS hab han hbn) ?_
  refine ends_of_run (run_initNot hS hnz) ⟨⟨rfl, ?_⟩, fun q hq r => ?_⟩
  · refine ((Changes.refl.fill hS.ne_nil fun q hq => ?_).fill hS.ne_nil fun q hq => ?_).of_cost ?_
    · exact .inl ⟨.inr rfl, hq⟩
    · exact .inl ⟨.inl rfl, hq⟩
    · ext <;> simp
      omega
  · simp [hq, hnz]

theorem ends_nand (hS : Progression S) (hb : S ⊆ s.inter.banks) (hf : 2 ≤ s.inter.available)
    (hb' : Held s.inter S b) (hz : Held s.inter S z) (haz : a ≠ z) (hbz : b ≠ z) :
    Ends (nand a b z none none none S) s fun _ s' =>
      Step (fun c q => c = z ∧ q ∈ S) 2 (8, 8 * S.length) s s' ∧
      ∀ q ∈ S, ∀ r, s'.memory z q r = !(s.memory a q r && s.memory b q r) := by
  have h0 := hS.ne_nil
  refine ends_seq (run_initNot hS haz) ?_
  obtain ⟨s₁, hs₁⟩ : ∃ s₁, s₁ = s.fill S z (fun q r => !s.memory a q r) 2 := ⟨_, rfl⟩
  have hin : s₁.inter = s.inter := by rw [hs₁, fill_inter]
  have hstep₁ : Step (fun c q => c = z ∧ q ∈ S) 2 (2, 2 * S.length) s s₁ := by
    rw [hs₁]
    exact step_fill (fun q hq => ⟨rfl, hq⟩) h0 _ 2
  rw [← hs₁]
  refine Ends.mono (Q := fun _ s' => Step (fun c q => c = z ∧ q ∈ S) (1 + 1) (6, 6 * S.length) s₁ s' ∧
    ∀ q ∈ S, ∀ r, s'.memory z q r = !(s.memory a q r && s.memory b q r)) ?_ fun _ s' h =>
      ⟨(hstep₁.trans h.1).of_cost (by ext <;> simp; omega), h.2⟩
  unfold withNot
  refine ends_scratchOne (m := 1) (Q := fun mem => ∀ q ∈ S, ∀ r,
    mem z q r = !(s.memory a q r && s.memory b q r)) h0 (hin ▸ hb) (hin ▸ hf) fun nb hnb => ?_
  have hnbz : nb ≠ z := (show Held s₁.inter S z from hin ▸ hz).ne h0 hnb
  have hnbb : nb ≠ b := (show Held s₁.inter S b from hin ▸ hb').ne h0 hnb
  refine ends_seq (run_initNot hS hnbb.symm) ?_
  obtain ⟨s₂, hs₂⟩ : ∃ s₂, s₂ = (s₁.withInter (s₁.inter.alloc (Banked.block S [nb]))).fill S nb
    (fun q r => !(s₁.withInter (s₁.inter.alloc (Banked.block S [nb]))).memory b q r) 2 := ⟨_, rfl⟩
  have hin₂ : s₂.inter = s₁.inter.alloc (Banked.block S [nb]) := by rw [hs₂, fill_inter]; rfl
  have hstep₂ : Step (fun c q => c = z ∧ q ∈ S ∨ q ∈ S ∧ c = nb) 1 (2, 2 * S.length)
      (s₁.withInter (s₁.inter.alloc (Banked.block S [nb]))) s₂ := by
    rw [hs₂]
    exact step_fill (fun q hq => .inr ⟨hq, rfl⟩) h0 _ 2
  rw [← hs₂]
  unfold withCell
  refine Ends.mono (ends_scratchOne (m := 0) (w := (4, 4 * S.length))
    (T := fun c q => c = z ∧ q ∈ S) (Q := fun mem => ∀ q ∈ S, ∀ r,
      mem z q r = !(s.memory a q r && s.memory b q r)) h0 ?_ ?_ fun nz hnz => ?_) ?_
  · rw [hin₂, hin]
    exact hb
  · rw [hin₂, hin]
    exact available_alloc_block hf
  · have hnzz : nz ≠ z := (show Held s₂.inter S z from hin₂ ▸ hin ▸ hz.alloc).ne h0 hnz
    have hnznb : nz ≠ nb := (show Held s₂.inter S nb from hin₂ ▸ held_block List.mem_cons_self).ne h0 hnz
    refine ends_seq (run_initNor hS hnbz.symm hnzz.symm hnznb.symm) ?_
    refine ends_of_run (run_initNot hS hnzz) ⟨⟨rfl, ?_⟩, fun q hq r => ?_⟩
    · refine ((Changes.refl.fill h0 fun q hq => ?_).fill h0 fun q hq => ?_).of_cost ?_
      · exact .inl (.inr ⟨hq, rfl⟩)
      · exact .inl (.inl ⟨rfl, hq⟩)
      · ext <;> simp
        omega
    · simp [hq, hs₂, hs₁, hnbz, hnbz.symm, hbz]
  · rintro _ s' ⟨hstep, hq⟩
    exact ⟨(hstep₂.trans (hstep.mono (fun c q => .inl) (by omega))).of_cost
      (by ext <;> simp; omega), hq⟩

/-- `__xnor`; the result may replace an operand. -/
theorem ends_xnor (hS : Progression S) (hb : S ⊆ s.inter.banks) (hf : 3 ≤ s.inter.available)
    (ha : Held s.inter S a) (hb' : Held s.inter S b) (hz : Held s.inter S z) (hab : a ≠ b) :
    Ends (xnor a b z none S) s fun _ s' =>
      Step (fun c q => c = z ∧ q ∈ S) 3 (8, 8 * S.length) s s' ∧
      ∀ q ∈ S, ∀ r, s'.memory z q r = !(s.memory a q r ^^ s.memory b q r) := by
  have h0 := hS.ne_nil
  refine Ends.bind (ends_scratch (m := 0) (w := (8, 8 * S.length)) (T := fun c q => c = z ∧ q ∈ S)
    (Q := fun mem => ∀ q ∈ S, ∀ r, mem z q r = !(s.memory a q r ^^ s.memory b q r)) (by omega) h0 hb hf
    fun t ht => ?_) fun _ s' h => ends_pure h
  have hta := ht.ne h0 ha
  have htb := ht.ne h0 hb'
  have htz := ht.ne h0 hz
  have hat := fun i hi => (hta i hi).symm
  have hbt := fun i hi => (htb i hi).symm
  have hzt := fun i hi => (htz i hi).symm
  have htt := ht.eq_iff
  refine ends_seq (run_initNor hS hab (by simp [hat]) (by simp [hbt])) ?_
  refine ends_seq (run_initNor hS (by simp [hta]) (by simp [htt]) (by simp [hat])) ?_
  refine ends_seq (run_initNor hS (by simp [htb]) (by simp [htt]) (by simp [hbt])) ?_
  refine ends_of_run (run_initNor hS (by simp [htt]) (by simp [htz]) (by simp [htz])) ⟨⟨rfl, ?_⟩, ?_⟩
  · have hT : ∀ i < 3, ∀ q ∈ S, Reach (fun c q => (c = z ∧ q ∈ S) ∨ q ∈ S ∧ ∃ i < 3, t i = c)
        (s.inter.alloc (Banked.block S (listing 3 t))) 0 (t i) q :=
      fun i hi q hq => .inl (.inr ⟨hq, i, hi, rfl⟩)
    refine ((((Changes.refl.fill h0 (hT 0 (by omega))).fill h0 (hT 1 (by omega))).fill h0
      (hT 2 (by omega))).fill h0 fun q hq => .inl (.inl ⟨rfl, hq⟩)).of_cost ?_
    ext <;> simp
    omega
  · intro q hq r
    simp only [fill_memory, withInter_memory, hq, if_true, ne_eq, hat, hbt, hzt, htt,
      not_false_eq_true, Function.update_of_ne, Function.update_self, Nat.reduceLT,
      Nat.reduceEqDiff, reduceCtorEq]
    cases s.memory a q r <;> cases s.memory b q r <;> rfl

end

end CimSigmoid.Pim.Parallel
