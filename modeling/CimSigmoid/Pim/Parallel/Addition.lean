import CimSigmoid.Pim.Parallel.Sweeps
import CimSigmoid.Pim.Addition

/-!
# Fixed-point addition and subtraction over partitions

`fixedAddition` and `fixedSubtraction` of `parallel/AritPIM.py`. The carries of all partitions are
computed by the prefix operation, moved up by one partition, and added to the exclusive or of the
operands. The carry that comes in is taken in by the generate bit of the lowest partition, and so
the prefix operation does not see it.
-/

namespace CimSigmoid.Pim.Parallel

open Machine Mem Bits ParallelSimulator

variable {P W : Nat} [NeZero P] [NeZero W] {ι : Type}

/-- `cin_addr` and `cin_partition`: `None`, `-1` or an address, which is in the lowest partition
unless another is named. -/
inductive CarryIn (P W : Nat) where
  | zero
  | one
  | cell (c : Fin W) (p : Option (Fin P))

def CarryIn.bit (ps : Nat → Fin P) (mem : Fin W → Fin P → ι → Bool) : CarryIn P W → ι → Bool
  | .zero, _ => false
  | .one, _ => true
  | .cell c p, r => mem c (p.getD (ps 0)) r

def CarryIn.gates : CarryIn P W → Nat
  | .zero => 0
  | .one => 1
  | .cell _ _ => 5

/-- The propagate bits of a sum, their complements, and the complements of its generate bits. -/
def propagates (x y : Fin W) (S : List (Fin P)) : ParallelM P W ι (Fin W × Fin W × Fin W) := do
  let pbit ← mallocOne S
  let notpbit ← mallocOne S
  or x y pbit (some notpbit) S
  let notgbit ← mallocOne S
  nand x y notgbit none none none S
  pure (pbit, notpbit, notgbit)

/-- If carry-in and propagate at LSB, then set generate of LSB to one. An address of a carry-in also
has its complement computed, for later. -/
def CarryIn.enter (ps : Nat → Fin P) (pbit notpbit notgbit : Fin W) :
    CarryIn P W → ParallelM P W ι (Option (Fin W))
  | .zero => pure none
  | .one => do
    perform .not [pbit] [notgbit] [ps 0] [ps 0]
    pure none
  | .cell c p => do
    let temp ← mallocOne [ps 0]
    let notcin ← mallocOne [ps 0]
    initAcross .not [c] notcin (p.getD (ps 0)) (ps 0)
    initNor notpbit notcin temp [ps 0]
    perform .not [temp] [notgbit] [ps 0] [ps 0]
    freeOne temp [ps 0]
    pure (some notcin)

def CarryIn.place (ps : Nat → Fin P) (carry : Fin W) :
    CarryIn P W → Option (Fin W) → ParallelM P W ι Unit
  | .zero, _ => perform .init0 [] [carry] [ps 0] [ps 0]
  | .one, _ => perform .init1 [] [carry] [ps 0] [ps 0]
  | .cell _ _, some notcin => do
    perform .not [notcin] [carry] [ps 0] [ps 0]
    freeOne notcin [ps 0]
  | .cell _ _, none => failure

/-- `cout_addr` and `cout_partition`, which is the highest partition by default. -/
def carryOut (last : Fin P) (notgbit : Fin W) : Option (Fin W × Option (Fin P)) → ParallelM P W ι Unit
  | none => pure ()
  | some (c, p) => initAcross .not [notgbit] c last (p.getD last)

/-- The complement of the carry out of each partition, and what is kept of the carry-in. -/
def carries (N : Nat) (ps : Nat → Fin P) (x y : Fin W) (cin : CarryIn P W) :
    ParallelM P W ι (Fin W × Option (Fin W)) := do
  let (pbit, notpbit, notgbit) ← propagates x y (span N ps)
  let notcin ← cin.enter ps pbit notpbit notgbit
  lookahead N ps pbit notpbit notgbit
  freeOne pbit (span N ps)
  freeOne notpbit (span N ps)
  pure (notgbit, notcin)

/-- The carry into each partition: the carries are shifted by one. -/
def carryWord (N : Nat) (ps : Nat → Fin P) (cin : CarryIn P W) (notgbit : Fin W)
    (notcin : Option (Fin W)) : ParallelM P W ι (Fin W) := do
  let carry ← mallocOne (span N ps)
  perform .init1 [] [carry] (span N ps) (span N ps)
  cin.place ps carry notcin
  shiftOne .not [notgbit] carry N ps 0 1
  pure carry

def fixedAddition (N : Nat) (ps : Nat → Fin P) (x y z : Fin W) (cin : CarryIn P W)
    (cout : Option (Fin W × Option (Fin P))) : ParallelM P W ι Unit := do
  let (notgbit, notcin) ← carries N ps x y cin
  let carry ← carryWord N ps cin notgbit notcin
  carryOut (ps (N - 1)) notgbit cout
  freeOne notgbit (span N ps)
  xnor x y z none (span N ps)
  xnor z carry z none (span N ps)
  freeOne carry (span N ps)

def fixedSubtraction (N : Nat) (ps : Nat → Fin P) (x y z : Fin W)
    (cout : Option (Fin W × Option (Fin P))) : ParallelM P W ι Unit :=
  scratchOne (span N ps) fun noty => do
    initNot y noty (span N ps)
    fixedAddition N ps x noty z .one cout

/-! ## Generate and propagate -/

section

variable {s : ParallelSimulator P W ι} {S : List (Fin P)} {x y : Fin W}

def Apart (a b c : Fin W) : Prop := a ≠ b ∧ a ≠ c ∧ b ≠ c

theorem ends_propagates (hS : Progression S) (hb : S ⊆ s.inter.banks) (hf : 5 ≤ s.inter.available)
    (hx : Held s.inter S x) (hy : Held s.inter S y) (hxy : x ≠ y) :
    Ends (propagates x y S) s fun t s' =>
      Session (fun _ _ => False) 5 s [(S, t.2.2), (S, t.2.1), (S, t.1)] (12, 12 * S.length) s' ∧
      Apart t.1 t.2.1 t.2.2 ∧
      ∀ q ∈ S, ∀ r, s'.memory t.1 q r = (s.memory x q r || s.memory y q r) ∧
        s'.memory t.2.1 q r = !(s.memory x q r || s.memory y q r) ∧
        s'.memory t.2.2 q r = !(s.memory x q r && s.memory y q r) := by
  have h0 := hS.ne_nil
  have h := Session.start (T := fun _ _ => False) (k := 5) (s := s)
  refine Ends.bind (h.mallocOne hb (by simp) hf) ?_
  rintro p s₁ ⟨h₁, -, -⟩
  refine Ends.bind (h₁.mallocOne hb (by simp) hf) ?_
  rintro np s₂ ⟨h₂, -, hnp⟩
  have hpnp : np ≠ p := (h₁.own (by simp)).ne h0 hnp
  have hxnp := ((h₁.keeps hx).ne h0 hnp).symm
  have hynp := ((h₁.keeps hy).ne h0 hnp).symm
  refine Ends.bind (ends_or hS hxy hxnp hynp hpnp) ?_
  rintro _ s₃ ⟨hstep₃, hv₃⟩
  have hmine : ∀ c q, (c = p ∨ c = np) ∧ q ∈ S → ∃ e ∈ [(S, np), (S, p)], q ∈ e.1 ∧ c = e.2 := by
    rintro c q ⟨hc | hc, hq⟩
    · exact ⟨(S, p), by simp, hq, hc⟩
    · exact ⟨(S, np), by simp, hq, hc⟩
  have h₃ := h₂.step hstep₃ (fun c q hc => .inr (hmine c q hc)) (by simp)
  refine Ends.bind (h₃.mallocOne hb (by simp) hf) ?_
  rintro ng s₄ ⟨h₄, hm₄, hng⟩
  have hngp : ng ≠ p := (h₃.own (by simp)).ne h0 hng
  have hngnp : ng ≠ np := (h₃.own (by simp)).ne h0 hng
  have hxng := ((h₃.keeps hx).ne h0 hng).symm
  have hyng := ((h₃.keeps hy).ne h0 hng).symm
  refine Ends.bind (ends_nand hS (h₄.banks ▸ hb) (h₄.available (by simpa using hf)) (h₄.keeps hy)
    (h₄.own List.mem_cons_self) hxng hyng) ?_
  rintro _ s₅ ⟨hstep₅, hv₅⟩
  have h₅ := h₄.step hstep₅ (fun c q hc => .inr ⟨_, List.mem_cons_self, hc.2, hc.1⟩) (by simp)
  refine ends_pure ⟨h₅.of_cost (by ext <;> simp; omega), ⟨hpnp.symm, hngp.symm, hngnp.symm⟩,
    fun q hq r => ?_⟩
  have hp₅ := hstep₅.memory_eq (h₄.own (S := S) (c := p) (by simp) q hq) fun e => hngp e.1.symm
  have hnp₅ := hstep₅.memory_eq (h₄.own (S := S) (c := np) (by simp) q hq) fun e => hngnp e.1.symm
  have hx₄ := h₄.memory_eq (hx q hq) id
  have hy₄ := h₄.memory_eq (hy q hq) id
  have hx₂ := h₂.memory_eq (hx q hq) id
  have hy₂ := h₂.memory_eq (hy q hq) id
  rw [hp₅, hnp₅, hv₅ q hq r, hm₄, (hv₃ q hq r).1, (hv₃ q hq r).2, ← hm₄, hx₄, hy₄, hx₂, hy₂]
  exact ⟨rfl, rfl, rfl⟩

end

/-! ## The carry that comes in -/

def CarryIn.Kept (ps : Nat → Fin P) (b : ι → Bool) (mem : Fin W → Fin P → ι → Bool) :
    CarryIn P W → Option (Fin W) → Prop
  | .zero, d => d = none ∧ ∀ r, b r = false
  | .one, d => d = none ∧ ∀ r, b r = true
  | .cell _ _, some d => ∀ r, mem d (ps 0) r = !b r
  | .cell _ _, none => False

def keptCells (ps : Nat → Fin P) (d : Option (Fin W)) : List (List (Fin P) × Fin W) :=
  d.toList.map fun c => ([ps 0], c)

section

variable {s : ParallelSimulator P W ι} {ps : Nat → Fin P} {cin : CarryIn P W} {p np ng : Fin W}

theorem ends_enter (hb : ps 0 ∈ s.inter.banks) (hf : 2 ≤ s.inter.available)
    (hnp : Held s.inter [ps 0] np) (hng : Held s.inter [ps 0] ng) (hp : p ≠ ng)
    (hcin : ∀ c p, cin = .cell c p → ¬s.inter.Open (p.getD (ps 0)) c)
    (hnot : ∀ r, s.memory np (ps 0) r = !s.memory p (ps 0) r) :
    Ends (cin.enter ps p np ng) s fun d s' =>
      Session (fun c q => c = ng ∧ q = ps 0) 2 s (keptCells ps d) (cin.gates, cin.gates) s' ∧
      cin.Kept ps (cin.bit ps s.memory) s'.memory d ∧
      ∀ r, s'.memory ng (ps 0) r =
        (s.memory ng (ps 0) r && !(s.memory p (ps 0) r && cin.bit ps s.memory r)) := by
  have hS := progression_single (ps 0)
  cases cin with
  | zero => exact ends_pure ⟨.start, ⟨rfl, fun _ => rfl⟩, fun r => by simp [CarryIn.bit]⟩
  | one =>
    refine ends_seq (run_andNot hS hp) (ends_pure ⟨?_, ⟨rfl, fun _ => rfl⟩, fun r => ?_⟩)
    · exact (step_fill (fun q hq => ⟨rfl, List.mem_singleton.mp hq⟩) hS.ne_nil _ 1).session
    · simp [CarryIn.bit]
  | cell c pc =>
    have h := Session.start (T := fun c q => c = ng ∧ q = ps 0) (k := 2) (s := s)
    have hb' : [ps 0] ⊆ s.inter.banks := by simpa using hb
    refine Ends.bind (h.mallocOne hb' (by simp) hf) ?_
    rintro t s₁ ⟨h₁, hm₁, ht⟩
    refine Ends.bind (h₁.mallocOne hb' (by simp) hf) ?_
    rintro nc s₂ ⟨h₂, hm₂, hnc⟩
    have h0 := hS.ne_nil
    have hnct : nc ≠ t := (h₁.own (by simp)).ne h0 hnc
    have htnp : t ≠ np := hnp.ne h0 ht
    have htng : t ≠ ng := hng.ne h0 ht
    have hncnp : nc ≠ np := (h₁.keeps hnp).ne h0 hnc
    have hncng : nc ≠ ng := (h₁.keeps hng).ne h0 hnc
    have hcnc : pc.getD (ps 0) = ps 0 → c ≠ nc := by
      rintro e rfl
      have := h₁.not_open (hcin c pc rfl)
      rw [e] at this
      exact this (hnc (ps 0) (by simp))
    have hmine : ∀ d, d = t ∨ d = nc → ∀ q ∈ [ps 0], (d = ng ∧ q = ps 0) ∨
        ∃ e ∈ [([ps 0], nc), ([ps 0], t)], q ∈ e.1 ∧ d = e.2 := by
      rintro d (hd | hd) q hq
      · exact .inr ⟨([ps 0], t), by simp, hq, hd⟩
      · exact .inr ⟨([ps 0], nc), by simp, hq, hd⟩
    refine h₂.seq (run_initAcross (.not c) fun e => ⟨by simp, by simpa using (hcnc e).symm⟩) h0
      (hmine nc (.inr rfl)) (by simp) fun h₃ => ?_
    refine h₃.seq (run_initNor hS hncnp.symm htnp.symm hnct) h0 (hmine t (.inl rfl)) (by simp)
      fun h₄ => ?_
    refine h₄.seq (run_andNot hS htng) h0 (fun q hq => .inl ⟨rfl, List.mem_singleton.mp hq⟩) (by simp)
      fun h₅ => ?_
    refine Ends.bind (h₅.freeOne (A := [([ps 0], nc)]) rfl h0) ?_
    rintro _ s₆ ⟨h₆, hm₆⟩
    refine ends_pure ⟨h₆.of_cost (by ext <;> simp [CarryIn.gates]), fun r => ?_, fun r => ?_⟩
    · simp [hm₆, hm₂, hm₁, hncng, hnct, CarryIn.bit]
    · simp [hm₆, hm₂, hm₁, hncng.symm, hncnp.symm, htng.symm, hnot, CarryIn.bit]

variable {T : Fin W → Fin P → Prop} {s' : ParallelSimulator P W ι} {S : List (Fin P)} {k : Nat}
  {B : List (List (Fin P) × Fin W)} {w : Nat × Nat} {carry : Fin W} {d : Option (Fin W)} {b : ι → Bool}

omit [NeZero W] in
theorem Session.place (h : Session T k s ((S, carry) :: (keptCells ps d ++ B)) w s')
    (hk : 2 + B.length ≤ k) (hS : ps 0 ∈ S) (hd : cin.Kept ps b s'.memory d)
    (hne : ∀ c ∈ d, c ≠ carry) (hone : ∀ r, s'.memory carry (ps 0) r = true) :
    Ends (cin.place ps carry d) s' fun _ s'' =>
      Session T k s ((S, carry) :: B) (w + (1, 1)) s'' ∧
      (∀ r, s''.memory carry (ps 0) r = b r) ∧
      ∀ c q, ¬(c = carry ∧ q = ps 0) → s''.memory c q = s'.memory c q := by
  have hp := progression_single (ps 0)
  have hmine : ∀ q ∈ [ps 0], T carry q ∨
      ∃ e ∈ (S, carry) :: (keptCells ps d ++ B), q ∈ e.1 ∧ carry = e.2 := fun q hq =>
    .inr ⟨(S, carry), List.mem_cons_self, List.mem_singleton.mp hq ▸ hS, rfl⟩
  have hkeep : ∀ (v : Fin P → ι → Bool) n c q, ¬(c = carry ∧ q = ps 0) →
      (s'.fill [ps 0] carry v n).memory c q = s'.memory c q := fun v n c q hcq =>
    (changes_fill (T := fun c q => c = carry ∧ q = ps 0)
      (fun q hq => ⟨rfl, List.mem_singleton.mp hq⟩) hp.ne_nil v n).memory c q hcq
  cases cin with
  | zero =>
    obtain ⟨rfl, hb⟩ := hd
    refine (h.gate (run_set0 hp) hp.ne_nil hmine (by simpa [keptCells] using by omega)).mono ?_
    rintro _ _ ⟨rfl, h'⟩
    exact ⟨h', fun r => by simp [hb], hkeep _ _⟩
  | one =>
    obtain ⟨rfl, hb⟩ := hd
    refine (h.gate (run_set1 hp) hp.ne_nil hmine (by simpa [keptCells] using by omega)).mono ?_
    rintro _ _ ⟨rfl, h'⟩
    exact ⟨h', fun r => by simp [hb], hkeep _ _⟩
  | cell c pc =>
    cases d with
    | none => exact hd.elim
    | some nc =>
      have hnc := hne nc rfl
      refine h.seq (run_andNot hp hnc) hp.ne_nil hmine (by simpa [keptCells] using by omega) fun h₁ => ?_
      refine (h₁.freeOne (A := [(S, carry)]) rfl hp.ne_nil).mono ?_
      rintro _ s₂ ⟨h₂, hm₂⟩
      refine ⟨h₂, fun r => ?_, fun c q hcq => ?_⟩
      · have := hd r
        simp [hm₂, hone, this]
      · rw [hm₂]
        exact hkeep _ _ c q hcq

omit [NeZero P] [NeZero W] in
theorem CarryIn.Kept.congr {mem mem' : Fin W → Fin P → ι → Bool} (h : cin.Kept ps b mem d)
    (hd : ∀ c ∈ d, mem' c (ps 0) = mem c (ps 0)) : cin.Kept ps b mem' d := by
  cases cin with
  | zero => exact h
  | one => exact h
  | cell c pc =>
    cases d with
    | none => exact h
    | some nc =>
      intro r
      rw [hd nc rfl]
      exact h r

omit [NeZero P] [NeZero W] in
theorem length_keptCells : (keptCells ps d).length ≤ 1 := by cases d <;> simp [keptCells]

omit [NeZero P] [NeZero W] in
/-- What is kept is none of the other cells of the session. -/
theorem Session.kept_ne (h : Session T k s (keptCells ps d ++ B) w s') {e : List (Fin P) × Fin W}
    (he : e ∈ B) (h0 : ps 0 ∈ e.1) : ∀ c ∈ d, c ≠ e.2 := by
  intro c hc
  have hmem : ([ps 0], c) ∈ keptCells ps d :=
    List.mem_map.mpr ⟨c, Option.mem_toList.mpr hc, rfl⟩
  exact (List.pairwise_append.mp h.apart).2.2 _ hmem e he (ps 0) (List.mem_singleton_self _) h0

end

/-! ## The carries -/

section

variable {s : ParallelSimulator P W ι} {ps : Nat → Fin P} {N : Nat} {cin : CarryIn P W} {x y : Fin W}

/-- The carry into partition `t` of a sum. -/
def carryAt (ps : Nat → Fin P) (x y : Fin W) (c : ι → Bool) (mem : Fin W → Fin P → ι → Bool) (r : ι) :
    Nat → Bool := carryBit (fun j => mem x (ps j) r) (fun j => mem y (ps j) r) (c r)

/-- The energy of the prefix operation. -/
def lookaheadEnergy (N : Nat) : Nat := 7 * (upNodes N (levels N - 1) + (N - 1))

theorem ends_carries (h : Consecutive N ps) (hN : 2 ≤ N) (hb : span N ps ⊆ s.inter.banks)
    (hf : 5 ≤ s.inter.available) (hx : Held s.inter (span N ps) x) (hy : Held s.inter (span N ps) y)
    (hxy : x ≠ y) (hcin : ∀ c p, cin = .cell c p → ¬s.inter.Open (p.getD (ps 0)) c) :
    Ends (carries N ps x y cin) s fun t s' =>
      Session (fun _ _ => False) 5 s (keptCells ps t.2 ++ [(span N ps, t.1)])
        (5 + cin.gates + 14 * levels N, 12 * N + cin.gates + lookaheadEnergy N) s' ∧
      cin.Kept ps (cin.bit ps s.memory) s'.memory t.2 ∧
      ∀ t' < N, ∀ r, s'.memory t.1 (ps t') r =
        !carryAt ps x y (cin.bit ps s.memory) s.memory r (t' + 1) := by
  have hS := h.progression_span (by omega)
  have h0 := hS.ne_nil
  have hm0 : ps 0 ∈ span N ps := mem_span.mpr ⟨0, by omega, rfl⟩
  refine Ends.bind (ends_propagates hS hb hf hx hy hxy) ?_
  rintro ⟨p, np, ng⟩ s₁ ⟨h₁, ⟨hpnp, hpng, hnpng⟩, hv₁⟩
  have hlow : ∀ c, Held s₁.inter (span N ps) c → Held s₁.inter [ps 0] c := fun c hc q hq =>
    hc q (List.mem_singleton.mp hq ▸ hm0)
  have hnp : Held s₁.inter (span N ps) np := h₁.own (by simp)
  have hng : Held s₁.inter (span N ps) ng := h₁.own (by simp)
  refine Ends.bind (ends_enter (h₁.banks ▸ hb hm0) (h₁.available (by simpa using hf)) (hlow np hnp)
    (hlow ng hng) hpng (fun c pc e => h₁.not_open (hcin c pc e)) fun r => ?_) ?_
  · rw [(hv₁ _ hm0 r).1, (hv₁ _ hm0 r).2.1]
  rintro d s₂ ⟨h₂, hd₂, hv₂⟩
  have hbit : cin.bit ps s₁.memory = cin.bit ps s.memory := by
    funext r
    cases cin with
    | zero => rfl
    | one => rfl
    | cell c pc => exact congrFun (h₁.memory_eq (hcin c pc rfl) id) r
  rw [hbit] at hd₂ hv₂
  have h₂' := h₁.trans h₂ (fun c q hc => .inr ⟨(span N ps, ng), by simp, hc.2 ▸ hm0, hc.1⟩) (by simp)
  have hA : Carries N ps p np ng s₂.memory fun r => carryOf (fun j => s.memory x (ps j) r)
      (fun j => s.memory y (ps j) r) (cin.bit ps s.memory r) := by
    intro t ht r
    have hm : ps t ∈ span N ps := mem_span.mpr ⟨t, ht, rfl⟩
    obtain ⟨hp, hnp, hng⟩ := hv₁ (ps t) hm r
    rw [h₂.memory_eq (h₁.own (S := span N ps) (c := p) (by simp) _ hm) fun e => hpng e.1,
      h₂.memory_eq (h₁.own (S := span N ps) (c := np) (by simp) _ hm) fun e => hnpng e.1]
    refine ⟨hp, hnp, ?_⟩
    rcases Nat.eq_zero_or_pos t with rfl | ht0
    · rw [hv₂ r, hp, hng]
      simp [carryOf]
    · rw [h₂.memory_eq (h₁.own (S := span N ps) (c := ng) (by simp) _ hm) fun e =>
        absurd ((h.inj ht (by omega)).mp e.2) (by omega), hng]
      simp [carryOf, Nat.pos_iff_ne_zero.mp ht0]
  refine Ends.bind (ends_lookahead h hpnp hpng hnpng hA) ?_
  rintro _ s₃ ⟨hstep₃, hv₃⟩
  have hlen : (keptCells ps d).length ≤ 1 := length_keptCells
  have hmine : ∀ c q, (c = p ∨ c = np ∨ c = ng) ∧ q ∈ span N ps → ∃ e ∈ keptCells ps d ++
      [(span N ps, ng), (span N ps, np), (span N ps, p)], q ∈ e.1 ∧ c = e.2 := by
    rintro c q ⟨hc | hc | hc, hq⟩
    · exact ⟨(span N ps, p), by simp, hq, hc⟩
    · exact ⟨(span N ps, np), by simp, hq, hc⟩
    · exact ⟨(span N ps, ng), by simp, hq, hc⟩
  have h₃ := h₂'.step hstep₃ (fun c q hc => .inr (hmine c q hc)) (by simp; omega)
  refine Ends.bind (h₃.freeOne (A := keptCells ps d ++ [(span N ps, ng), (span N ps, np)]) (B := [])
    (by simp) h0) ?_
  rintro _ s₄ ⟨h₄, hm₄⟩
  refine Ends.bind (h₄.freeOne (A := keptCells ps d ++ [(span N ps, ng)]) (B := []) (by simp) h0) ?_
  rintro _ s₅ ⟨h₅, hm₅⟩
  have hL : 0 < levels N := Nat.clog_pos Nat.one_lt_two hN
  rw [List.append_nil] at h₅
  refine ends_pure ⟨h₅.of_cost ?_, hd₂.congr fun c hc => ?_, fun t ht r => ?_⟩
  · ext
    · simp
      omega
    · simp [length_span, lookaheadEnergy]
  · have hown : ¬s₂.inter.Open (ps 0) c := h₂'.own (S := [ps 0]) (List.mem_append_left _
      (List.mem_map.mpr ⟨c, Option.mem_toList.mpr hc, rfl⟩)) _ (List.mem_singleton_self _)
    rw [hm₅, hm₄, hstep₃.memory_eq hown]
    rintro ⟨e | e | e, -⟩
    · exact h₂'.kept_ne (e := (span N ps, p)) (by simp) hm0 c hc e
    · exact h₂'.kept_ne (e := (span N ps, np)) (by simp) hm0 c hc e
    · exact h₂'.kept_ne (e := (span N ps, ng)) (by simp) hm0 c hc e
  · rw [hm₅, hm₄, hv₃ t ht r]
    exact congrArg (!·) (generate_block t)

/-- The cells kept and the complement of the carries turn into the carries, one partition up. -/
theorem Session.carryWord {s₁ : ParallelSimulator P W ι} {w : Nat × Nat} {d : Option (Fin W)}
    {ng : Fin W} {b : ι → Bool} {C : ι → Nat → Bool}
    (h₁ : Session (fun _ _ => False) 5 s (keptCells ps d ++ [(span N ps, ng)]) w s₁)
    (h : Consecutive N ps) (hN : 3 ≤ N) (hb : span N ps ⊆ s.inter.banks)
    (hf : 5 ≤ s.inter.available) (hd : cin.Kept ps b s₁.memory d) (hC : ∀ r, b r = C r 0)
    (hv : ∀ t < N, ∀ r, s₁.memory ng (ps t) r = !C r (t + 1)) :
    Ends (carryWord N ps cin ng d) s₁ fun carry s' =>
      Session (fun _ _ => False) 5 s [(span N ps, carry), (span N ps, ng)] (w + (4, 2 * N)) s' ∧
      (∀ t < N, ∀ r, s'.memory carry (ps t) r = C r t) ∧
      ∀ t < N, s'.memory ng (ps t) = s₁.memory ng (ps t) := by
  have hS := h.progression_span (by omega)
  have h0 := hS.ne_nil
  have hm : ∀ t < N, ps t ∈ span N ps := fun t ht => mem_span.mpr ⟨t, ht, rfl⟩
  have hlen : (keptCells ps d).length ≤ 1 := length_keptCells
  refine Ends.bind (h₁.mallocOne hb (by simp; omega) hf) ?_
  rintro carry s₂ ⟨h₂, hm₂, hfresh⟩
  have hcng : carry ≠ ng := (h₁.own (S := span N ps) (by simp)).ne h0 hfresh
  have hdc : ∀ c ∈ d, c ≠ carry := by
    rintro c hc rfl
    exact h₁.own (S := [ps 0]) (List.mem_append_left _ (List.mem_map.mpr
      ⟨c, Option.mem_toList.mpr hc, rfl⟩)) _ (List.mem_singleton_self _) (hfresh _ (hm 0 (by omega)))
  refine h₂.seq (run_set1 hS) h0 (fun q hq => .inr ⟨_, List.mem_cons_self, hq, rfl⟩)
    (by simp; omega) fun h₃ => ?_
  refine Ends.bind (h₃.place (B := [(span N ps, ng)]) (by simp) (hm 0 (by omega))
    (hd.congr fun c hc => ?_) hdc fun r => ?_) ?_
  · rw [fill_memory, Function.update_of_ne (hdc c hc), hm₂]
  · rw [fill_memory, Function.update_self, if_pos (hm 0 (by omega))]
  rintro _ s₄ ⟨h₄, hv₄, hk₄⟩
  refine Ends.bind (ends_shiftOne (.not ng) h hN rfl (by simpa using hcng)) ?_
  rintro _ s₅ ⟨hstep₅, hv₅, hlow₅⟩
  have h₅ := h₄.step hstep₅ (fun c q hc => .inr ⟨_, List.mem_cons_self, hc.2, hc.1⟩) (by simp)
  have hng₄ : ∀ t < N, s₄.memory ng (ps t) = s₁.memory ng (ps t) := fun t ht => by
    rw [hk₄ _ _ fun e => hcng e.1.symm, fill_memory, Function.update_of_ne hcng.symm, hm₂]
  refine ends_pure ⟨h₅.of_cost ?_, fun t ht r => ?_, fun t ht => ?_⟩
  · rw [length_span, add_assoc, add_assoc]
    congr 1
    ext <;> simp
    omega
  · rcases t with _ | t
    · rw [hlow₅ 0 ht (.inl Nat.one_pos), hv₄ r, hC]
    · have hone : s₄.memory carry (ps (t + 1)) r = true := by
        rw [hk₄ _ _ fun e => absurd ((h.inj ht (by omega)).mp e.2) (by omega), fill_memory,
          Function.update_self, if_pos (hm _ ht)]
      have := hv₅ t ht r
      rw [Nat.add_comm 1 t, Nat.zero_add, hone] at this
      rw [this]
      simp [hng₄ t (by omega), hv t (by omega) r]
  · rw [hstep₅.memory_eq (h₄.own (S := span N ps) (by simp) _ (hm t ht)) fun e => hcng e.1.symm,
      hng₄ t ht]

end

/-! ## The sum -/

def outGates : Option (Fin W × Option (Fin P)) → Nat
  | none => 0
  | some _ => 2

def GoesOut (last : Fin P) (cout : Option (Fin W × Option (Fin P))) (c : Fin W) (q : Fin P) : Prop :=
  ∃ e ∈ cout, c = e.1 ∧ q = e.2.getD last

def Written (N : Nat) (ps : Nat → Fin P) (z : Fin W) (cout : Option (Fin W × Option (Fin P)))
    (c : Fin W) (q : Fin P) : Prop := c = z ∧ q ∈ span N ps ∨ GoesOut (ps (N - 1)) cout c q

omit [NeZero P] [NeZero W] in
theorem not_goesOut_none {last : Fin P} {c : Fin W} {q : Fin P} : ¬GoesOut last none c q := by
  rintro ⟨e, he, -⟩
  cases he

section

variable {T : Fin W → Fin P → Prop} {s s' : ParallelSimulator P W ι} {k : Nat} {w : Nat × Nat}
  {H : List (List (Fin P) × Fin W)} {last : Fin P} {ng : Fin W} {cout : Option (Fin W × Option (Fin P))}

omit [NeZero P] [NeZero W] in
theorem Session.carryOut (h : Session T k s H w s') (hk : H.length ≤ k)
    (hT : ∀ c q, GoesOut last cout c q → T c q) (hng : ∀ q, GoesOut last cout ng q → q ≠ last) :
    Ends (carryOut last ng cout) s' fun _ s'' =>
      Session T k s H (w + (outGates cout, outGates cout)) s'' ∧
      (∀ c q, GoesOut last cout c q → ∀ r, s''.memory c q r = !s'.memory ng last r) ∧
      ∀ c q, ¬GoesOut last cout c q → s''.memory c q = s'.memory c q := by
  cases cout with
  | none =>
    exact ends_pure ⟨h, fun c q hc => absurd hc not_goesOut_none, fun c q _ => rfl⟩
  | some e =>
    obtain ⟨c, p⟩ := e
    have hout : GoesOut last (some (c, p)) c (p.getD last) := ⟨(c, p), rfl, rfl, rfl⟩
    refine (h.gate (S := [p.getD last]) (o := c) (run_initAcross (.not ng) fun e =>
      ⟨by simp, fun hc => ?_⟩) (by simp) (fun q hq => .inl ?_) hk).mono ?_
    · obtain rfl := List.mem_singleton.mp hc
      exact hng _ hout e.symm
    · exact List.mem_singleton.mp hq ▸ hT _ _ hout
    · rintro _ _ ⟨rfl, h'⟩
      refine ⟨h', ?_, fun d q hd => ?_⟩
      · rintro _ _ ⟨e, he, rfl, rfl⟩ r
        obtain rfl := Option.mem_some_iff.mp he
        simp
      · refine (changes_fill (T := GoesOut last (some (c, p))) (fun q hq => ?_) (by simp) _ 2).memory
          d q hd
        exact List.mem_singleton.mp hq ▸ hout

end

section

variable {s : ParallelSimulator P W ι} {ps : Nat → Fin P} {N : Nat} {cin : CarryIn P W} {x y z : Fin W}
  {cout : Option (Fin W × Option (Fin P))}

/-- What an addition needs of its cells. The result may replace an operand, and the carry that comes
in. -/
structure Summands (s : ParallelSimulator P W ι) (N : Nat) (ps : Nat → Fin P) (x y z : Fin W)
    (cin : CarryIn P W) (cout : Option (Fin W × Option (Fin P))) : Prop where
  line : Consecutive N ps
  banks : span N ps ⊆ s.inter.banks
  heldX : Held s.inter (span N ps) x
  heldY : Held s.inter (span N ps) y
  heldZ : Held s.inter (span N ps) z
  carryIn : ∀ c p, cin = .cell c p → ¬s.inter.Open (p.getD (ps 0)) c
  carryOut : ∀ c q, GoesOut (ps (N - 1)) cout c q →
    ¬s.inter.Open q c ∧ (q ∈ span N ps → c ≠ x ∧ c ≠ y ∧ c ≠ z)

theorem ends_fixedAddition (hN : 3 ≤ N) (hf : 5 ≤ s.inter.available)
    (h : Summands s N ps x y z cin cout) (hxy : x ≠ y) :
    Ends (fixedAddition N ps x y z cin cout) s fun _ s' =>
      Step (Written N ps z cout) 5 (14 * levels N + 25 + (cin.gates + outGates cout),
        30 * N + lookaheadEnergy N + (cin.gates + outGates cout)) s s' ∧
      (∀ t < N, ∀ r, s'.memory z (ps t) r = ((s.memory x (ps t) r ^^ s.memory y (ps t) r) ^^
        carryAt ps x y (cin.bit ps s.memory) s.memory r t)) ∧
      ∀ c q, GoesOut (ps (N - 1)) cout c q → ∀ r,
        s'.memory c q r = carryAt ps x y (cin.bit ps s.memory) s.memory r N := by
  have hS := h.line.progression_span (by omega)
  have h0 := hS.ne_nil
  have hm : ∀ t < N, ps t ∈ span N ps := fun t ht => mem_span.mpr ⟨t, ht, rfl⟩
  refine Ends.bind (ends_carries h.line (by omega) h.banks hf h.heldX h.heldY hxy h.carryIn) ?_
  rintro ⟨ng, d⟩ s₁ ⟨h₁, hd₁, hv₁⟩
  refine Ends.bind (h₁.carryWord (C := carryAt ps x y (cin.bit ps s.memory) s.memory) h.line hN h.banks
    hf hd₁ (fun r => rfl) hv₁) ?_
  rintro carry s₅ ⟨h₅, hcarry, hng₅⟩
  refine Ends.bind ((h₅.mono (U := Written N ps z cout) fun _ _ => False.elim).carryOut (by simp)
    (fun c q hc => .inr hc) fun q hq e => ?_) ?_
  · obtain rfl := e
    exact (h.carryOut _ _ hq).1 (h₅.mine (span N ps, ng) (by simp) _ (hm _ (by omega))).1
  rintro _ s₆ ⟨h₆, hout₆, hk₆⟩
  refine Ends.bind (h₆.freeOne (A := [(span N ps, carry)]) (B := []) rfl h0) ?_
  rintro _ s₇ ⟨h₇, hm₇⟩
  have hheld : ∀ c, Held s.inter (span N ps) c → Held s₇.inter (span N ps) c := fun c hc => h₇.keeps hc
  have hcar₇ : Held s₇.inter (span N ps) carry := h₇.own (by simp)
  have hopen : ∀ q ∈ span N ps, s.inter.Open q carry := fun q hq =>
    (h₅.mine (span N ps, carry) (by simp) q hq).1
  have hzc : z ≠ carry := (h.heldZ.ne h0 hopen).symm
  refine Ends.bind (ends_xnor hS (h₇.banks ▸ h.banks) (h₇.available (by simp; omega)) (hheld x h.heldX)
    (hheld y h.heldY) (hheld z h.heldZ) hxy) ?_
  rintro _ s₈ ⟨hstep₈, hv₈⟩
  have h₈ := h₇.step hstep₈ (fun c q hc => .inl (.inl hc)) (by simp)
  refine Ends.bind (ends_xnor hS (h₈.banks ▸ h.banks) (h₈.available (by simp; omega)) (h₈.keeps h.heldZ)
    (h₈.own (by simp)) (h₈.keeps h.heldZ) hzc) ?_
  rintro _ s₉ ⟨hstep₉, hv₉⟩
  have h₉ := h₈.step hstep₉ (fun c q hc => .inl (.inl hc)) (by simp)
  refine (h₉.freeOne (A := []) (B := []) rfl h0).mono ?_
  rintro _ s' ⟨h', hm'⟩
  refine ⟨h'.finish.of_cost ?_, fun t ht r => ?_, fun c q hc r => ?_⟩
  · rw [length_span]
    ext <;> simp <;> omega
  · have hxy₇ : ∀ c, Held s.inter (span N ps) c → (∀ q ∈ span N ps, ¬GoesOut (ps (N - 1)) cout c q) →
        s₇.memory c (ps t) = s.memory c (ps t) := fun c hc hn => by
      rw [hm₇, hk₆ _ _ (hn _ (hm t ht)), h₅.memory_eq (hc _ (hm t ht)) id]
    have hc₈ : s₈.memory carry (ps t) = s₅.memory carry (ps t) := by
      rw [hstep₈.memory_eq (hcar₇ _ (hm t ht)) fun e => hzc e.1.symm, hm₇, hk₆ _ _ fun e => ?_]
      exact (h.carryOut _ _ e).1 (hopen _ (hm t ht))
    rw [hm', hv₉ _ (hm t ht) r, hv₈ _ (hm t ht) r, hc₈, hcarry t ht r,
      hxy₇ x h.heldX fun q hq e => ((h.carryOut _ _ e).2 hq).1 rfl,
      hxy₇ y h.heldY fun q hq e => ((h.carryOut _ _ e).2 hq).2.1 rfl]
    generalize carryAt ps x y (cin.bit ps s.memory) s.memory r t = b
    cases b <;> simp
  · have hzq : ¬(c = z ∧ q ∈ span N ps) := fun e => ((h.carryOut _ _ hc).2 e.2).2.2 e.1
    have hno := (h.carryOut _ _ hc).1
    rw [hm', hstep₉.memory_eq (h₈.not_open hno) hzq, hstep₈.memory_eq (h₇.not_open hno) hzq, hm₇,
      hout₆ c q hc r, hng₅ (N - 1) (by omega), hv₁ (N - 1) (by omega) r, Bool.not_not,
      Nat.sub_add_cancel (by omega)]

/-- An operation has left `v` in `z` and `carry` where the carry goes out, at the cost `w`, and else only
used intermediate cells, which it has given back. -/
structure Leaves (N : Nat) (ps : Nat → Fin P) (z : Fin W) (cout : Option (Fin W × Option (Fin P)))
    (v : ι → Nat) (carry : ι → Bool) (w : Nat × Nat) (s s' : ParallelSimulator P W ι) : Prop where
  result : ∀ r, num N ps z s'.memory r = v r
  carryOut : ∀ c q, GoesOut (ps (N - 1)) cout c q → ∀ r, s'.memory c q r = carry r
  cost : s'.cost = s.cost + w
  inter : s'.inter = s.inter
  frame : ∀ c q, ¬s.inter.Open q c → ¬Written N ps z cout c q → s'.memory c q = s.memory c q

omit [NeZero P] [NeZero W] in
theorem Step.leaves {k : Nat} {w : Nat × Nat} {v : ι → Nat} {carry : ι → Bool}
    {s' : ParallelSimulator P W ι} (h : Step (Written N ps z cout) k w s s')
    (hv : ∀ r, num N ps z s'.memory r = v r)
    (hc : ∀ c q, GoesOut (ps (N - 1)) cout c q → ∀ r, s'.memory c q r = carry r) :
    Leaves N ps z cout v carry w s s' where
  result := hv
  carryOut := hc
  cost := h.changes.cost
  inter := h.inter
  frame _ _ := h.memory_eq

omit [NeZero P] [NeZero W] in
/-- The bits of a sum are its number. -/
theorem num_sum {c : ι → Bool} {mem mem' : Fin W → Fin P → ι → Bool} {r : ι}
    (h : ∀ t < N, mem' z (ps t) r =
      ((mem x (ps t) r ^^ mem y (ps t) r) ^^ carryAt ps x y c mem r t)) :
    num N ps z mem' r + 2 ^ N * (carryAt ps x y c mem r N).toNat =
      num N ps x mem r + num N ps y mem r + (c r).toNat := by
  rw [num, bitsValue_congr h]
  exact bitsValue_sum N

/-- **`fixedAddition` over partitions adds**: no gate breaks the minimal model and no allocation
fails, the carry out is that of the sum, and the cycles grow with the logarithm of the width. -/
theorem fixedAddition_adds (hN : 3 ≤ N) (hf : 5 ≤ s.inter.available)
    (h : Summands s N ps x y z cin cout) (hxy : x ≠ y) :
    Ends (fixedAddition N ps x y z cin cout) s fun _ s' =>
      Leaves N ps z cout
        (fun r => (num N ps x s.memory r + num N ps y s.memory r +
          (cin.bit ps s.memory r).toNat) % 2 ^ N)
        (fun r => decide (2 ^ N ≤ num N ps x s.memory r + num N ps y s.memory r +
          (cin.bit ps s.memory r).toNat))
        (14 * levels N + 25 + (cin.gates + outGates cout),
          30 * N + lookaheadEnergy N + (cin.gates + outGates cout)) s s' := by
  refine (ends_fixedAddition hN hf h hxy).mono ?_
  rintro _ s' ⟨hstep, hsum, hout⟩
  have hnum := fun r => mod_and_carry (bitsValue_lt N _) (num_sum fun t ht => hsum t ht r)
  refine hstep.leaves (fun r => (hnum r).1) fun c q hc r => ?_
  rw [hout c q hc r]
  exact (hnum r).2

omit [NeZero P] [NeZero W] in
theorem goesOut_loaded {a : Nat} {m : Nat → Nat → Bool} {c : Fin W} {p : Option (Fin P)} {last : Fin P}
    (hc : c < a) (hx : c ≠ x) (hy : c ≠ y) (hz : c ≠ z) (d : Fin W) (q : Fin P)
    (h : GoesOut last (some (c, p)) d q) :
    ¬(loaded a m : ParallelSimulator P W ι).inter.Open q d ∧
      (q ∈ span N ps → d ≠ x ∧ d ≠ y ∧ d ≠ z) := by
  obtain ⟨e, he, rfl, rfl⟩ := h
  obtain rfl := Option.mem_some_iff.mp he
  exact ⟨not_open_allocator hc, fun _ => ⟨hx, hy, hz⟩⟩

theorem fixedAddition_adds_seven :
    Ends (fixedAddition 3 partitions 0 1 2 .one (some (3, none)))
      (loaded 4 (fun c _ => c < 2) : ParallelSimulator 3 9 Unit) fun _ s' =>
        Leaves 3 partitions 2 (some (3, none)) (fun _ => 7) (fun _ => true)
          (14 * levels 3 + 25 + 3, 30 * 3 + lookaheadEnergy 3 + 3) (loaded 4 fun c _ => c < 2) s' := by
  have h : Summands (loaded 4 (fun c _ => c < 2) : ParallelSimulator 3 9 Unit) 3 partitions 0 1 2 .one
      (some (3, none)) :=
    ⟨consecutive_partitions (by decide), by decide, fun _ _ => not_open_allocator (by decide),
      fun _ _ => not_open_allocator (by decide), fun _ _ => not_open_allocator (by decide),
      fun _ _ h => (by cases h),
      goesOut_loaded (by decide) (by decide) (by decide) (by decide)⟩
  have hx : ∀ r, num 3 partitions 0 (loaded 4 (fun c _ => c < 2) : ParallelSimulator 3 9 Unit).memory r =
      7 := by decide
  have hy : ∀ r, num 3 partitions 1 (loaded 4 (fun c _ => c < 2) : ParallelSimulator 3 9 Unit).memory r =
      7 := by decide
  have hsum := fixedAddition_adds (by decide) (by decide) h (by decide)
  simp only [hx, hy, CarryIn.bit, CarryIn.gates, outGates, Bool.toNat_true] at hsum
  exact hsum

/-! ## The difference -/

theorem ends_fixedSubtraction (hN : 3 ≤ N) (hf : 6 ≤ s.inter.available)
    (h : Summands s N ps x y z .one cout) :
    Ends (fixedSubtraction N ps x y z cout) s fun _ s' =>
      Step (Written N ps z cout) 6 (14 * levels N + 28 + outGates cout,
        32 * N + lookaheadEnergy N + 1 + outGates cout) s s' ∧
      ∃ co : ι → Bool, (∀ c q, GoesOut (ps (N - 1)) cout c q → ∀ r, s'.memory c q r = co r) ∧
        ∀ r, num N ps z s'.memory r + num N ps y s.memory r + 2 ^ N * (co r).toNat =
          num N ps x s.memory r + 2 ^ N := by
  have hS := h.line.progression_span (by omega)
  have h0 := hS.ne_nil
  refine (ends_scratchOne (m := 5) (T := Written N ps z cout)
    (w := (14 * levels N + 28 + outGates cout, 32 * N + lookaheadEnergy N + 1 + outGates cout))
    (Q := fun mem => ∃ co : ι → Bool,
      (∀ c q, GoesOut (ps (N - 1)) cout c q → ∀ r, mem c q r = co r) ∧
      ∀ r, num N ps z mem r + num N ps y s.memory r + 2 ^ N * (co r).toNat =
        num N ps x s.memory r + 2 ^ N) h0 h.banks hf fun noty hnoty => ?_)
  have hxn : noty ≠ x := h.heldX.ne h0 hnoty
  have hyn : noty ≠ y := h.heldY.ne h0 hnoty
  refine ends_seq (run_initNot hS hyn.symm) ?_
  obtain ⟨s₁, hs₁⟩ : ∃ s₁, s₁ = s.withInter (s.inter.alloc (Banked.block (span N ps) [noty])) :=
    ⟨_, rfl⟩
  have hin : s₁.inter = s.inter.alloc (Banked.block (span N ps) [noty]) := by rw [hs₁]; rfl
  rw [← hs₁]
  obtain ⟨s₂, hs₂⟩ : ∃ s₂, s₂ = s₁.fill (span N ps) noty (fun q r => !s₁.memory y q r) 2 := ⟨_, rfl⟩
  have hin₂ : s₂.inter = s.inter.alloc (Banked.block (span N ps) [noty]) := by rw [hs₂, fill_inter, hin]
  have hstep₂ : Step (fun c q => q ∈ span N ps ∧ c = noty) 5 (2, 2 * N) s₁ s₂ := by
    have := step_fill (s := s₁) (k := 5) (T := fun c q => q ∈ span N ps ∧ c = noty) (S := span N ps)
      (o := noty) (fun q hq => ⟨hq, rfl⟩) h0 (fun q r => !s₁.memory y q r) 2
    rwa [length_span, ← hs₂] at this
  have hheld : ∀ c, Held s.inter (span N ps) c → Held s₂.inter (span N ps) c := fun c hc => by
    rw [hin₂]
    exact hc.alloc
  have h₂ : Summands s₂ N ps x noty z .one cout := by
    refine ⟨h.line, hin₂ ▸ h.banks, hheld x h.heldX, ?_, hheld z h.heldZ, fun c p e => (by cases e),
      fun c q hc => ⟨?_, fun hq => ⟨((h.carryOut c q hc).2 hq).1, ?_, ((h.carryOut c q hc).2 hq).2.2⟩⟩⟩
    · rw [hin₂]
      exact held_block List.mem_cons_self
    · rw [hin₂]
      exact fun ho => (h.carryOut c q hc).1 ho.of_alloc
    · rintro rfl
      exact (h.carryOut _ q hc).1 (hnoty q hq)
  rw [← hs₂]
  refine (ends_fixedAddition hN ?_ h₂ hxn.symm).mono ?_
  · rw [hin₂]
    exact available_alloc_block hf
  · rintro _ s' ⟨hstep, hsum, hout⟩
    refine ⟨((hstep₂.mono (fun c q => .inr) (Nat.le_refl 5)).trans (hstep.mono (fun c q => .inl)
      (Nat.le_refl 5))).of_cost ?_, fun r => carryAt ps x noty (CarryIn.bit ps s₂.memory .one) s₂.memory r N,
      hout, fun r => ?_⟩
    · ext <;> simp [CarryIn.gates] <;> omega
    · have hn := num_sum fun t ht => hsum t ht r
      have hx₂ : num N ps x s₂.memory r = num N ps x s.memory r := by
        simp [num, hs₂, hs₁, hxn.symm]
      have hy₂ : num N ps noty s₂.memory r = bitsValue N fun j => !s.memory y (ps j) r := by
        refine bitsValue_congr fun j hj => ?_
        simp [hs₂, hs₁, mem_span.mpr ⟨j, hj, rfl⟩]
      have hnot := bitsValue_not N fun j => s.memory y (ps j) r
      rw [hx₂, hy₂] at hn
      simp only [CarryIn.bit, Bool.toNat_true] at hn ⊢
      simp only [num] at hn ⊢
      omega

/-- **`fixedSubtraction` over partitions subtracts**, and its carry out says that it did not borrow. -/
theorem fixedSubtraction_subtracts (hN : 3 ≤ N) (hf : 6 ≤ s.inter.available)
    (h : Summands s N ps x y z .one cout) :
    Ends (fixedSubtraction N ps x y z cout) s fun _ s' =>
      Leaves N ps z cout
        (fun r => (num N ps x s.memory r + 2 ^ N - num N ps y s.memory r) % 2 ^ N)
        (fun r => decide (num N ps y s.memory r ≤ num N ps x s.memory r))
        (14 * levels N + 28 + outGates cout, 32 * N + lookaheadEnergy N + 1 + outGates cout) s s' := by
  refine (ends_fixedSubtraction hN hf h).mono ?_
  rintro _ s' ⟨hstep, co, hout, hsum⟩
  have hnum := fun r => mod_and_noBorrow (bitsValue_lt N _) (bitsValue_lt N _) (hsum r)
  refine hstep.leaves (fun r => (hnum r).1) fun c q hc r => ?_
  rw [hout c q hc r]
  exact (hnum r).2

theorem fixedSubtraction_subtracts_borrow :
    Ends (fixedSubtraction 3 partitions 0 1 2 (some (3, none)))
      (loaded 4 (fun c q => (c == 0) == (q == 0)) : ParallelSimulator 3 10 Unit) fun _ s' =>
        Leaves 3 partitions 2 (some (3, none)) (fun _ => 3) (fun _ => false)
          (14 * levels 3 + 28 + 2, 32 * 3 + lookaheadEnergy 3 + 1 + 2)
          (loaded 4 fun c q => (c == 0) == (q == 0)) s' := by
  have h : Summands (loaded 4 (fun c q => (c == 0) == (q == 0)) : ParallelSimulator 3 10 Unit) 3
      partitions 0 1 2 .one (some (3, none)) :=
    ⟨consecutive_partitions (by decide), by decide, fun _ _ => not_open_allocator (by decide),
      fun _ _ => not_open_allocator (by decide), fun _ _ => not_open_allocator (by decide),
      fun _ _ h => (by cases h),
      goesOut_loaded (by decide) (by decide) (by decide) (by decide)⟩
  have hx : ∀ r, num 3 partitions 0
      (loaded 4 (fun c q => (c == 0) == (q == 0)) : ParallelSimulator 3 10 Unit).memory r = 1 := by decide
  have hy : ∀ r, num 3 partitions 1
      (loaded 4 (fun c q => (c == 0) == (q == 0)) : ParallelSimulator 3 10 Unit).memory r = 6 := by decide
  have hdiff := fixedSubtraction_subtracts (by decide) (by decide) h
  simp only [hx, hy] at hdiff
  exact hdiff

end

end CimSigmoid.Pim.Parallel
