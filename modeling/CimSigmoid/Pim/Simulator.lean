import CimSigmoid.Machine.Program
import CimSigmoid.Mem.FirstFit
import CimSigmoid.Bits.Value
import Mathlib.Data.List.GetD

/-!
# The bit-serial simulator

`serial/simulator.py` of AritPIM-master: one array of `cols` columns, every row of which
(`ι`) does the same gates at the same time. A gate reads whole columns, takes one cycle and
fails when its columns overlap; logic gates are ANDed with what the output column held.
The arithmetic of `serial/AritPIM.py` draws its intermediate columns from an
`IntermediateAllocator`, kept here beside the simulator it allocates for.

An address array is a function `Nat → Fin cols` with its length beside it, so that a slice
or a concatenation is a function too; `num` is the number a row holds in an array. The log
of the simulator is left out.

`Step W k n` is what an operation does beside its result: it gives back every intermediate
column, changes `W` and the first `k` free columns only, and takes `n` cycles.
-/

namespace CimSigmoid.Pim

open Machine Mem Bits

inductive GateType where
  | not
  | nor
  | init0
  | init1

/-- `SerialSimulator`, with the allocator that the running operation was given. -/
structure SerialSimulator (cols : Nat) (ι : Type) where
  memory : Fin cols → ι → Bool
  latency : Nat
  maxUsed : Nat
  inter : Pool (Fin cols)

/-- Operations on the simulator; an assertion that does not hold ends them. -/
abbrev SerialM (cols : Nat) (ι A : Type) := Prog (SerialSimulator cols ι) A

namespace SerialSimulator

variable {cols : Nat} {ι : Type}

def put (s : SerialSimulator cols ι) (o : Fin cols) (v : ι → Bool) (n : Nat) :
    SerialSimulator cols ι :=
  { s with
    memory := Function.update s.memory o v
    latency := s.latency + n
    maxUsed := max s.maxUsed o }

def not (s : SerialSimulator cols ι) (a o : Fin cols) : SerialSimulator cols ι :=
  s.put o (fun r => !s.memory a r) 2

def nor (s : SerialSimulator cols ι) (a b o : Fin cols) : SerialSimulator cols ι :=
  s.put o (fun r => !(s.memory a r || s.memory b r)) 2

def withInter (s : SerialSimulator cols ι) (P : Pool (Fin cols)) : SerialSimulator cols ι :=
  { s with inter := P }

section

variable (s : SerialSimulator cols ι) (a b o : Fin cols) (v v' : ι → Bool) (n m : Nat)
  (P P' : Pool (Fin cols))

@[simp] theorem put_memory : (s.put o v n).memory = Function.update s.memory o v := rfl
@[simp] theorem put_inter : (s.put o v n).inter = s.inter := rfl
@[simp] theorem not_memory :
    (s.not a o).memory = Function.update s.memory o fun r => !s.memory a r := rfl
@[simp] theorem not_inter : (s.not a o).inter = s.inter := rfl
@[simp] theorem nor_memory :
    (s.nor a b o).memory = Function.update s.memory o fun r => !(s.memory a r || s.memory b r) := rfl
@[simp] theorem nor_inter : (s.nor a b o).inter = s.inter := rfl
@[simp] theorem withInter_memory : (s.withInter P).memory = s.memory := rfl
@[simp] theorem withInter_inter : (s.withInter P).inter = P := rfl
@[simp] theorem withInter_withInter : (s.withInter P).withInter P' = s.withInter P' := rfl
@[simp] theorem withInter_self : s.withInter s.inter = s := rfl

theorem put_put : (s.put o v n).put o v' m = s.put o v' (n + m) := by
  simp [put, Nat.add_assoc]

end

end SerialSimulator

open SerialSimulator

variable {cols : Nat} {ι : Type}

def perform (gateType : GateType) (inputs outputs : List (Fin cols)) : SerialM cols ι Unit := do
  check (∀ c ∈ inputs, c ∉ outputs)
  check inputs.Nodup
  check outputs.Nodup
  match gateType, inputs, outputs with
  | .not, a :: _, o :: _ =>
    modify fun s => s.put o (fun r => s.memory o r && !s.memory a r) 1
  | .nor, a :: b :: _, o :: _ =>
    modify fun s => s.put o (fun r => s.memory o r && !(s.memory a r || s.memory b r)) 1
  | .init0, _, o :: _ => modify fun s => s.put o (fun _ => false) 1
  | .init1, _, o :: _ => modify fun s => s.put o (fun _ => true) 1
  | _, _, _ => failure

def initNot (a o : Fin cols) : SerialM cols ι Unit := do
  perform .init1 [] [o]
  perform .not [a] [o]

def initNor (a b o : Fin cols) : SerialM cols ι Unit := do
  perform .init1 [] [o]
  perform .nor [a, b] [o]

def listing (k : Nat) (t : Nat → Fin cols) : List (Fin cols) := (List.range k).map t

def malloc [NeZero cols] (k : Nat) : SerialM cols ι (Nat → Fin cols) := do
  check (1 ≤ k)
  let s ← get
  let allocation := s.inter.first k
  check (allocation.length = k)
  set (s.withInter (s.inter.alloc allocation))
  pure fun i => allocation.getD i 0

/-- `free` of an array: a column that the allocator does not have is no key of its
dictionary. -/
def free (k : Nat) (t : Nat → Fin cols) : SerialM cols ι Unit := do
  let s ← get
  check (∀ c ∈ listing k t, c ∈ s.inter.cells)
  set (s.withInter (s.inter.release (listing k t)))

/-- `malloc(1)`, which gives an address and no array. -/
def mallocOne [NeZero cols] : SerialM cols ι (Fin cols) := do
  let t ← malloc 1
  pure (t 0)

def freeOne (c : Fin cols) : SerialM cols ι Unit := free 1 fun _ => c

def scratch [NeZero cols] (k : Nat) (body : (Nat → Fin cols) → SerialM cols ι Unit) :
    SerialM cols ι Unit := do
  let t ← malloc k
  body t
  free k t

def scratchOne [NeZero cols] (body : Fin cols → SerialM cols ι Unit) : SerialM cols ι Unit :=
  scratch 1 fun t => body (t 0)

/-- The number that row `r` holds in an array. -/
def num (N : Nat) (x : Nat → Fin cols) (m : Fin cols → ι → Bool) (r : ι) : Nat :=
  bitsValue N fun i => m (x i) r

def Held (s : SerialSimulator cols ι) (N : Nat) (x : Nat → Fin cols) : Prop :=
  ∀ i < N, x i ∉ s.inter.free

def Distinct (N : Nat) (x : Nat → Fin cols) : Prop := ∀ i < N, ∀ j < N, x i = x j → i = j

/-- The first `m` columns of `x`, filled up with `zero`. -/
def padded (m : Nat) (x : Nat → Fin cols) (zero : Fin cols) (i : Nat) : Fin cols :=
  if i < m then x i else zero

def dropped (m : Nat) (x : Nat → Fin cols) (i : Nat) : Fin cols := x (m + i)

section

variable {s : SerialSimulator cols ι} {mem : Fin cols → ι → Bool} {m n : Nat}
  {x : Nat → Fin cols} {zero : Fin cols}

theorem num_lt {r : ι} : num n x mem r < 2 ^ n := bitsValue_lt ..

theorem num_padded (hmn : m ≤ n) {r : ι} (h0 : mem zero r = false) :
    num n (padded m x zero) mem r = num m x mem r := by
  rw [num, bitsValue_fill hmn fun i hi _ => by rw [padded, if_neg (by omega), h0]]
  exact bitsValue_congr fun i hi => by rw [padded, if_pos hi]

theorem num_add (m n : Nat) (x : Nat → Fin cols) (mem : Fin cols → ι → Bool) (r : ι) :
    num (m + n) x mem r = num m x mem r + 2 ^ m * num n (dropped m x) mem r := bitsValue_add ..

theorem held_padded (hx : Held s m x) (h0 : zero ∉ s.inter.free) : Held s n (padded m x zero) := by
  intro i hi
  unfold padded
  split
  · exact hx i ‹_›
  · exact h0

theorem Held.dropped (hx : Held s (m + n) x) : Held s n (dropped m x) :=
  fun i hi => hx (m + i) (by omega)

theorem Distinct.dropped (hx : Distinct (m + n) x) : Distinct n (dropped m x) := by
  intro i hi j hj e
  have := hx (m + i) (by omega) (m + j) (by omega) e
  omega

theorem dropped_dropped (m n : Nat) (x : Nat → Fin cols) :
    dropped n (dropped m x) = dropped (m + n) x := by
  funext i
  simp only [dropped, Nat.add_assoc]

end

theorem Distinct.mono {N M : Nat} {x : Nat → Fin cols} (h : Distinct N x) (hMN : M ≤ N) :
    Distinct M x := fun i hi j hj => h i (by omega) j (by omega)

theorem Held.mono {s : SerialSimulator cols ι} {N M : Nat} {x : Nat → Fin cols} (h : Held s N x)
    (hMN : M ≤ N) : Held s M x := fun i hi => h i (by omega)

/-! ## Gates -/

section

variable {s : SerialSimulator cols ι} {a b o : Fin cols}

theorem perform_init0 :
    (perform .init0 [] [o]).run s = some ((), s.put o (fun _ => false) 1) := by
  simp [perform, check]

theorem perform_init1 :
    (perform .init1 [] [o]).run s = some ((), s.put o (fun _ => true) 1) := by
  simp [perform, check]

theorem perform_not (h : a ≠ o) : (perform .not [a] [o]).run s =
    some ((), s.put o (fun r => s.memory o r && !s.memory a r) 1) := by
  simp [perform, check, h]

theorem perform_nor (hab : a ≠ b) (hao : a ≠ o) (hbo : b ≠ o) :
    (perform .nor [a, b] [o]).run s =
      some ((), s.put o (fun r => s.memory o r && !(s.memory a r || s.memory b r)) 1) := by
  simp [perform, check, hab, hao, hbo]

theorem run_initNot (h : a ≠ o) : (initNot a o).run s = some ((), s.not a o) := by
  rw [initNot, StateT.run_bind, perform_init1]
  refine (perform_not h).trans ?_
  simp [put_put, h, SerialSimulator.not]

theorem run_initNor (hab : a ≠ b) (hao : a ≠ o) (hbo : b ≠ o) :
    (initNor a b o).run s = some ((), s.nor a b o) := by
  rw [initNor, StateT.run_bind, perform_init1]
  refine (perform_nor hab hao hbo).trans ?_
  simp [put_put, hao, hbo, SerialSimulator.nor]

end

/-! ## What an operation changes -/

/-- Only the columns `T` change, in `n` cycles, and the highest column written is one of them. -/
structure Changes (T : Fin cols → Prop) (n : Nat) (s s' : SerialSimulator cols ι) : Prop where
  memory : ∀ c, ¬T c → s'.memory c = s.memory c
  latency : s'.latency = s.latency + n
  maxUsed : s'.maxUsed = s.maxUsed ∨ ∃ c, T c ∧ s'.maxUsed = c

def Reach (W : Fin cols → Prop) (P : Pool (Fin cols)) (k : Nat) (c : Fin cols) : Prop :=
  W c ∨ c ∈ P.first k

/-- Every intermediate column is given back, and only `W` and the first `k` free columns
change, in `n` cycles. -/
structure Step (W : Fin cols → Prop) (k n : Nat) (s s' : SerialSimulator cols ι) : Prop where
  inter : s'.inter = s.inter
  changes : Changes (Reach W s.inter k) n s s'

section

variable {T T' W W' : Fin cols → Prop} {s s' s'' : SerialSimulator cols ι} {k m n : Nat}
  {P : Pool (Fin cols)} {c o : Fin cols}

theorem Changes.refl : Changes T 0 s s := ⟨fun _ _ => rfl, rfl, .inl rfl⟩

theorem Changes.mono (h : Changes T n s s') (hT : ∀ c, T c → T' c) : Changes T' n s s' :=
  ⟨fun c hc => h.memory c fun h' => hc (hT c h'), h.latency,
    h.maxUsed.imp id fun ⟨c, hc, e⟩ => ⟨c, hT c hc, e⟩⟩

theorem Changes.trans (h : Changes T n s s') (h' : Changes T m s' s'') :
    Changes T (n + m) s s'' := by
  refine ⟨fun c hc => (h'.memory c hc).trans (h.memory c hc), ?_, ?_⟩
  · rw [h'.latency, h.latency, Nat.add_assoc]
  · rcases h'.maxUsed with e | e
    · rw [e]
      exact h.maxUsed
    · exact .inr e

theorem changes_put (ho : T o) (v : ι → Bool) (n : Nat) : Changes T n s (s.put o v n) := by
  refine ⟨fun c hc => Function.update_of_ne (fun e : c = o => hc (e ▸ ho)) .., rfl, ?_⟩
  rcases Nat.le_total o s.maxUsed with h | h
  · exact .inl (Nat.max_eq_left h)
  · exact .inr ⟨o, ho, Nat.max_eq_right h⟩

theorem Changes.not (h : Changes T n s s') (ho : T o) {a : Fin cols} :
    Changes T (n + 2) s (s'.not a o) := h.trans (changes_put ho _ 2)

theorem Changes.nor (h : Changes T n s s') (ho : T o) {a b : Fin cols} :
    Changes T (n + 2) s (s'.nor a b o) := h.trans (changes_put ho _ 2)

theorem Changes.withInter (h : Changes T n s s') (P : Pool (Fin cols)) :
    Changes T n s (s'.withInter P) := ⟨h.memory, h.latency, h.maxUsed⟩

theorem Changes.of_withInter (h : Changes T n (s.withInter P) s') : Changes T n s s' :=
  ⟨h.memory, h.latency, h.maxUsed⟩

theorem step_put (ho : W o) (v : ι → Bool) (n : Nat) : Step W k n s (s.put o v n) :=
  ⟨rfl, changes_put (.inl ho) v n⟩

theorem step_not (ho : W o) {a : Fin cols} : Step W k 2 s (s.not a o) := step_put ho _ 2

theorem step_nor (ho : W o) {a b : Fin cols} : Step W k 2 s (s.nor a b o) := step_put ho _ 2

theorem Step.refl : Step W k 0 s s := ⟨rfl, .refl⟩

theorem Step.mono (h : Step W k n s s') (hW : ∀ c, W c → W' c) (hk : k ≤ m) : Step W' m n s s' :=
  ⟨h.inter, h.changes.mono fun c => Or.imp (hW c) (Pool.first_mono hk)⟩

theorem Step.trans (h : Step W k n s s') (h' : Step W k m s' s'') : Step W k (n + m) s s'' := by
  obtain ⟨hi, hc⟩ := h'
  rw [h.inter] at hi hc
  exact ⟨hi, h.changes.trans hc⟩

theorem Changes.step (h : Changes T n s s') (h' : Step W k m s' s'') (hW : ∀ c, W c → T c)
    (hk : ∀ c ∈ s'.inter.first k, T c) : Changes T (n + m) s s'' :=
  h.trans (h'.changes.mono fun c hc => hc.elim (hW c) (hk c))

/-- A column that is neither free nor written keeps its contents. -/
theorem Step.memory_eq (h : Step W k n s s') (hc : c ∉ s.inter.free) (hW : ¬W c) :
    s'.memory c = s.memory c :=
  h.changes.memory c fun hr => hr.elim hW fun hf => hc (Pool.mem_free_of_first hf)

theorem Step.num_eq {N : Nat} {x : Nat → Fin cols} (h : Step W k n s s')
    (hx : Held s N x) (hW : ∀ i < N, ¬W (x i)) (r : ι) :
    num N x s'.memory r = num N x s.memory r :=
  bitsValue_congr fun i hi => congrFun (h.memory_eq (hx i hi) (hW i hi)) r

end

/-! ## Allocation -/

structure Fresh (P : Pool (Fin cols)) (k : Nat) (t : Nat → Fin cols) : Prop where
  mem : ∀ i < k, t i ∈ P.first k
  inj : Distinct k t

section

variable {P : Pool (Fin cols)} {k : Nat} {t : Nat → Fin cols} {c : Fin cols}

theorem mem_listing : c ∈ listing k t ↔ ∃ i < k, t i = c := by simp [listing]

theorem length_listing : (listing k t).length = k := by simp [listing]

theorem Fresh.mem_free (h : Fresh P k t) {i : Nat} (hi : i < k) : t i ∈ P.free :=
  Pool.mem_free_of_first (h.mem i hi)

theorem Fresh.ne (h : Fresh P k t) (hc : c ∉ P.free) (i : Nat) (hi : i < k) : t i ≠ c :=
  fun e => hc (e ▸ h.mem_free hi)

theorem Fresh.eq_iff (h : Fresh P k t) (i j : Nat) (hi : i < k) (hj : j < k) : t i = t j ↔ i = j :=
  ⟨h.inj i hi j hj, fun e => e ▸ rfl⟩

theorem Fresh.not_free {i : Nat} (hi : i < k) : t i ∉ (P.alloc (listing k t)).free :=
  fun h => (Pool.mem_free_alloc.mp h).2 (mem_listing.mpr ⟨i, hi, rfl⟩)

theorem not_free_alloc {C : List (Fin cols)} (hc : c ∉ P.free) : c ∉ (P.alloc C).free :=
  fun h => hc (Pool.mem_free_alloc.mp h).1

theorem not_free_self : c ∉ (P.alloc [c]).free :=
  fun h => (Pool.mem_free_alloc.mp h).2 List.mem_cons_self

theorem ne_of_first {d : Fin cols} (h : c ∈ P.first k) (hd : d ∉ P.free) : c ≠ d :=
  fun e => hd (e ▸ Pool.mem_free_of_first h)

theorem le_length_alloc {m : Nat} {C : List (Fin cols)} (h : C.length + m ≤ P.free.length) :
    m ≤ (P.alloc C).free.length := by
  have := Pool.length_free_alloc (P := P) (C := C)
  omega

theorem release_alloc_alloc {P : Pool (Fin cols)} {C D : List (Fin cols)}
    (hC : ∀ c ∈ C, c ∉ P.allocated) (hD : ∀ c ∈ C, c ∉ D) :
    ((P.alloc C).alloc D).release C = P.alloc D := by
  rw [Pool.alloc_comm]
  refine Pool.release_alloc fun c hc h => ?_
  rcases Finset.mem_union.mp h with h | h
  · exact hC c hc h
  · exact hD c hc (List.mem_toFinset.mp h)

theorem Fresh.not_allocated (h : Fresh P k t) : ∀ c ∈ listing k t, c ∉ P.allocated := by
  intro c hc
  obtain ⟨i, hi, rfl⟩ := mem_listing.mp hc
  exact (Pool.mem_free.mp (h.mem_free hi)).2

theorem Fresh.mem_cells (h : Fresh P k t) : ∀ c ∈ listing k t, c ∈ P.cells := by
  intro c hc
  obtain ⟨i, hi, rfl⟩ := mem_listing.mp hc
  exact (Pool.mem_free.mp (h.mem_free hi)).1

end

section

variable [NeZero cols] {s s' : SerialSimulator cols ι} {k m n : Nat}

theorem run_malloc (hk : 1 ≤ k) (hf : k ≤ s.inter.free.length) :
    (malloc k).run s = some (fun i => (s.inter.first k).getD i 0,
      s.withInter (s.inter.alloc (s.inter.first k))) := by
  simp [malloc, check, hk, Pool.length_first hf]

theorem ends_malloc (hk : 1 ≤ k) (hf : k ≤ s.inter.free.length) :
    Ends (malloc k) s fun t s' =>
      Fresh s.inter k t ∧ s' = s.withInter (s.inter.alloc (listing k t)) := by
  have hlen := Pool.length_first hf
  refine ⟨_, _, run_malloc hk hf, ⟨fun i hi => ?_, fun i hi j hj e => ?_⟩, ?_⟩
  · rw [List.getD_eq_getElem _ _ (by omega)]
    exact List.getElem_mem _
  · rw [List.getD_eq_getElem _ _ (by omega), List.getD_eq_getElem _ _ (by omega)] at e
    exact (List.Nodup.getElem_inj_iff Pool.nodup_first).mp e
  · congr 2
    refine List.ext_getElem (by rw [length_listing, hlen]) fun i h1 h2 => ?_
    simp [listing, List.getD_eq_getElem?_getD, List.getElem?_eq_getElem h1]

end

section

variable {W W' : Fin cols → Prop} {s s' : SerialSimulator cols ι} {k m n : Nat}
  {t : Nat → Fin cols}

theorem run_free (h : ∀ c ∈ listing k t, c ∈ s.inter.cells) :
    (free k t).run s = some ((), s.withInter (s.inter.release (listing k t))) := by
  have hc : (check (∀ c ∈ listing k t, c ∈ s.inter.cells)).run s = some ((), s) := run_check h
  simp [free, hc]

theorem ends_mallocOne [NeZero cols] (hf : 1 ≤ s.inter.free.length) :
    Ends mallocOne s fun c s' =>
      c ∈ s.inter.first 1 ∧ s' = s.withInter (s.inter.alloc [c]) :=
  Ends.bind (ends_malloc (Nat.le_refl 1) hf) fun _ _ ⟨ht, hs⟩ =>
    ends_pure ⟨ht.mem 0 Nat.one_pos, hs⟩

theorem run_freeOne {c : Fin cols} (h : c ∈ s.inter.cells) :
    (freeOne c).run s = some ((), s.withInter (s.inter.release [c])) :=
  run_free fun d hd => by rwa [List.mem_singleton.mp hd]

/-- A step that was taken with `t` allocated, seen from outside. -/
theorem Step.scratch (ht : Fresh s.inter k t)
    (h : Step W' m n (s.withInter (s.inter.alloc (listing k t))) s')
    (hW : ∀ c, W' c → W c ∨ ∃ i < k, t i = c) : Step W (k + m) n s (s'.withInter s.inter) := by
  refine ⟨rfl, (h.changes.of_withInter.mono fun c hc => ?_).withInter _⟩
  rcases hc with hc | hc
  · rcases hW c hc with hc | ⟨i, hi, rfl⟩
    · exact .inl hc
    · exact .inr (Pool.first_mono (by omega) (ht.mem i hi))
  · have := Pool.first_alloc_subset hc
    rw [length_listing] at this
    exact .inr this

/-- **The rule of an allocation** that is given back. -/
theorem ends_scratch [NeZero cols] {body : (Nat → Fin cols) → SerialM cols ι Unit}
    {Q : (Fin cols → ι → Bool) → Prop} (hk : 1 ≤ k) (hf : k ≤ s.inter.free.length)
    (hbody : ∀ t, Fresh s.inter k t →
      Ends (body t) (s.withInter (s.inter.alloc (listing k t))) fun _ s' =>
        Step (fun c => W c ∨ ∃ i < k, t i = c) m n
          (s.withInter (s.inter.alloc (listing k t))) s' ∧ Q s'.memory) :
    Ends (Pim.scratch k body) s fun _ s' => Step W (k + m) n s s' ∧ Q s'.memory := by
  refine (ends_malloc hk hf).bind ?_
  rintro t _ ⟨ht, rfl⟩
  refine (hbody t ht).bind ?_
  rintro _ s' ⟨hs, hq⟩
  have hin : s'.inter = s.inter.alloc (listing k t) := hs.inter
  refine ends_of_run (run_free fun c hc => ?_) ?_
  · rw [hin]
    exact ht.mem_cells c hc
  · rw [hin, Pool.release_alloc ht.not_allocated]
    exact ⟨hs.scratch ht fun _ => id, hq⟩

theorem ends_scratchOne [NeZero cols] {body : Fin cols → SerialM cols ι Unit}
    {Q : (Fin cols → ι → Bool) → Prop} (hf : 1 ≤ s.inter.free.length)
    (hbody : ∀ t ∈ s.inter.first 1, Ends (body t) (s.withInter (s.inter.alloc [t])) fun _ s' =>
      Step (fun c => W c ∨ c = t) m n (s.withInter (s.inter.alloc [t])) s' ∧ Q s'.memory) :
    Ends (scratchOne body) s fun _ s' => Step W (1 + m) n s s' ∧ Q s'.memory := by
  refine ends_scratch (Nat.le_refl 1) hf fun t ht => (hbody (t 0) (ht.mem 0 Nat.one_pos)).mono ?_
  rintro _ s' ⟨hs, hq⟩
  refine ⟨hs.mono (fun c hc => hc.imp id ?_) (Nat.le_refl m), hq⟩
  rintro rfl
  exact ⟨0, Nat.one_pos, rfl⟩

theorem ends_loop {N : Nat} {body : Nat → SerialM cols ι Unit}
    (I : Nat → (Fin cols → ι → Bool) → Prop) (h0 : I 0 s.memory)
    (hbody : ∀ i < N, ∀ s', Step W k (i * n) s s' → I i s'.memory →
      Ends (body i) s' fun _ s'' => Step W k n s' s'' ∧ I (i + 1) s''.memory) :
    Ends (forRange N body) s fun _ s' => Step W k (N * n) s s' ∧ I N s'.memory := by
  refine ends_forRange (fun i s' => Step W k (i * n) s s' ∧ I i s'.memory) ?_ ?_
  · rw [Nat.zero_mul]
    exact ⟨.refl, h0⟩
  · rintro i hi s' ⟨hs, hI⟩
    refine (hbody i hi s' hs hI).mono fun _ s'' h => ⟨?_, h.2⟩
    rw [Nat.succ_mul]
    exact hs.trans h.1

/-- A loop that fills an array, column by column, without intermediate columns. -/
theorem ends_fill {N : Nat} {body : Nat → SerialM cols ι Unit} {v : Nat → ι → Bool}
    (ht : Distinct N t)
    (hbody : ∀ i < N, ∀ s', Step (fun o => ∃ j < N, o = t j) 0 (i * n) s s' →
      Ends (body i) s' fun _ s'' => Step (· = t i) 0 n s' s'' ∧ s''.memory (t i) = v i) :
    Ends (forRange N body) s fun _ s' =>
      Step (fun o => ∃ j < N, o = t j) 0 (N * n) s s' ∧ ∀ j < N, s'.memory (t j) = v j := by
  refine ends_loop (fun i mem => ∀ j < i, mem (t j) = v j)
    (fun j hj => absurd hj (Nat.not_lt_zero j)) fun i hi s' hs' hI => ?_
  refine Ends.mono (hbody i hi s' hs') ?_
  rintro _ s'' ⟨hs'', hv⟩
  refine ⟨hs''.mono (fun o e => ⟨i, hi, e⟩) (Nat.le_refl 0), fun j hj => ?_⟩
  rcases Nat.lt_or_eq_of_le (Nat.le_of_lt_succ hj) with hj | rfl
  · have hne : t j ≠ t i := fun e => by
      have := ht j (by omega) i hi e
      omega
    exact (hs''.changes.memory _ fun h => h.elim hne List.not_mem_nil).trans (hI j hj)
  · exact hv

end

/-! ## Consecutive columns -/

section

variable [NeZero cols]

def columns (a i : Nat) : Fin cols := Fin.ofNat cols (a + i)

/-- A new `IntermediateAllocator` of the columns from `a` on. -/
def allocator (a : Nat) : Pool (Fin cols) where
  cells := (List.range (cols - a)).map (columns a)
  nodup := by
    refine List.Nodup.map_on (fun i hi j hj e => ?_) List.nodup_range
    have e' : (a + i) % cols = (a + j) % cols := congrArg Fin.val e
    rw [List.mem_range] at hi hj
    rw [Nat.mod_eq_of_lt (by omega), Nat.mod_eq_of_lt (by omega)] at e'
    omega
  allocated := ∅

variable {a m n k : Nat} {c : Fin cols}

theorem val_columns {i : Nat} (h : a + i < cols) : (columns a i : Fin cols).val = a + i :=
  Nat.mod_eq_of_lt h

theorem distinct_columns (h : a + n ≤ cols) : Distinct n (columns a : Nat → Fin cols) := by
  intro i hi j hj e
  have e' := congrArg Fin.val e
  rw [val_columns (by omega), val_columns (by omega)] at e'
  omega

theorem columns_ne {b i j : Nat} (h : a + m ≤ b) (hb : b + n ≤ cols) (hi : i < m) (hj : j < n) :
    (columns a i : Fin cols) ≠ columns b j := by
  intro e
  have e' := congrArg Fin.val e
  rw [val_columns (by omega), val_columns (by omega)] at e'
  omega

theorem dropped_columns : dropped m (columns a : Nat → Fin cols) = columns (a + m) := by
  funext i
  rw [dropped, columns, columns, Nat.add_assoc]

theorem free_allocator : (allocator a : Pool (Fin cols)).free =
    (List.range (cols - a)).map (columns a) :=
  List.filter_eq_self.mpr fun _ _ => by simp [allocator]

theorem length_free_allocator : (allocator a : Pool (Fin cols)).free.length = cols - a := by
  rw [free_allocator, List.length_map, List.length_range]

theorem not_free_allocator (h : c.val < a) : c ∉ (allocator a).free := by
  rw [free_allocator]
  intro hc
  obtain ⟨i, hi, rfl⟩ := List.mem_map.mp hc
  rw [List.mem_range] at hi
  rw [val_columns (by omega)] at h
  omega

theorem mem_first_allocator (h : c ∈ (allocator a).first k) : a ≤ c.val ∧ c.val < a + k := by
  rw [Pool.first, free_allocator, ← List.map_take] at h
  obtain ⟨i, hi, rfl⟩ := List.mem_map.mp h
  rw [List.take_range, List.mem_range] at hi
  rw [val_columns (by omega)]
  omega

def start (a : Nat) : SerialSimulator cols ι := ⟨fun _ _ => false, 0, 0, allocator a⟩

/-- A new simulator with the columns `m` set in every row, and an allocator of those from `a` on. -/
def loaded (a : Nat) (m : Nat → Bool) : SerialSimulator cols ι :=
  ⟨fun c _ => m c, 0, 0, allocator a⟩

theorem held_columns {b : Nat} {v : Nat → Bool} (h : b + n ≤ a) (ha : a ≤ cols) :
    Held (loaded a v : SerialSimulator cols ι) n (columns b) :=
  fun i hi => not_free_allocator (by rw [val_columns (by omega)]; omega)

end

end CimSigmoid.Pim
