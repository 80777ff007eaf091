import CimSigmoid.Mem.Banked
import CimSigmoid.Pim.Simulator

/-!
# The bit-parallel simulator

`parallel/simulator.py` of AritPIM-master: an array whose columns are cut into `P`
partitions of `W` cells. A gate names cells by their index inside a partition and acts in
many partitions at once, possibly from one partition into another. The minimal model it
has to adhere to is checked: the distance between input and output partition is the same
everywhere, the input partitions are evenly spaced and further apart than that distance,
and inside one partition the cells of the gate differ. A gate takes one cycle, and energy
for every partition it writes to.

A number has one cell in each of `N` partitions, so an address is one index and the
partitions are an array `Nat → Fin P`. `IntermediateAllocator` hands out indices for a list of
partitions, and so is a first-fit pool over banks.

`Step T k w` is what an operation does beside its result: it gives back every intermediate
cell, changes the cells of `T` and free ones within the first `k` only, and costs `w`, in
cycles and energy. `Session` is the same in the middle of an operation that holds some cells.
-/

namespace CimSigmoid.Pim.Parallel

open Machine Mem Bits

/-- `ParallelSimulator`, with the allocator that the running operation was given. -/
structure ParallelSimulator (P W : Nat) (ι : Type) where
  memory : Fin W → Fin P → ι → Bool
  latency : Nat
  energy : Nat
  maxUsed : Nat
  inter : Banked (Fin P) (Fin W)

abbrev ParallelM (P W : Nat) (ι A : Type) := Prog (ParallelSimulator P W ι) A

variable {P W : Nat} {ι : Type}

/-- An assignment of numpy to a cell in several partitions; of two to one partition the later
one counts. -/
def assign (m : Fin P → ι → Bool) (L : List (Fin P × (ι → Bool))) : Fin P → ι → Bool :=
  L.foldl (fun m e => Function.update m e.1 e.2) m

namespace ParallelSimulator

def put (s : ParallelSimulator P W ι) (o : Fin W) (L : List (Fin P × (ι → Bool))) :
    ParallelSimulator P W ι :=
  { s with
    memory := Function.update s.memory o (assign (s.memory o) L)
    latency := s.latency + 1
    energy := s.energy + L.length
    maxUsed := max s.maxUsed o }

def fill (s : ParallelSimulator P W ι) (S : List (Fin P)) (o : Fin W) (v : Fin P → ι → Bool)
    (n : Nat) : ParallelSimulator P W ι :=
  { s with
    memory := Function.update s.memory o fun q => if S.contains q then v q else s.memory o q
    latency := s.latency + n
    energy := s.energy + n * S.length
    maxUsed := max s.maxUsed o }

def withInter (s : ParallelSimulator P W ι) (Q : Banked (Fin P) (Fin W)) :
    ParallelSimulator P W ι := { s with inter := Q }

def cost (s : ParallelSimulator P W ι) : Nat × Nat := (s.latency, s.energy)

section

variable (s : ParallelSimulator P W ι) (S : List (Fin P)) (o : Fin W) (v v' : Fin P → ι → Bool)
  (n m : Nat) (Q Q' : Banked (Fin P) (Fin W))

@[simp] theorem fill_memory : (s.fill S o v n).memory =
    Function.update s.memory o fun q => if q ∈ S then v q else s.memory o q := by
  simp only [fill, List.contains_iff_mem]
@[simp] theorem fill_inter : (s.fill S o v n).inter = s.inter := rfl
@[simp] theorem withInter_memory : (s.withInter Q).memory = s.memory := rfl
@[simp] theorem withInter_inter : (s.withInter Q).inter = Q := rfl
@[simp] theorem withInter_withInter : (s.withInter Q).withInter Q' = s.withInter Q' := rfl
@[simp] theorem withInter_cost : (s.withInter Q).cost = s.cost := rfl

theorem fill_fill : (s.fill S o v n).fill S o v' m = s.fill S o v' (n + m) := by
  have h : ∀ q, (if q ∈ S then v' q else if q ∈ S then v q else s.memory o q) =
      if q ∈ S then v' q else s.memory o q := fun q => by by_cases hq : q ∈ S <;> simp [hq]
  simp [fill, Nat.add_mul, Nat.add_assoc, h]

end

end ParallelSimulator

/-! ## Gates -/

def EvenlySpaced : List (Fin P) → Prop
  | a :: b :: c :: l => (c : Int) - b = b - a ∧ EvenlySpaced (b :: c :: l)
  | _ => True

instance decidableEvenlySpaced : ∀ l : List (Fin P), Decidable (EvenlySpaced l)
  | [] => .isTrue trivial
  | [_] => .isTrue trivial
  | [_, _] => .isTrue trivial
  | a :: b :: c :: l =>
    have := decidableEvenlySpaced (b :: c :: l)
    inferInstanceAs (Decidable ((c : Int) - b = b - a ∧ EvenlySpaced (b :: c :: l)))

/-- The minimal model of a logic gate, on its pairs of input and output partition in increasing
order. -/
def Minimal (inputs outputs : List (Fin W)) : List (Fin P × Fin P) → Prop
  | [] => False
  | e :: l =>
    (∀ f ∈ l, (f.2 : Int) - f.1 = e.2 - e.1) ∧
    EvenlySpaced ((e :: l).map Prod.fst) ∧
    (∀ f ∈ l.head?, ((e.2 : Int) - e.1).natAbs < ((f.1 : Int) - e.1).natAbs) ∧
    ((e.2 : Int) - e.1 = 0 → inputs ∩ outputs = [] ∧ inputs.Nodup ∧ outputs.Nodup)

instance decidableMinimal (inputs outputs : List (Fin W)) :
    ∀ l : List (Fin P × Fin P), Decidable (Minimal inputs outputs l)
  | [] => .isFalse id
  | e :: l =>
    have : Decidable (∀ f ∈ l, (f.2 : Int) - f.1 = e.2 - e.1) := l.decidableBAll _
    have : Decidable (∀ f ∈ l.head?, ((e.2 : Int) - e.1).natAbs < ((f.1 : Int) - e.1).natAbs) :=
      l.head?.decidableForallMem
    inferInstanceAs (Decidable ((∀ f ∈ l, (f.2 : Int) - f.1 = e.2 - e.1) ∧
      EvenlySpaced ((e :: l).map Prod.fst) ∧
      (∀ f ∈ l.head?, ((e.2 : Int) - e.1).natAbs < ((f.1 : Int) - e.1).natAbs) ∧
      ((e.2 : Int) - e.1 = 0 → inputs ∩ outputs = [] ∧ inputs.Nodup ∧ outputs.Nodup)))

/-- `perform` from its pairs of input and output partition, in increasing order of the input
partition. -/
def gate (gateType : GateType) (inputs outputs : List (Fin W)) (pairs : List (Fin P × Fin P)) :
    ParallelM P W ι Unit :=
  match gateType, inputs, outputs with
  | .not, a :: _, o :: _ => do
    check (Minimal inputs outputs pairs)
    modify fun s => s.put o (pairs.map fun e =>
      (e.2, fun r => s.memory o e.2 r && !s.memory a e.1 r))
  | .nor, a :: b :: _, o :: _ => do
    check (Minimal inputs outputs pairs)
    modify fun s => s.put o (pairs.map fun e =>
      (e.2, fun r => s.memory o e.2 r && !(s.memory a e.1 r || s.memory b e.1 r)))
  | .init0, _, [o] => do
    check (pairs ≠ [])
    modify fun s => s.put o (pairs.map fun e => (e.2, fun _ => false))
  | .init1, _, [o] => do
    check (pairs ≠ [])
    modify fun s => s.put o (pairs.map fun e => (e.2, fun _ => true))
  | _, _, _ => failure

/-- `perform`. The callers always name the input partitions; where they leave out the output
partitions, these are the same. -/
def perform (gateType : GateType) (inputs outputs : List (Fin W)) (inputPartitions
    outputPartitions : List (Fin P)) : ParallelM P W ι Unit := do
  check (inputPartitions.length ≤ outputPartitions.length)
  gate gateType inputs outputs
    ((inputPartitions.zip outputPartitions).insertionSort fun e f => e.1 ≤ f.1)

def initNot (a o : Fin W) (S : List (Fin P)) : ParallelM P W ι Unit := do
  perform .init1 [] [o] S S
  perform .not [a] [o] S S

def initNor (a b o : Fin W) (S : List (Fin P)) : ParallelM P W ι Unit := do
  perform .init1 [] [o] S S
  perform .nor [a, b] [o] S S

/-- `INIT1` of a cell in the partition `q` and a gate into it from the partition `p`. -/
def initAcross (gateType : GateType) (inputs : List (Fin W)) (o : Fin W) (p q : Fin P) :
    ParallelM P W ι Unit := do
  perform .init1 [] [o] [q] [q]
  perform gateType inputs [o] [p] [q]

def strided (ps : Nat → Fin P) (a n st : Nat) : List (Fin P) :=
  (List.range n).map fun k => ps (a + st * k)

/-- `partitions[np.arange(a, b, st)]`. -/
def slice (ps : Nat → Fin P) (a b st : Nat) : List (Fin P) :=
  strided ps a ((b - a + (st - 1)) / st) st

def span (N : Nat) (ps : Nat → Fin P) : List (Fin P) := slice ps 0 N 1

/-- Neighbouring partitions. -/
def Consecutive (N : Nat) (ps : Nat → Fin P) : Prop := ∀ j < N, (ps j : Nat) = ps 0 + j

/-- The partition that lies `i - j` above `q`. -/
def shift [NeZero P] (i j : Nat) (q : Fin P) : Fin P := Fin.ofNat P (q + i - j)

section

variable {ps : Nat → Fin P} {N n st i j : Nat}

theorem length_strided : (strided ps i n st).length = n := by simp [strided]

theorem mem_strided {q : Fin P} : q ∈ strided ps i n st ↔ ∃ k < n, ps (i + st * k) = q := by
  simp [strided]

theorem strided_succ : strided ps i (n + 1) st = ps i :: strided ps (i + st) n st := by
  simp only [strided, List.range_succ_eq_map, List.map_cons, List.map_map, Nat.mul_zero,
    Nat.add_zero]
  congr 1
  refine List.map_congr_left fun k _ => ?_
  rw [Function.comp_apply, Nat.succ_eq_add_one, Nat.mul_add, Nat.mul_one, Nat.add_assoc,
    Nat.add_comm st]

theorem strided_one : strided ps i 1 st = [ps i] := by simp [strided]

theorem Consecutive.inj (h : Consecutive N ps) (hi : i < N) (hj : j < N) : ps i = ps j ↔ i = j := by
  refine ⟨fun e => ?_, fun e => e ▸ rfl⟩
  have := congrArg Fin.val e
  rw [h i hi, h j hj] at this
  omega

theorem Consecutive.mono {M : Nat} (h : Consecutive N ps) (hM : M ≤ N) : Consecutive M ps :=
  fun j hj => h j (by omega)

/-- The position `j` is one of the `n` that lie `st` apart from `i` on. -/
def InStride (i n st j : Nat) : Prop := ∃ k < n, j = i + st * k

theorem Consecutive.mem_strided (h : Consecutive N ps) (hn : ∀ k < n, i + st * k < N) (hj : j < N) :
    ps j ∈ strided ps i n st ↔ InStride i n st j := by
  rw [Parallel.mem_strided]
  exact exists_congr fun k => and_congr_right fun hk =>
    (h.inj (hn k hk) hj).trans ⟨Eq.symm, Eq.symm⟩

theorem mem_span {q : Fin P} : q ∈ span N ps ↔ ∃ k < N, ps k = q := by
  simp [span, slice, strided]

theorem length_span : (span N ps).length = N := by simp [span, slice, strided]

theorem Consecutive.shift_eq [NeZero P] (h : Consecutive N ps) (hj : j < N) (hi : j + n - i < N)
    (hij : i ≤ j) : shift n i (ps j) = ps (j + n - i) := by
  refine Fin.ext ?_
  rw [shift, Fin.val_ofNat, h j hj, h _ hi,
    Nat.mod_eq_of_lt (by have := (ps (j + n - i)).isLt; rw [h _ hi] at this; omega)]
  omega

theorem shift_self [NeZero P] (q : Fin P) : shift i i q = q := by
  refine Fin.ext ?_
  rw [shift, Fin.val_ofNat, Nat.add_sub_cancel, Nat.mod_eq_of_lt q.isLt]

theorem evenlySpaced_strided (h : Consecutive N ps) (hn : ∀ k < n, i + st * k < N) :
    EvenlySpaced (strided ps i n st) := by
  induction n generalizing i with
  | zero => exact trivial
  | succ n ih =>
    have hn' : ∀ k < n, i + st + st * k < N := fun k hk => by
      have := hn (k + 1) (by omega)
      rw [Nat.mul_add, Nat.mul_one] at this
      omega
    rcases n with _ | _ | n
    · exact trivial
    · exact trivial
    · have h0 := h _ (hn 0 (by omega))
      have h1 := h _ (hn 1 (by omega))
      have h2 := h _ (hn 2 (by omega))
      simp only [Nat.mul_zero, Nat.add_zero, Nat.mul_one] at h0 h1 h2
      have ih := ih (i := i + st) hn'
      rw [strided_succ, strided_succ] at ih
      rw [strided_succ, strided_succ, strided_succ]
      refine ⟨?_, ih⟩
      rw [show i + st + st = i + st * 2 by ring]
      omega

theorem pairwise_strided (h : Consecutive N ps) (hn : ∀ k < n, i + st * k < N) :
    (strided ps i n st).Pairwise (· ≤ ·) := by
  refine List.pairwise_map.mpr (List.pairwise_lt_range.imp_of_mem fun {k l} hk hl hkl => ?_)
  have hm : st * k ≤ st * l := Nat.mul_le_mul_left st (Nat.le_of_lt hkl)
  rw [Fin.le_def, h _ (hn k (List.mem_range.mp hk)), h _ (hn l (List.mem_range.mp hl))]
  omega

end

section

variable {s : ParallelSimulator P W ι} {S : List (Fin P)} {a b o : Fin W} {p q : Fin P}
  {ps : Nat → Fin P} {N n st i j : Nat}

theorem assign_map {E : Type} (l : List E) (g : E → Fin P) (F : E → ι → Bool)
    (v : Fin P → ι → Bool) (m : Fin P → ι → Bool) (h : ∀ e ∈ l, F e = v (g e)) :
    assign m (l.map fun e => (g e, F e)) = fun q => if q ∈ l.map g then v q else m q := by
  induction l generalizing m with
  | nil => rfl
  | cons e l ih =>
    have := ih (Function.update m (g e) (F e)) fun f hf => h f (List.mem_cons_of_mem e hf)
    rw [assign, List.map_cons, List.foldl_cons]
    refine this.trans (funext fun q => ?_)
    by_cases hq : q = g e
    · subst hq
      simp [h e List.mem_cons_self]
    · simp [hq]

theorem put_eq_fill {E : Type} (l : List E) (g : E → Fin P) (F : E → ι → Bool)
    (v : Fin P → ι → Bool) (h : ∀ e ∈ l, F e = v (g e)) :
    s.put o (l.map fun e => (g e, F e)) = s.fill (l.map g) o v 1 := by
  simp only [ParallelSimulator.put, ParallelSimulator.fill, assign_map l g F v _ h, List.length_map,
    Nat.one_mul, List.contains_iff_mem]

theorem zip_strided : (strided ps i n st).zip (strided ps j n st) =
    (List.range n).map fun k => (ps (i + st * k), ps (j + st * k)) := List.zip_map'

theorem sort_strided (h : Consecutive N ps) (hi : ∀ k < n, i + st * k < N) :
    ((strided ps i n st).zip (strided ps j n st)).insertionSort (fun e f => e.1 ≤ f.1) =
      (List.range n).map fun k => (ps (i + st * k), ps (j + st * k)) := by
  rw [zip_strided]
  refine List.Pairwise.insertionSort_eq ?_
  have := pairwise_strided h hi
  rw [strided, List.pairwise_map] at this
  exact List.pairwise_map.mpr this

/-- **Strided gates adhere to the minimal model.** -/
theorem minimal_strided (h : Consecutive N ps) (hn : 0 < n) (hi : ∀ k < n, i + st * k < N)
    (hj : ∀ k < n, j + st * k < N) (hd : 1 < n → i < j + st ∧ j < i + st)
    {inputs outputs : List (Fin W)}
    (hc : i = j → inputs ∩ outputs = [] ∧ inputs.Nodup ∧ outputs.Nodup) :
    Minimal inputs outputs ((List.range n).map fun k => (ps (i + st * k), ps (j + st * k))) := by
  have hev := evenlySpaced_strided h hi
  obtain ⟨n, rfl⟩ : ∃ m, n = m + 1 := ⟨n - 1, by omega⟩
  have hk : ∀ k < n + 1, ((ps (j + st * k) : Nat) : Int) - (ps (i + st * k) : Nat) = (j : Int) - i := by
    intro k hk
    rw [h _ (hi k hk), h _ (hj k hk)]
    push_cast
    ring
  rw [strided, List.range_succ_eq_map] at hev
  rw [List.range_succ_eq_map, List.map_cons]
  refine ⟨fun f hf => ?_, ?_, fun f hf => ?_, fun h0 => hc ?_⟩
  · obtain ⟨k, hk', rfl⟩ := List.mem_map.mp hf
    obtain ⟨k, hk'', rfl⟩ := List.mem_map.mp hk'
    rw [List.mem_range] at hk''
    exact (hk _ (by omega)).trans (hk 0 (by omega)).symm
  · simpa [List.map_map, Function.comp_def] using hev
  · rcases n with _ | n
    · simp at hf
    · have h0 := hk 0 (by omega)
      have h1 := h _ (hi 1 (by omega))
      have h0' := h _ (hi 0 (by omega))
      simp only [List.range_succ_eq_map, List.map_cons, List.head?_cons, Option.mem_def,
        Option.some.injEq] at hf
      subst hf
      have := hd (by omega)
      simp only [Nat.succ_eq_add_one, Nat.zero_add, Nat.mul_zero, Nat.mul_one, Nat.add_zero] at h0 h0' h1 ⊢
      omega
  · have := hk 0 (by omega)
    simp only at h0
    omega

theorem strided_ne_nil (hn : 0 < n) :
    ((List.range n).map fun k => (ps (i + st * k), ps (j + st * k))) ≠ [] := by
  simp only [ne_eq, List.map_eq_nil_iff, List.range_eq_nil]
  omega

theorem map_snd_strided : ((List.range n).map fun k => (ps (i + st * k), ps (j + st * k))).map Prod.snd =
    strided ps j n st := by
  rw [List.map_map]
  rfl

theorem run_perform (h : Consecutive N ps) (hi : ∀ k < n, i + st * k < N)
    {inputs outputs : List (Fin W)} {g : GateType} :
    (perform g inputs outputs (strided ps i n st) (strided ps j n st)).run s =
      (gate g inputs outputs
        ((List.range n).map fun k => (ps (i + st * k), ps (j + st * k)))).run s := by
  rw [perform, StateT.run_bind, run_check (by rw [length_strided, length_strided]), sort_strided h hi]
  rfl

/-- The logic gates, with as many inputs as they read. -/
inductive Logic : GateType → List (Fin W) → Prop
  | not (a : Fin W) : Logic .not [a]
  | nor (a b : Fin W) : Logic .nor [a, b]

/-- A logic gate on pairs of partitions keeps its output where all inputs are low. -/
theorem run_gate {g : GateType} {ins : List (Fin W)} {pairs : List (Fin P × Fin P)}
    (hg : Logic g ins) (hm : Minimal ins [o] pairs) :
    (gate g ins [o] pairs).run s = some ((), s.put o (pairs.map fun e =>
      (e.2, fun r => s.memory o e.2 r && !ins.any fun c => s.memory c e.1 r))) := by
  cases hg with
  | not a =>
    rw [gate, StateT.run_bind, run_check hm]
    simp only [List.any_cons, List.any_nil, Bool.or_false]
    rfl
  | nor a b =>
    rw [gate, StateT.run_bind, run_check hm]
    simp only [List.any_cons, List.any_nil, Bool.or_false]
    rfl

theorem apart_of_notMem {ins : List (Fin W)} (h : ins.Nodup ∧ o ∉ ins) :
    ins ∩ [o] = [] ∧ ins.Nodup ∧ [o].Nodup := by
  refine ⟨List.eq_nil_iff_forall_not_mem.mpr fun c hc => ?_, h.1, List.nodup_singleton o⟩
  obtain ⟨hci, hco⟩ := List.mem_inter_iff.mp hc
  exact h.2 (List.mem_singleton.mp hco ▸ hci)

/-- **A logic gate**, from the partitions that lie `i - j` above. -/
theorem run_logic [NeZero P] {g : GateType} {ins : List (Fin W)} (hg : Logic g ins)
    (h : Consecutive N ps) (hn : 0 < n) (hi : ∀ k < n, i + st * k < N)
    (hj : ∀ k < n, j + st * k < N) (hd : 1 < n → i < j + st ∧ j < i + st)
    (hc : i = j → ins.Nodup ∧ o ∉ ins) :
    (perform g ins [o] (strided ps i n st) (strided ps j n st)).run s =
      some ((), s.fill (strided ps j n st) o (fun q r => s.memory o q r &&
        !ins.any fun c => s.memory c (shift i j q) r) 1) := by
  rw [run_perform h hi,
    run_gate hg (minimal_strided h hn hi hj hd fun e => apart_of_notMem (hc e))]
  refine congrArg (fun t => some ((), t)) ?_
  rw [← map_snd_strided (i := i)]
  refine put_eq_fill _ Prod.snd _ _ fun e he => ?_
  obtain ⟨k, hk, rfl⟩ := List.mem_map.mp he
  rw [List.mem_range] at hk
  have hki := hi k hk
  have hsub : j + st * k + i - j = i + st * k := by omega
  rw [h.shift_eq (hj k hk) (by omega) (by omega), hsub]

theorem run_not [NeZero P] (h : Consecutive N ps) (hn : 0 < n) (hi : ∀ k < n, i + st * k < N)
    (hj : ∀ k < n, j + st * k < N) (hd : 1 < n → i < j + st ∧ j < i + st) (hao : i = j → a ≠ o) :
    (perform .not [a] [o] (strided ps i n st) (strided ps j n st)).run s =
      some ((), s.fill (strided ps j n st) o
        (fun q r => s.memory o q r && !s.memory a (shift i j q) r) 1) := by
  rw [run_logic (.not a) h hn hi hj hd fun e => ⟨List.nodup_singleton a, by simp [(hao e).symm]⟩]
  simp only [List.any_cons, List.any_nil, Bool.or_false]

theorem run_nor [NeZero P] (h : Consecutive N ps) (hn : 0 < n) (hi : ∀ k < n, i + st * k < N)
    (hj : ∀ k < n, j + st * k < N) (hd : 1 < n → i < j + st ∧ j < i + st)
    (hc : i = j → a ≠ b ∧ a ≠ o ∧ b ≠ o) :
    (perform .nor [a, b] [o] (strided ps i n st) (strided ps j n st)).run s =
      some ((), s.fill (strided ps j n st) o (fun q r => s.memory o q r &&
        !(s.memory a (shift i j q) r || s.memory b (shift i j q) r)) 1) := by
  rw [run_logic (.nor a b) h hn hi hj hd fun e =>
    ⟨by simp [(hc e).1], by simp [(hc e).2.1.symm, (hc e).2.2.symm]⟩]
  simp only [List.any_cons, List.any_nil, Bool.or_false]

/-- A logic gate from any one partition into any other. -/
theorem run_across {g : GateType} {ins : List (Fin W)} (hg : Logic g ins)
    (hc : p = q → ins.Nodup ∧ o ∉ ins) :
    (perform g ins [o] [p] [q]).run s =
      some ((), s.fill [q] o (fun _ r => s.memory o q r && !ins.any fun c => s.memory c p r) 1) := by
  have hm : Minimal ins [o] [(p, q)] := by
    refine ⟨by simp, trivial, by simp, fun e => ?_⟩
    have hpq : p = q := Fin.ext (by simp only at e; omega)
    exact apart_of_notMem (hc hpq)
  have hsort : ([p].zip [q]).insertionSort (fun e f : Fin P × Fin P => e.1 ≤ f.1) = [(p, q)] := rfl
  have hlen : [p].length ≤ [q].length := Nat.le_refl 1
  rw [perform, StateT.run_bind, run_check hlen, hsort]
  refine (run_gate hg hm).trans (congrArg (fun t => some ((), t)) ?_)
  refine put_eq_fill [(p, q)] Prod.snd _
    (fun _ r => s.memory o q r && !ins.any fun c => s.memory c p r) fun e he => ?_
  rw [List.mem_singleton.mp he]

theorem run_init0 (h : Consecutive N ps) (hn : 0 < n) (hj : ∀ k < n, j + st * k < N) :
    (perform .init0 [] [o] (strided ps j n st) (strided ps j n st)).run s =
      some ((), s.fill (strided ps j n st) o (fun _ _ => false) 1) := by
  rw [run_perform h hj, gate, StateT.run_bind, run_check (strided_ne_nil hn)]
  refine congrArg (fun t => some ((), t)) ?_
  rw [← map_snd_strided (i := j)]
  exact put_eq_fill _ Prod.snd _ _ fun e he => rfl

theorem run_init1 (h : Consecutive N ps) (hn : 0 < n) (hj : ∀ k < n, j + st * k < N) :
    (perform .init1 [] [o] (strided ps j n st) (strided ps j n st)).run s =
      some ((), s.fill (strided ps j n st) o (fun _ _ => true) 1) := by
  rw [run_perform h hj, gate, StateT.run_bind, run_check (strided_ne_nil hn)]
  refine congrArg (fun t => some ((), t)) ?_
  rw [← map_snd_strided (i := j)]
  exact put_eq_fill _ Prod.snd _ _ fun e he => rfl

/-- Partitions in which a gate may act in place. -/
def Progression (S : List (Fin P)) : Prop :=
  ∃ N ps i n st, Consecutive N ps ∧ 0 < n ∧ (1 < n → 0 < st) ∧ (∀ k < n, i + st * k < N) ∧
    S = strided ps i n st

theorem Consecutive.progression (h : Consecutive N ps) (hn : 0 < n) (hst : 1 < n → 0 < st)
    (hi : ∀ k < n, i + st * k < N) : Progression (strided ps i n st) :=
  ⟨N, ps, i, n, st, h, hn, hst, hi, rfl⟩

theorem progression_single (p : Fin P) : Progression [p] :=
  ⟨1, fun _ => p, 0, 1, 1, fun j hj => by rw [Nat.lt_one_iff.mp hj]; rfl, Nat.one_pos, by omega,
    fun k hk => by omega, by rw [strided_one]⟩

theorem Consecutive.progression_span (h : Consecutive N ps) (hN : 0 < N) : Progression (span N ps) := by
  rw [span, slice]
  refine h.progression ?_ (fun _ => Nat.one_pos) fun k hk => ?_ <;> simp at * <;> omega

theorem run_set0 (hS : Progression S) :
    (perform .init0 [] [o] S S).run s = some ((), s.fill S o (fun _ _ => false) 1) := by
  obtain ⟨N, ps, i, n, st, h, hn, hst, hi, rfl⟩ := hS
  exact run_init0 h hn hi

theorem run_set1 (hS : Progression S) :
    (perform .init1 [] [o] S S).run s = some ((), s.fill S o (fun _ _ => true) 1) := by
  obtain ⟨N, ps, i, n, st, h, hn, hst, hi, rfl⟩ := hS
  exact run_init1 h hn hi

theorem run_initAcross {g : GateType} {ins : List (Fin W)} (hg : Logic g ins)
    (hc : p = q → ins.Nodup ∧ o ∉ ins) :
    (initAcross g ins o p q).run s =
      some ((), s.fill [q] o (fun _ r => !ins.any fun c => s.memory c p r) 2) := by
  rw [initAcross, StateT.run_bind, run_set1 (progression_single q)]
  refine (run_across hg hc).trans (congrArg (fun t => some ((), t)) ?_)
  rw [ParallelSimulator.fill_fill]
  congr 1
  funext _ r
  rw [ParallelSimulator.fill_memory, Function.update_self, if_pos (List.mem_singleton_self q),
    Bool.true_and]
  -- what the gate reads is not what has just been set
  refine congrArg (!·) (Bool.eq_iff_iff.mpr ?_)
  simp only [List.any_eq_true]
  refine exists_congr fun c => and_congr_right fun hci => ?_
  by_cases e : c = o
  · subst e
    rw [Function.update_self, if_neg fun hp => (hc (List.mem_singleton.mp hp)).2 hci]
  · rw [Function.update_of_ne e]

theorem run_andNot [NeZero P] (hS : Progression S) (hao : a ≠ o) :
    (perform .not [a] [o] S S).run s =
      some ((), s.fill S o (fun q r => s.memory o q r && !s.memory a q r) 1) := by
  obtain ⟨N, ps, i, n, st, h, hn, hst, hi, rfl⟩ := hS
  refine (run_not h hn hi hi (fun h1 => by have := hst h1; omega) fun _ => hao).trans ?_
  simp only [shift_self]

theorem run_initNot [NeZero P] (hS : Progression S) (hao : a ≠ o) :
    (initNot a o S).run s = some ((), s.fill S o (fun q r => !s.memory a q r) 2) := by
  obtain ⟨N, ps, i, n, st, h, hn, hst, hi, rfl⟩ := hS
  rw [initNot, StateT.run_bind, run_init1 h hn hi]
  refine (run_not h hn hi hi (fun h1 => by have := hst h1; omega) fun _ => hao).trans ?_
  refine congrArg (fun t => some ((), t)) ?_
  rw [ParallelSimulator.fill_fill]
  simp only [ParallelSimulator.fill, shift_self,
    Function.update_self, Function.update_of_ne hao]
  congr 2
  funext q
  by_cases hq : q ∈ strided ps i n st <;> simp [hq]

theorem run_initNor [NeZero P] (hS : Progression S) (hab : a ≠ b) (hao : a ≠ o) (hbo : b ≠ o) :
    (initNor a b o S).run s =
      some ((), s.fill S o (fun q r => !(s.memory a q r || s.memory b q r)) 2) := by
  obtain ⟨N, ps, i, n, st, h, hn, hst, hi, rfl⟩ := hS
  rw [initNor, StateT.run_bind, run_init1 h hn hi]
  refine (run_nor h hn hi hi (fun h1 => by have := hst h1; omega) fun _ => ⟨hab, hao, hbo⟩).trans ?_
  refine congrArg (fun t => some ((), t)) ?_
  rw [ParallelSimulator.fill_fill]
  simp only [ParallelSimulator.fill, shift_self,
    Function.update_self, Function.update_of_ne hao, Function.update_of_ne hbo]
  congr 2
  funext q
  by_cases hq : q ∈ strided ps i n st <;> simp [hq]

end

/-! ## A new simulator -/

def partitions [NeZero P] (j : Nat) : Fin P := Fin.ofNat P j

theorem consecutive_partitions [NeZero P] {N : Nat} (h : N ≤ P) : Consecutive N (partitions (P := P)) := by
  intro j hj
  rw [partitions, partitions, Fin.val_ofNat, Fin.val_ofNat, Nat.mod_eq_of_lt (by omega), Nat.zero_mod,
    Nat.zero_add]

def allocator (a : Nat) : Banked (Fin P) (Fin W) where
  cells := (List.finRange W).filter (a ≤ ·)
  nodup := (List.nodup_finRange W).filter _
  banks := List.finRange P
  taken := ∅

/-- A simulator whose cells hold `m` in every row, with an allocator of those from `a` on. -/
def loaded (a : Nat) (m : Nat → Nat → Bool) : ParallelSimulator P W ι :=
  ⟨fun c q _ => m c q, 0, 0, 0, allocator a⟩

theorem not_open_allocator {a : Nat} {c : Fin W} {q : Fin P} (h : c < a) :
    ¬(allocator a).Open q c := by
  rintro ⟨-, hc, -⟩
  simp only [allocator, List.mem_filter, decide_eq_true_eq] at hc
  omega

end CimSigmoid.Pim.Parallel
