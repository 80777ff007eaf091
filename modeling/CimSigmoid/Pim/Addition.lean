import CimSigmoid.Pim.Gates

/-!
# Fixed-point addition and subtraction

`fixedAddition`, `fixedSubtraction` and `__fixedAddBit` of `serial/AritPIM.py` ripple a
carry through one column that they allocate (`withCarry`); the first pass may read it from
another column, and the last may write it to another. The result may overwrite an operand:
what a pass writes must only not be read by a later one.
-/

namespace CimSigmoid.Pim

open Machine Mem Bits SerialSimulator

variable {cols : Nat} {ι : Type}

/-- `cin_addr`: `None`, `-1` or an address. -/
inductive CarryIn (cols : Nat) where
  | zero
  | one
  | cell (c : Fin cols)

def CarryIn.bit (mem : Fin cols → ι → Bool) : CarryIn cols → ι → Bool
  | .zero, _ => false
  | .one, _ => true
  | .cell c, r => mem c r

/-- The cycles it takes to set it. -/
def CarryIn.cycles : CarryIn cols → Nat
  | .zero => 1
  | .one => 1
  | .cell _ => 0

/-- The carry-in of `__fixedAddBit`, which cannot be zero: a column, or without one the constant 1. -/
def CarryIn.ofBit : Option (Fin cols) → CarryIn cols
  | none => .one
  | some c => .cell c

theorem CarryIn.ofBit_eq_cell {cin : Option (Fin cols)} {c : Fin cols}
    (h : CarryIn.ofBit cin = .cell c) : c ∈ cin := by
  cases cin with
  | none => cases h
  | some d => exact congrArg some (CarryIn.cell.inj h)

/-- The column the first pass reads its carry from, given the allocated one. -/
def CarryIn.load (carry : Fin cols) : CarryIn cols → SerialM cols ι (Fin cols)
  | .zero => do
    perform .init0 [] [carry]
    pure carry
  | .one => do
    perform .init1 [] [carry]
    pure carry
  | .cell c => pure c

section

variable {s : SerialSimulator cols ι} {N : Nat} {cin : CarryIn cols} {first carry last : Fin cols}

def carryCell (N : Nat) (cin carry cout : Fin cols) (i : Nat) : Fin cols :=
  if i = 0 then cin else if i < N then carry else cout

theorem carryCell_zero : carryCell N first carry last 0 = first := rfl

theorem carryCell_pos {i : Nat} (h0 : 0 < i) (h : i < N) :
    carryCell N first carry last i = carry := by
  rw [carryCell, if_neg (by omega), if_pos h]

theorem carryCell_succ {i : Nat} (h : i < N) :
    carryCell N first carry last (i + 1) = if i < N - 1 then carry else last := by
  rw [carryCell, if_neg (by omega)]
  exact if_congr (by omega) rfl rfl

/-- The carry out of a pass is in the allocated column or in the last one. -/
theorem carryCell_out (hcarry : carry ∈ s.inter.first 1) {z : Nat → Fin cols}
    (hzf : Held s N z)
    (hlast : last ∉ (s.inter.alloc [carry]).free ∧ ∀ i < N, z i ≠ last) {i : Nat} (hi : i < N) :
    carryCell N first carry last (i + 1) ∉ (s.inter.alloc [carry]).free ∧
      ∀ j < N, z j ≠ carryCell N first carry last (i + 1) := by
  rw [carryCell_succ hi]
  split
  · exact ⟨not_free_self, fun j hj => (ne_of_first hcarry (hzf j hj)).symm⟩
  · exact hlast

theorem carryCell_in (hfirst : first = carry ∨ cin = .cell first)
    (hcin : ∀ c, cin = .cell c → c ∉ s.inter.free) {i : Nat} (hi : i < N) :
    carryCell N first carry last i ∉ (s.inter.alloc [carry]).free := by
  rcases Nat.eq_zero_or_pos i with rfl | h0
  · rcases hfirst with h | h
    · rw [carryCell_zero, h]
      exact not_free_self
    · exact not_free_alloc (hcin first h)
  · rw [carryCell_pos h0 hi]
    exact not_free_self

theorem carryCell_fresh (hcarry : carry ∈ s.inter.first 1)
    (hfirst : first = carry ∨ cin = .cell first) {i : Nat} (hi : i < N) :
    carryCell N first carry last i ∈ s.inter.free ∨
      i = 0 ∧ cin = .cell (carryCell N first carry last i) := by
  have hcf := Pool.mem_free_of_first hcarry
  rcases Nat.eq_zero_or_pos i with rfl | h0
  · rcases hfirst with h | h
    · rw [carryCell_zero, h]
      exact .inl hcf
    · exact .inr ⟨rfl, h⟩
  · rw [carryCell_pos h0 hi]
    exact .inl hcf

theorem ends_load :
    Ends (cin.load carry) s fun c s' => Step (· = carry) 0 cin.cycles s s' ∧
      (c = carry ∨ cin = .cell c) ∧ ∀ r, s'.memory c r = cin.bit s.memory r := by
  cases cin with
  | zero =>
    refine ends_seq perform_init0 (ends_pure ⟨step_put (W := (· = carry)) rfl _ 1, .inl rfl, fun r => ?_⟩)
    simp [CarryIn.bit]
  | one =>
    refine ends_seq perform_init1 (ends_pure ⟨step_put (W := (· = carry)) rfl _ 1, .inl rfl, fun r => ?_⟩)
    simp [CarryIn.bit]
  | cell c => exact ends_pure ⟨.refl, .inr rfl, fun r => rfl⟩

end

variable [NeZero cols]

/-- `N` passes of `op`, with the carry in an allocated column between them. -/
def withCarry (N : Nat) (cin : CarryIn cols) (cout : Option (Fin cols))
    (op : Nat → Fin cols → Fin cols → SerialM cols ι Unit) : SerialM cols ι Unit :=
  scratchOne fun carry => do
    let cin ← cin.load carry
    forRange N fun i =>
      op i (if 0 < i then carry else cin) (if i < N - 1 then carry else cout.getD carry)

def fixedAddition (N : Nat) (x y z : Nat → Fin cols) (cin : CarryIn cols)
    (cout : Option (Fin cols)) : SerialM cols ι Unit :=
  withCarry N cin cout fun i c c' => fullAdder (x i) (y i) c (z i) c'

def fixedSubtraction (N : Nat) (x y z : Nat → Fin cols) (cout : Option (Fin cols)) :
    SerialM cols ι Unit :=
  withCarry N .one cout fun i c c' => fullSubtractor (x i) (y i) c (z i) c'

def fixedAddBit (N : Nat) (x z : Nat → Fin cols) (cin cout : Option (Fin cols)) :
    SerialM cols ι Unit :=
  withCarry N (.ofBit cin) cout fun i c c' => halfAdder (x i) c (z i) c'

/-! ## The carry loop -/

section

variable {s : SerialSimulator cols ι} {N k n : Nat} {cin : CarryIn cols} {cout : Option (Fin cols)}
  {op : Nat → Fin cols → Fin cols → SerialM cols ι Unit} {x y z : Nat → Fin cols}

/-- What pass `i` finds: its columns are not free, and those that earlier passes have not written
are as they were at `s`. -/
structure Pass (s : SerialSimulator cols ι) (z : Nat → Fin cols) (cin : CarryIn cols) (k i : Nat)
    (c c' : Fin cols) (s' : SerialSimulator cols ι) : Prop where
  held : ∀ o, o ∉ s.inter.free → o ∉ s'.inter.free
  memory : ∀ o, o ∉ s.inter.free → (∀ j < i, o ≠ z j) → s'.memory o = s.memory o
  enough : k ≤ s'.inter.free.length
  carryIn : c ∉ s'.inter.free
  carryOut : c' ∉ s'.inter.free
  apart : z i ≠ c'
  fresh : c ∈ s.inter.free ∨ i = 0 ∧ cin = .cell c

/-- **The rule of a carry loop**, from what its passes do. -/
theorem ends_withCarry {x y : Nat → ι → Bool} (hf : 1 + k ≤ s.inter.free.length)
    (hz : Distinct N z) (hzf : Held s N z)
    (hcin : ∀ c, cin = .cell c → c ∉ s.inter.free)
    (hcout : ∀ c ∈ cout, c ∉ s.inter.free ∧ ∀ i < N, z i ≠ c)
    (hop : ∀ i < N, ∀ c c' s', Pass s z cin k i c c' s' →
      Ends (op i c c') s' fun _ s'' => Step (fun o => o = z i ∨ o = c') k n s' s'' ∧
        ∀ r, (s''.memory (z i) r).toNat + 2 * (s''.memory c' r).toNat =
          (x i r).toNat + (y i r).toNat + (s'.memory c r).toNat) :
    Ends (withCarry N cin cout op) s fun _ s' =>
      Step (fun o => (∃ i < N, o = z i) ∨ o ∈ cout) (1 + k) (cin.cycles + N * n) s s' ∧
      ∃ co : ι → Bool, (1 ≤ N → ∀ c ∈ cout, s'.memory c = co) ∧
        ∀ r, num N z s'.memory r + 2 ^ N * (co r).toNat =
          bitsValue N (x · r) + bitsValue N (y · r) + (cin.bit s.memory r).toNat := by
  refine ends_scratchOne (Q := fun mem => ∃ co : ι → Bool, (1 ≤ N → ∀ c ∈ cout, mem c = co) ∧
    ∀ r, num N z mem r + 2 ^ N * (co r).toNat =
      bitsValue N (x · r) + bitsValue N (y · r) + (cin.bit s.memory r).toNat) (by omega)
    fun carry hcarry => ?_
  refine Ends.bind ends_load ?_
  rintro first s₁ ⟨hload, hfirst, hbit⟩
  have hin : s₁.inter = s.inter.alloc [carry] := hload.inter
  obtain ⟨last, hget⟩ : ∃ last, last = cout.getD carry := ⟨_, rfl⟩
  have hlast : last ∉ (s.inter.alloc [carry]).free ∧ ∀ i < N, z i ≠ last := by
    rw [hget]
    cases cout with
    | none => exact ⟨not_free_self, fun i hi => (ne_of_first hcarry (hzf i hi)).symm⟩
    | some c => exact ⟨not_free_alloc (hcout c rfl).1, (hcout c rfl).2⟩
  have hout : ∀ i < N, carryCell N first carry last (i + 1) ∉ (s.inter.alloc [carry]).free ∧
      ∀ j < N, z j ≠ carryCell N first carry last (i + 1) :=
    fun i hi => carryCell_out hcarry hzf hlast hi
  rw [← hget]
  refine Ends.mono (ends_ripple (k := k) (n := fun _ => n) (x := x) (y := y)
    (c := carryCell N first carry last) (V := fun _ => False) hz (fun i hi => hin ▸ not_free_alloc (hzf i hi))
    (fun i hi j hj => (hout j hj).2 i hi) (fun _ _ => id) fun i hi s' hi' hmem => ?_) ?_
  · have hc : (if 0 < i then carry else first) = carryCell N first carry last i := by
      rcases Nat.eq_zero_or_pos i with rfl | h0
      · rfl
      · rw [if_pos h0, carryCell_pos h0 hi]
    have hc' : (if i < N - 1 then carry else last) = carryCell N first carry last (i + 1) :=
      (carryCell_succ hi).symm
    rw [hc, hc']
    rw [hin] at hi' hmem
    have hheld : ∀ o, o ∉ s.inter.free → o ∉ (s.inter.alloc [carry]).free :=
      fun o ho => not_free_alloc ho
    refine Ends.mono (hop i hi _ _ s' ⟨fun o ho => hi' ▸ hheld o ho, fun o ho hj => ?_,
      hi' ▸ le_length_alloc hf, hi' ▸ carryCell_in hfirst hcin hi, hi' ▸ (hout i hi).1,
      (hout i hi).2 i hi, carryCell_fresh hcarry hfirst hi⟩)
      fun _ s'' h => ⟨h.1.mono (fun _ => .inr) (Nat.le_refl k), h.2⟩
    -- before its last pass the loop writes no carry column but the allocated one
    have hoc := (ne_of_first hcarry ho).symm
    refine (hmem o (hheld o ho) id fun j hji => ⟨hj j hji, ?_⟩).trans
      (hload.memory_eq (hheld o ho) hoc)
    rw [carryCell_pos (by omega) (by omega)]
    exact hoc
  · rintro _ s' ⟨hstep, hsum⟩
    rw [sum_range_const] at hstep
    refine ⟨(hload.mono (fun _ => .inr) (Nat.zero_le k)).trans (hstep.mono ?_ (Nat.le_refl k)),
      s'.memory (carryCell N first carry last N), fun hN c hc => ?_, fun r => ?_⟩
    · rintro o (h | ⟨i, hi, rfl | rfl⟩)
      · exact h.elim
      · exact .inl (.inl ⟨i, hi, rfl⟩)
      · rw [carryCell_succ hi]
        split
        · exact .inr rfl
        · rw [hget]
          cases cout with
          | none => exact .inr rfl
          | some c => exact .inl (.inr rfl)
    · rw [Option.mem_def.mp hc] at hget
      rw [carryCell, if_neg (by omega), if_neg (by omega), hget]
      rfl
    · rw [hsum r, carryCell_zero, hbit r]
      rfl

/-! ## The operations -/

/-- No pass reads from `x` what an earlier one wrote to `z`. -/
def ReadFirst (N : Nat) (x z : Nat → Fin cols) : Prop := ∀ i j, i < j → j < N → z i ≠ x j

omit [NeZero cols] in
theorem readFirst_of_ne (h : ∀ i < N, ∀ j < N, z i ≠ x j) : ReadFirst N x z :=
  fun i j hij hj => h i (by omega) j hj

omit [NeZero cols] in
theorem readFirst_self (hx : Distinct N x) : ReadFirst N x x := fun i j hij hj e => by
  have := hx i (by omega) j hj e
  omega

omit [NeZero cols] in
theorem Pass.read {i : Nat} {c c' : Fin cols} {s' : SerialSimulator cols ι} (h : Pass s z cin k i c c' s')
    (hi : i < N) (hx : Held s N x) (hzx : ReadFirst N x z) : s'.memory (x i) = s.memory (x i) :=
  h.memory _ (hx i hi) fun j hj => (hzx j i hj hi).symm

theorem ends_fixedAddition (hf : 5 ≤ s.inter.free.length) (hx : Held s N x) (hy : Held s N y)
    (hz : Held s N z) (hzd : Distinct N z) (hzx : ReadFirst N x z) (hzy : ReadFirst N y z)
    (hxy : ∀ i < N, x i ≠ y i) (hcin : ∀ c, cin = .cell c → c ∉ s.inter.free)
    (hcout : ∀ c ∈ cout, c ∉ s.inter.free ∧ ∀ i < N, z i ≠ c) :
    Ends (fixedAddition N x y z cin cout) s fun _ s' =>
      Step (fun o => (∃ i < N, o = z i) ∨ o ∈ cout) 5 (cin.cycles + N * 18) s s' ∧
      ∃ co : ι → Bool, (1 ≤ N → ∀ c ∈ cout, s'.memory c = co) ∧
        ∀ r, num N z s'.memory r + 2 ^ N * (co r).toNat =
          num N x s.memory r + num N y s.memory r + (cin.bit s.memory r).toNat := by
  refine ends_withCarry (k := 4) (x := fun i => s.memory (x i)) (y := fun i => s.memory (y i)) hf hzd
    hz hcin hcout fun i hi c c' s' h => ?_
  refine Ends.mono (ends_fullAdder h.enough (h.held _ (hx i hi)) (h.held _ (hy i hi)) h.carryIn
    (h.held _ (hz i hi)) h.carryOut (hxy i hi) h.apart) ?_
  rintro _ s'' ⟨hstep, hsum⟩
  exact ⟨hstep, fun r => by rw [hsum, h.read hi hx hzx, h.read hi hy hzy]⟩

/-- The carry out of a subtraction says that it did not borrow. -/
theorem ends_fixedSubtraction (hf : 6 ≤ s.inter.free.length) (hx : Held s N x) (hy : Held s N y)
    (hz : Held s N z) (hzd : Distinct N z) (hzx : ReadFirst N x z) (hzy : ReadFirst N y z)
    (hcout : ∀ c ∈ cout, c ∉ s.inter.free ∧ ∀ i < N, z i ≠ c) :
    Ends (fixedSubtraction N x y z cout) s fun _ s' =>
      Step (fun o => (∃ i < N, o = z i) ∨ o ∈ cout) 6 (1 + N * 20) s s' ∧
      ∃ co : ι → Bool, (1 ≤ N → ∀ c ∈ cout, s'.memory c = co) ∧
        ∀ r, num N z s'.memory r + num N y s.memory r + 2 ^ N * (co r).toNat =
          num N x s.memory r + 2 ^ N := by
  refine Ends.mono (ends_withCarry (k := 5) (n := 20) (x := fun i => s.memory (x i))
    (y := fun i r => !s.memory (y i) r) hf hzd hz (fun c hc => by cases hc) hcout
    fun i hi c c' s' h => ?_) ?_
  · refine Ends.mono (ends_fullSubtractor h.enough (h.held _ (hx i hi)) (h.held _ (hy i hi)) h.carryIn
      (h.held _ (hz i hi)) h.carryOut h.apart) ?_
    rintro _ s'' ⟨hstep, hsum⟩
    exact ⟨hstep, fun r => by rw [hsum, h.read hi hx hzx, h.read hi hy hzy]⟩
  · rintro _ s' ⟨hstep, co, hco, hsum⟩
    refine ⟨hstep, co, hco, fun r => ?_⟩
    have hnot := bitsValue_not N fun i => s.memory (y i) r
    have := hsum r
    simp only [CarryIn.bit, Bool.toNat_true] at this
    simp only [num] at this ⊢
    omega

theorem ends_fixedAddBit {bit : Option (Fin cols)} (hf : 4 ≤ s.inter.free.length) (hx : Held s N x) (hz : Held s N z)
    (hzd : Distinct N z) (hzx : ReadFirst N x z)
    (hbit : ∀ c ∈ bit, c ∉ s.inter.free ∧ x 0 ≠ c)
    (hcout : ∀ c ∈ cout, c ∉ s.inter.free ∧ ∀ i < N, z i ≠ c) :
    Ends (fixedAddBit N x z bit cout) s fun _ s' =>
      Step (fun o => (∃ i < N, o = z i) ∨ o ∈ cout) 4 ((CarryIn.ofBit bit).cycles + N * 10) s s' ∧
      ∃ co : ι → Bool, (1 ≤ N → ∀ c ∈ cout, s'.memory c = co) ∧
        ∀ r, num N z s'.memory r + 2 ^ N * (co r).toNat =
          num N x s.memory r + ((CarryIn.ofBit bit).bit s.memory r).toNat := by
  refine Ends.mono (ends_withCarry (k := 3) (n := 10) (x := fun i => s.memory (x i))
    (y := fun _ _ => false) hf hzd hz (fun c hc => (hbit c (CarryIn.ofBit_eq_cell hc)).1) hcout
    fun i hi c c' s' h => ?_) ?_
  · have hxc : x i ≠ c := by
      rcases h.fresh with hc | ⟨rfl, hc⟩
      · exact fun e => hx i hi (e ▸ hc)
      · exact (hbit c (CarryIn.ofBit_eq_cell hc)).2
    refine Ends.mono (ends_halfAdder h.enough (h.held _ (hx i hi)) h.carryIn (h.held _ (hz i hi))
      h.carryOut hxc h.apart) ?_
    rintro _ s'' ⟨hstep, hsum⟩
    exact ⟨hstep, fun r => by rw [hsum, h.read hi hx hzx]; rfl⟩
  · rintro _ s' ⟨hstep, co, hco, hsum⟩
    refine ⟨hstep, co, hco, fun r => ?_⟩
    rw [hsum, bitsValue_false]
    rfl

/-! ## Sums and differences -/

/-- What an addition or a subtraction needs of its columns: nothing is overwritten before it is
read. -/
structure Summands (s : SerialSimulator cols ι) (N : Nat) (x y z : Nat → Fin cols)
    (cin : CarryIn cols) (cout : Option (Fin cols)) : Prop where
  heldX : Held s N x
  heldY : Held s N y
  heldZ : Held s N z
  distinct : Distinct N z
  readX : ReadFirst N x z
  readY : ReadFirst N y z
  carryIn : ∀ c, cin = .cell c → c ∉ s.inter.free
  carryOut : ∀ c ∈ cout, c ∉ s.inter.free ∧ ∀ i < N, z i ≠ c

/-- An operation has left `v` in `z` and `carry` in `cout`, in `n` cycles, and else only used
intermediate columns, which it has given back. -/
structure Leaves (N : Nat) (z : Nat → Fin cols) (cout : Option (Fin cols)) (v : ι → Nat)
    (carry : ι → Bool) (n : Nat) (s s' : SerialSimulator cols ι) : Prop where
  result : ∀ r, num N z s'.memory r = v r
  carryOut : ∀ c ∈ cout, s'.memory c = carry
  latency : s'.latency = s.latency + n
  inter : s'.inter = s.inter
  frame : ∀ c, c ∉ s.inter.free → (∀ i < N, c ≠ z i) → c ∉ cout → s'.memory c = s.memory c

omit [NeZero cols] in
theorem Step.leaves {v : ι → Nat} {carry : ι → Bool} {s' : SerialSimulator cols ι}
    (h : Step (fun o => (∃ i < N, o = z i) ∨ o ∈ cout) k n s s')
    (hv : ∀ r, num N z s'.memory r = v r) (hc : ∀ c ∈ cout, s'.memory c = carry) :
    Leaves N z cout v carry n s s' where
  result := hv
  carryOut := hc
  latency := h.changes.latency
  inter := h.inter
  frame _ hf hz hcout := h.memory_eq hf fun ho => ho.elim (fun ⟨i, hi, e⟩ => hz i hi e) hcout

theorem mod_and_carry {v total : Nat} {c : Bool} (hv : v < 2 ^ N) (h : v + 2 ^ N * c.toNat = total) :
    v = total % 2 ^ N ∧ c = decide (2 ^ N ≤ total) := by
  refine ⟨by rw [← h, Nat.add_mul_mod_self_left, Nat.mod_eq_of_lt hv], ?_⟩
  cases c with
  | false => exact (decide_eq_false (by simp at h; omega)).symm
  | true => exact (decide_eq_true (by simp at h; omega)).symm

/-- **`fixedAddition` adds**: no assertion fails, the carry out is that of the sum, and it takes
`18N` cycles and one to set a constant carry. -/
theorem fixedAddition_leaves (hN : 1 ≤ N) (hf : 5 ≤ s.inter.free.length)
    (h : Summands s N x y z cin cout) (hxy : ∀ i < N, x i ≠ y i) :
    Ends (fixedAddition N x y z cin cout) s fun _ s' =>
      Leaves N z cout
        (fun r => (num N x s.memory r + num N y s.memory r + (cin.bit s.memory r).toNat) % 2 ^ N)
        (fun r => decide
          (2 ^ N ≤ num N x s.memory r + num N y s.memory r + (cin.bit s.memory r).toNat))
        (18 * N + cin.cycles) s s' := by
  refine Ends.mono (ends_fixedAddition hf h.heldX h.heldY h.heldZ h.distinct h.readX h.readY hxy
    h.carryIn h.carryOut) ?_
  rintro _ s' ⟨hstep, co, hco, hsum⟩
  rw [Nat.mul_comm 18, Nat.add_comm]
  refine hstep.leaves (fun r => (mod_and_carry num_lt (hsum r)).1) fun c hc => ?_
  rw [hco hN c hc]
  funext r
  exact (mod_and_carry num_lt (hsum r)).2

theorem fixedAddition_leaves_three :
    Ends (fixedAddition 2 (columns 0) (columns 2) (columns 4) .one (some 6))
      (loaded 7 (· < 4) : SerialSimulator 12 Unit) fun _ s' =>
        Leaves 2 (columns 4) (some 6) (fun _ => 3) (fun _ => true) 37 (loaded 7 (· < 4)) s' := by
  have h : Summands (loaded 7 (· < 4) : SerialSimulator 12 Unit) 2 (columns 0) (columns 2) (columns 4)
      .one (some 6) :=
    ⟨held_columns (by decide) (by decide), held_columns (by decide) (by decide),
      held_columns (by decide) (by decide), distinct_columns (by decide),
      readFirst_of_ne (by decide), readFirst_of_ne (by decide), by simp, by simp; decide⟩
  have hx : ∀ r, num 2 (columns 0) (loaded 7 (· < 4) : SerialSimulator 12 Unit).memory r = 3 := by decide
  have hy : ∀ r, num 2 (columns 2) (loaded 7 (· < 4) : SerialSimulator 12 Unit).memory r = 3 := by decide
  simpa [hx, hy, CarryIn.bit, CarryIn.cycles] using
    fixedAddition_leaves (by decide) (by decide) h (by decide)

theorem mod_and_noBorrow {v a b : Nat} {c : Bool} (hv : v < 2 ^ N) (hb : b < 2 ^ N)
    (h : v + b + 2 ^ N * c.toNat = a + 2 ^ N) :
    v = (a + 2 ^ N - b) % 2 ^ N ∧ c = decide (b ≤ a) := by
  refine ⟨?_, ?_⟩
  · rw [← h, show v + b + 2 ^ N * c.toNat - b = v + 2 ^ N * c.toNat by omega,
      Nat.add_mul_mod_self_left, Nat.mod_eq_of_lt hv]
  · cases c with
    | false => exact (decide_eq_false (by simp at h; omega)).symm
    | true => exact (decide_eq_true (by simp at h; omega)).symm

/-- **`fixedSubtraction` subtracts**: its carry out says that nothing was borrowed, and it takes
`20N + 1` cycles. An operand may be subtracted from itself. -/
theorem fixedSubtraction_leaves (hN : 1 ≤ N) (hf : 6 ≤ s.inter.free.length)
    (h : Summands s N x y z .one cout) :
    Ends (fixedSubtraction N x y z cout) s fun _ s' =>
      Leaves N z cout (fun r => (num N x s.memory r + 2 ^ N - num N y s.memory r) % 2 ^ N)
        (fun r => decide (num N y s.memory r ≤ num N x s.memory r)) (20 * N + 1) s s' := by
  refine Ends.mono (ends_fixedSubtraction hf h.heldX h.heldY h.heldZ h.distinct h.readX h.readY
    h.carryOut) ?_
  rintro _ s' ⟨hstep, co, hco, hsum⟩
  rw [Nat.mul_comm 20, Nat.add_comm]
  refine hstep.leaves (fun r => (mod_and_noBorrow num_lt num_lt (hsum r)).1) fun c hc => ?_
  rw [hco hN c hc]
  funext r
  exact (mod_and_noBorrow num_lt num_lt (hsum r)).2

theorem fixedSubtraction_leaves_borrow :
    Ends (fixedSubtraction 2 (columns 0) (columns 2) (columns 4) (some 6))
      (loaded 7 (· % 3 = 0) : SerialSimulator 13 Unit) fun _ s' =>
        Leaves 2 (columns 4) (some 6) (fun _ => 3) (fun _ => false) 41 (loaded 7 (· % 3 = 0)) s' := by
  have h : Summands (loaded 7 (· % 3 = 0) : SerialSimulator 13 Unit) 2 (columns 0) (columns 2)
      (columns 4) .one (some 6) :=
    ⟨held_columns (by decide) (by decide), held_columns (by decide) (by decide),
      held_columns (by decide) (by decide), distinct_columns (by decide),
      readFirst_of_ne (by decide), readFirst_of_ne (by decide), by simp, by simp; decide⟩
  have hx : ∀ r, num 2 (columns 0) (loaded 7 (· % 3 = 0) : SerialSimulator 13 Unit).memory r = 1 := by
    decide
  have hy : ∀ r, num 2 (columns 2) (loaded 7 (· % 3 = 0) : SerialSimulator 13 Unit).memory r = 2 := by
    decide
  simpa [hx, hy] using fixedSubtraction_leaves (by decide) (by decide) h

end

end CimSigmoid.Pim
