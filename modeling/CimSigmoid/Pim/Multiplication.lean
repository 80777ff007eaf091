import CimSigmoid.Pim.Addition

/-!
# Fixed-point multiplication

`fixedMultiplication` of `serial/AritPIM.py`: partial products up to 20 bits, Karatsuba
above. The partial products are ANDs made of complements, one pass of the inner loop at a
time; Karatsuba keeps the sums of the operands' halves in the output columns and the
middle product in intermediate ones.
-/

namespace CimSigmoid.Pim

open Machine Mem Bits SerialSimulator

variable {cols : Nat} {ι : Type} [NeZero cols]

/-! ## Partial products -/

/-- An allocation that is indexed: of a single column `malloc` gives no array. -/
def scratchArray (k : Nat) (body : (Nat → Fin cols) → SerialM cols ι Unit) :
    SerialM cols ι Unit := do
  check (2 ≤ k)
  scratch k body

def firstProduct (N : Nat) (notx z : Nat → Fin cols) (noty : Fin cols) : SerialM cols ι Unit := do
  forRange N fun j => initNor (notx j) noty (z j)
  forRange N fun j => perform .init0 [] [z (N + j)]

def addProduct (N i : Nat) (notx z : Nat → Fin cols) (noty p : Fin cols) : SerialM cols ι Unit :=
  scratchOne fun carry => do
    perform .init0 [] [carry]
    forRange N fun j => do
      initNor (notx j) noty p
      fullAdder (z (i + j)) p carry (z (i + j)) (if j < N - 1 then carry else z (i + N))

/-- The branch of `fixedMultiplication` for `N <= 20`. -/
def partialProducts (N : Nat) (x y z : Nat → Fin cols) : SerialM cols ι Unit :=
  scratchArray N fun notx => scratchOne fun noty => scratchOne fun p => do
    forRange N fun i => initNot (x i) (notx i)
    forRange N fun i => do
      initNot (y i) noty
      if i = 0 then firstProduct N notx z noty else addProduct N i notx z noty p

section

variable {s : SerialSimulator cols ι} {N : Nat} {x y z notx : Nat → Fin cols} {noty p : Fin cols}

/-- The columns of the inner loops: distinct outputs, and complements apart from them. -/
structure Operands (s : SerialSimulator cols ι) (N : Nat) (notx z : Nat → Fin cols)
    (noty p : Fin cols) : Prop where
  distinct : Distinct (2 * N) z
  out : Held s (2 * N) z
  inX : Held s N notx
  inY : noty ∉ s.inter.free
  product : p ∉ s.inter.free
  x_ne_y : ∀ j < N, notx j ≠ noty
  x_ne_product : ∀ j < N, notx j ≠ p
  y_ne_product : noty ≠ p
  out_ne_x : ∀ i < 2 * N, ∀ j < N, z i ≠ notx j
  out_ne_y : ∀ i < 2 * N, z i ≠ noty
  out_ne_product : ∀ i < 2 * N, z i ≠ p

omit [NeZero cols] in
theorem Operands.of_inter {s' : SerialSimulator cols ι} (h : Operands s N notx z noty p)
    (hi : s'.inter = s.inter) : Operands s' N notx z noty p :=
  { h with
    out := fun i => hi ▸ h.out i
    inX := fun i => hi ▸ h.inX i
    inY := hi ▸ h.inY
    product := hi ▸ h.product }

omit [NeZero cols] in
/-- The columns that `partialProducts` allocates. -/
theorem operands_alloc (hz : Held s (2 * N) z) (hzd : Distinct (2 * N) z)
    (hnotx : Fresh s.inter N notx) (hnoty : noty ∈ (s.inter.alloc (listing N notx)).first 1)
    (hp : p ∈ ((s.inter.alloc (listing N notx)).alloc [noty]).first 1) :
    Operands (s.withInter (((s.inter.alloc (listing N notx)).alloc [noty]).alloc [p])) N notx z
      noty p := by
  have hny := Pool.mem_free_of_first hnoty
  have hpf := Pool.mem_free_of_first hp
  obtain ⟨hpf', hpn⟩ := Pool.mem_free_alloc.mp hpf
  have hx : ∀ j < N, notx j ∉ (s.inter.alloc (listing N notx)).free := fun j hj => Fresh.not_free hj
  have hz' : ∀ i < 2 * N, z i ∉ (s.inter.alloc (listing N notx)).free :=
    fun i hi => not_free_alloc (hz i hi)
  exact {
    distinct := hzd
    out := fun i hi => not_free_alloc (not_free_alloc (hz' i hi))
    inX := fun j hj => not_free_alloc (not_free_alloc (hx j hj))
    inY := not_free_alloc not_free_self
    product := not_free_self
    x_ne_y := fun j hj e => hx j hj (e ▸ hny)
    x_ne_product := fun j hj e => hx j hj (e ▸ hpf')
    y_ne_product := fun e => hpn (e ▸ List.mem_cons_self)
    out_ne_x := fun i hi j hj => (hnotx.ne (hz i hi) j hj).symm
    out_ne_y := fun i hi e => hz' i hi (e ▸ hny)
    out_ne_product := fun i hi e => hz' i hi (e ▸ hpf') }

theorem bitsValue_nor (N : Nat) (b : Nat → Bool) (c : Bool) :
    (bitsValue N fun j => !(b j || c)) = (bitsValue N fun j => !b j) * (!c).toNat := by
  simp only [Bool.not_or, bitsValue_and]

omit [NeZero cols] in
theorem ends_firstProduct (hN : 1 ≤ N) (h : Operands s N notx z noty p) :
    Ends (firstProduct N notx z noty) s fun _ s' =>
      Step (fun o => ∃ j < 2 * N, o = z j) 0 (N * 2 + N * 1) s s' ∧
      ∀ r, num (N + 1) z s'.memory r =
        (bitsValue N fun j => !s.memory (notx j) r) * (!s.memory noty r).toNat := by
  refine Ends.bind (ends_fill (n := 2)
    (v := fun j r => !(s.memory (notx j) r || s.memory noty r)) (h.distinct.mono (by omega))
    fun i hi s' hs' => ?_) ?_
  · have hx : s'.memory (notx i) = s.memory (notx i) :=
      hs'.memory_eq (h.inX i hi) fun ⟨j, hj, e⟩ => h.out_ne_x j (by omega) i hi e.symm
    have hy : s'.memory noty = s.memory noty :=
      hs'.memory_eq h.inY fun ⟨j, hj, e⟩ => h.out_ne_y j (by omega) e.symm
    refine ends_of_run (run_initNor (h.x_ne_y i hi) (h.out_ne_x i (by omega) i hi).symm
      (h.out_ne_y i (by omega)).symm) ⟨step_nor (W := (· = z i)) rfl, ?_⟩
    rw [nor_memory, Function.update_self, hx, hy]
  · rintro _ s₁ ⟨hs₁, hlow⟩
    refine Ends.mono (ends_fill (n := 1) (v := fun _ _ => false)
      (t := fun j => z (N + j)) (fun i hi j hj e => ?_) fun i hi s' _ => ?_) ?_
    · have := h.distinct (N + i) (by omega) (N + j) (by omega) e
      omega
    · exact ends_of_run perform_init0 ⟨step_put (W := (· = z (N + i))) rfl _ 1,
        Function.update_self ..⟩
    · rintro _ s' ⟨hs', hhigh⟩
      have hkeep : ∀ j < N, s'.memory (z j) = s₁.memory (z j) := fun j hj =>
        hs'.memory_eq (hs₁.inter ▸ h.out j (by omega)) fun ⟨i, hi, e⟩ => by
          have := h.distinct j (by omega) (N + i) (by omega) e
          omega
      refine ⟨(hs₁.mono ?_ (Nat.le_refl 0)).trans (hs'.mono ?_ (Nat.le_refl 0)), fun r => ?_⟩
      · exact fun o ⟨j, hj, e⟩ => ⟨j, by omega, e⟩
      · exact fun o ⟨j, hj, e⟩ => ⟨N + j, by omega, e⟩
      · have h0 : s'.memory (z N) r = false := congrFun (hhigh 0 hN) r
        rw [num, bitsValue, h0, Bool.toNat_false, Nat.mul_zero, Nat.add_zero, ← bitsValue_nor]
        exact bitsValue_congr fun j hj => by rw [hkeep j hj, hlow j hj]

/-- One further partial product: `y i` times `x`, from bit `i` on. -/
theorem ends_addProduct {i : Nat} (hi : i < N) (hf : 5 ≤ s.inter.free.length)
    (h : Operands s N notx z noty p) :
    Ends (addProduct N i notx z noty p) s fun _ s' =>
      Step (fun o => o = p ∨ ∃ j < N + 1, o = z (i + j)) 5 (1 + N * 20) s s' ∧
      ∀ r, num (N + 1) (fun j => z (i + j)) s'.memory r = num N (fun j => z (i + j)) s.memory r +
        (bitsValue N fun j => !s.memory (notx j) r) * (!s.memory noty r).toNat := by
  refine ends_scratchOne (m := 4) (n := 1 + N * 20) (Q := fun mem => ∀ r,
    num (N + 1) (fun j => z (i + j)) mem r = num N (fun j => z (i + j)) s.memory r +
      (bitsValue N fun j => !s.memory (notx j) r) * (!s.memory noty r).toNat) (by omega)
    fun carry hcarry => ?_
  refine ends_seq perform_init0 ?_
  have hzc : ∀ j < 2 * N, z j ≠ carry := fun j hj => (ne_of_first hcarry (h.out j hj)).symm
  have hpc := ne_of_first hcarry h.product
  have hout : ∀ j < N, (if j + 1 < N then carry else z (i + N)) ∉ (s.inter.alloc [carry]).free ∧
      ∀ l < N, z (i + l) ≠ if j + 1 < N then carry else z (i + N) := by
    intro j hj
    split
    · exact ⟨not_free_self, fun l hl => hzc (i + l) (by omega)⟩
    · refine ⟨not_free_alloc (h.out (i + N) (by omega)), fun l hl e => ?_⟩
      have := h.distinct (i + l) (by omega) (i + N) (by omega) e
      omega
  refine Ends.mono (ends_ripple (k := 4) (n := fun _ => 20) (V := (· = p)) (z := fun j => z (i + j))
    (c := fun j => if j < N then carry else z (i + N)) (x := fun j => s.memory (z (i + j)))
    (y := fun j r => !(s.memory (notx j) r || s.memory noty r)) (fun j hj l hl e => ?_)
    (fun j hj => not_free_alloc (h.out (i + j) (by omega))) (fun l hl j hj => (hout j hj).2 l hl)
    (fun j hj => h.out_ne_product (i + j) (by omega)) fun j hj s' hi' hmem => ?_) ?_
  · have := h.distinct (i + j) (by omega) (i + l) (by omega) e
    omega
  · -- before its last pass the loop writes no carry column but the allocated one
    have hread : ∀ o, o ∉ s.inter.free → o ≠ p → (∀ l < j, o ≠ z (i + l)) →
        s'.memory o = s.memory o := by
      intro o ho hp hz
      have hoc := (ne_of_first hcarry ho).symm
      refine (hmem o (not_free_alloc ho) hp fun l hl => ⟨hz l hl, ?_⟩).trans
        (Function.update_of_ne hoc ..)
      rw [if_pos (show l + 1 < N by omega)]
      exact hoc
    have hx := hread _ (h.inX j hj) (h.x_ne_product j hj) fun l hl =>
      (h.out_ne_x (i + l) (by omega) j hj).symm
    have hy := hread _ h.inY h.y_ne_product fun l hl => (h.out_ne_y (i + l) (by omega)).symm
    have hz := hread _ (h.out (i + j) (by omega)) (h.out_ne_product (i + j) (by omega))
      fun l hl e => by
        have := h.distinct (i + j) (by omega) (i + l) (by omega) e
        omega
    have hin : s'.inter = s.inter.alloc [carry] := hi'
    have hzp := h.out_ne_product (i + j) (by omega)
    have hc : (if j < N - 1 then carry else z (i + N)) = if j + 1 < N then carry else z (i + N) :=
      if_congr (by omega) rfl rfl
    rw [hc, if_pos hj]
    refine ends_seq (run_initNor (h.x_ne_y j hj) (h.x_ne_product j hj) h.y_ne_product) ?_
    refine Ends.mono (ends_fullAdder (hin ▸ le_length_alloc hf)
      (hin ▸ not_free_alloc (h.out (i + j) (by omega))) (hin ▸ not_free_alloc h.product)
      (hin ▸ not_free_self) (hin ▸ not_free_alloc (h.out (i + j) (by omega)))
      (hin ▸ (hout j hj).1) hzp ((hout j hj).2 j hj)) ?_
    rintro _ s'' ⟨hstep, hsum⟩
    refine ⟨(step_nor (.inl rfl)).trans (hstep.mono (fun _ => .inr) (Nat.le_refl 4)), fun r => ?_⟩
    rw [hsum r, nor_memory, Function.update_of_ne hzp, Function.update_self,
      Function.update_of_ne hpc, hx, hy, hz]
  · rintro _ s' ⟨hstep, hsum⟩
    rw [sum_range_const] at hstep
    refine ⟨(step_put (.inr rfl) _ 1).trans (hstep.mono ?_ (Nat.le_refl 4)), fun r => ?_⟩
    · rintro o (rfl | ⟨j, hj, rfl | rfl⟩)
      · exact .inl (.inl rfl)
      · exact .inl (.inr ⟨j, by omega, rfl⟩)
      · split
        · exact .inr rfl
        · exact .inl (.inr ⟨N, by omega, rfl⟩)
    · have := hsum r
      rw [if_neg (Nat.lt_irrefl N), if_pos (show 0 < N by omega), put_memory,
        Function.update_self, bitsValue_nor] at this
      exact this

def rowCycles (N i : Nat) : Nat := if i = 0 then 0 else 3 * N + 2 + (i - 1) * (20 * N + 3)

theorem rowCycles_succ {N i : Nat} (hi : 1 ≤ i) :
    rowCycles N (i + 1) = rowCycles N i + (2 + (1 + N * 20)) := by
  obtain ⟨k, rfl⟩ : ∃ k, i = k + 1 := ⟨i - 1, by omega⟩
  simp only [rowCycles, if_neg (Nat.succ_ne_zero _), Nat.add_sub_cancel]
  ring

/-- What the first `i` rows leave: the low bits of `z` hold `X` times the bits of `y` so far. -/
structure Rows (X : ι → Nat) (s : SerialSimulator cols ι) (N : Nat) (y z : Nat → Fin cols)
    (noty p : Fin cols) (i : Nat) (s' : SerialSimulator cols ι) : Prop where
  step : Step (fun o => o = noty ∨ o = p ∨ ∃ j < 2 * N, o = z j) 5 (rowCycles N i) s s'
  value : 1 ≤ i → ∀ r, num (N + i) z s'.memory r = X r * num i y s.memory r

theorem ends_row {X : ι → Nat} {i : Nat} (hi : i < N) (hf : 5 ≤ s.inter.free.length)
    (h : Operands s N notx z noty p) (hX : ∀ r, (bitsValue N fun j => !s.memory (notx j) r) = X r)
    (hy : Held s N y) (hzy : ∀ i < 2 * N, ∀ j < N, z i ≠ y j) (hyn : ∀ j < N, y j ≠ noty)
    (hyp : ∀ j < N, y j ≠ p) {s' : SerialSimulator cols ι} (hs' : Rows X s N y z noty p i s') :
    Ends (do
      initNot (y i) noty
      if i = 0 then firstProduct N notx z noty else addProduct N i notx z noty p) s'
      fun _ => Rows X s N y z noty p (i + 1) := by
  have hin : (s'.not (y i) noty).inter = s.inter := hs'.step.inter
  have hops : Operands (s'.not (y i) noty) N notx z noty p := h.of_inter hin
  have hyi : s'.memory (y i) = s.memory (y i) := by
    refine hs'.step.memory_eq (hy i hi) ?_
    rintro (e | e | ⟨j, hj, e⟩)
    · exact hyn i hi e
    · exact hyp i hi e
    · exact hzy j hj i hi e.symm
  have hbit : ∀ r, (!(s'.not (y i) noty).memory noty r).toNat = (s.memory (y i) r).toNat := by
    intro r
    rw [not_memory, Function.update_self, hyi, Bool.not_not]
  have hX' : ∀ r, (bitsValue N fun j => !(s'.not (y i) noty).memory (notx j) r) = X r := by
    intro r
    rw [← hX r]
    refine bitsValue_congr fun j hj => ?_
    rw [not_memory, Function.update_of_ne (h.x_ne_y j hj), hs'.step.memory_eq (h.inX j hj) ?_]
    rintro (e | e | ⟨l, hl, e⟩)
    · exact h.x_ne_y j hj e
    · exact h.x_ne_product j hj e
    · exact h.out_ne_x l hl j hj e.symm
  refine ends_seq (run_initNot (hyn i hi)) ?_
  rcases Nat.eq_zero_or_pos i with rfl | h0
  · rw [if_pos rfl]
    refine Ends.mono (ends_firstProduct (by omega) hops) ?_
    rintro _ s'' ⟨hstep, hnum⟩
    refine ⟨?_, fun _ r => ?_⟩
    · have hs := (hs'.step.trans (step_not (.inl rfl))).trans
        (hstep.mono (fun _ h => .inr (.inr h)) (Nat.zero_le 5))
      have hc : rowCycles N 0 + 2 + (N * 2 + N * 1) = rowCycles N (0 + 1) := by
        simp only [rowCycles, if_pos, if_neg Nat.one_ne_zero]
        omega
      rwa [hc] at hs
    · rw [hnum, hX', hbit]
      simp [num, bitsValue]
  · rw [if_neg (by omega)]
    refine Ends.mono (ends_addProduct hi (hin ▸ hf) hops) ?_
    rintro _ s'' ⟨hstep, hnum⟩
    refine ⟨?_, fun _ r => ?_⟩
    · have hs := (hs'.step.trans (step_not (.inl rfl))).trans
        (hstep.mono ?_ (Nat.le_refl 5))
      · rwa [Nat.add_assoc, ← rowCycles_succ h0] at hs
      · rintro o (e | ⟨j, hj, e⟩)
        · exact .inr (.inl e)
        · exact .inr (.inr ⟨i + j, by omega, e⟩)
    · have hkeep : ∀ j < 2 * N, (s'.not (y i) noty).memory (z j) = s'.memory (z j) := fun j hj =>
        Function.update_of_ne (h.out_ne_y j hj) ..
      have hlow : num i z s''.memory r = num i z s'.memory r := by
        refine bitsValue_congr fun j hj => ?_
        rw [hstep.memory_eq (hops.out j (by omega)) ?_, hkeep j (by omega)]
        rintro (e | ⟨l, hl, e⟩)
        · exact h.out_ne_product j (by omega) e
        · have := h.distinct j (by omega) (i + l) (by omega) e
          omega
      have hmid : num N (fun j => z (i + j)) (s'.not (y i) noty).memory r =
          num N (fun j => z (i + j)) s'.memory r :=
        bitsValue_congr fun j hj => congrFun (hkeep (i + j) (by omega)) r
      have hold := hs'.value h0 r
      have hnew := hnum r
      rw [hX', hbit, hmid] at hnew
      rw [Nat.add_comm N i, num, bitsValue_add] at hold
      rw [show N + (i + 1) = i + (N + 1) by omega, num, bitsValue_add]
      simp only [num, bitsValue] at hold hnew hlow ⊢
      rw [hlow, hnew, Nat.mul_add, ← Nat.add_assoc, hold]
      ring

/-- **Partial products multiply.** Only the bits of `y` are read after `z` is written. -/
theorem ends_partialProducts (hN : 2 ≤ N) (hf : N + 7 ≤ s.inter.free.length) (hx : Held s N x)
    (hy : Held s N y) (hz : Held s (2 * N) z) (hzd : Distinct (2 * N) z)
    (hzy : ∀ i < 2 * N, ∀ j < N, z i ≠ y j) :
    Ends (partialProducts N x y z) s fun _ s' =>
      Step (fun o => ∃ j < 2 * N, o = z j) (N + 7) (N * 2 + rowCycles N N) s s' ∧
      ∀ r, num (2 * N) z s'.memory r = num N x s.memory r * num N y s.memory r := by
  refine ends_seq (run_check hN) ?_
  refine ends_scratch (m := 7) (n := N * 2 + rowCycles N N) (Q := fun mem => ∀ r, num (2 * N) z mem r =
    num N x s.memory r * num N y s.memory r) (by omega) (by omega) fun notx hnotx => ?_
  have hf₁ : 7 ≤ (s.inter.alloc (listing N notx)).free.length :=
    le_length_alloc (by rw [length_listing]; exact hf)
  refine ends_scratchOne (m := 6) (n := N * 2 + rowCycles N N) (Q := fun mem => ∀ r,
    num (2 * N) z mem r = num N x s.memory r * num N y s.memory r) (by simp; omega) fun noty hnoty => ?_
  have hf₂ : 6 ≤ ((s.inter.alloc (listing N notx)).alloc [noty]).free.length := le_length_alloc hf₁
  refine ends_scratchOne (m := 5) (n := N * 2 + rowCycles N N) (Q := fun mem => ∀ r,
    num (2 * N) z mem r = num N x s.memory r * num N y s.memory r) (by simp; omega) fun p hp => ?_
  have hops := operands_alloc hz hzd hnotx hnoty hp
  have hf₃ := le_length_alloc (C := [p]) (m := 5) hf₂
  have hny := (Pool.mem_free_alloc.mp (Pool.mem_free_of_first hnoty)).1
  have hpf := (Pool.mem_free_alloc.mp (Pool.mem_free_alloc.mp (Pool.mem_free_of_first hp)).1).1
  have hheld : ∀ o, o ∉ s.inter.free →
      o ∉ (((s.inter.alloc (listing N notx)).alloc [noty]).alloc [p]).free :=
    fun o ho => not_free_alloc (not_free_alloc (not_free_alloc ho))
  refine Ends.bind (ends_fill (n := 2) (v := fun i r => !s.memory (x i) r) hnotx.inj
    fun i hi s' hs' => ?_) ?_
  · have hxi : s'.memory (x i) = s.memory (x i) :=
      hs'.memory_eq (hheld _ (hx i hi)) fun ⟨j, hj, e⟩ => hnotx.ne (hx i hi) j hj e.symm
    refine ends_of_run (run_initNot (hnotx.ne (hx i hi) i hi).symm)
      ⟨step_not (W := (· = notx i)) rfl, ?_⟩
    rw [not_memory, Function.update_self, hxi]
  · rintro _ s₁ ⟨hs₁, hv⟩
    have hin : s₁.inter = ((s.inter.alloc (listing N notx)).alloc [noty]).alloc [p] := hs₁.inter
    have hX : ∀ r, (bitsValue N fun j => !s₁.memory (notx j) r) = num N x s.memory r := fun r =>
      bitsValue_congr fun j hj => by rw [hv j hj, Bool.not_not]
    have hY : ∀ r, num N y s₁.memory r = num N y s.memory r := fun r =>
      hs₁.num_eq (fun j hj => hheld _ (hy j hj))
        (fun j hj ⟨l, hl, e⟩ => hnotx.ne (hy j hj) l hl e.symm) r
    refine Ends.mono (ends_forRange (Rows (num N x s.memory) s₁ N y z noty p) ⟨.refl, by omega⟩
      fun i hi s' hs' => ends_row hi (hin ▸ hf₃) (hops.of_inter hin) hX
        (fun j hj => hin ▸ hheld _ (hy j hj)) hzy (fun j hj e => hy j hj (e ▸ hny))
        (fun j hj e => hy j hj (e ▸ hpf)) hs') ?_
    rintro _ s' ⟨hstep, hval⟩
    refine ⟨(hs₁.mono ?_ (Nat.zero_le 5)).trans (hstep.mono ?_ (Nat.le_refl 5)), fun r => ?_⟩
    · exact fun o ⟨j, hj, e⟩ => .inl (.inl (.inr ⟨j, hj, e.symm⟩))
    · rintro o (e | e | h)
      · exact .inl (.inr e)
      · exact .inr e
      · exact .inl (.inl (.inl h))
    · rw [Nat.two_mul, hval (by omega) r, hY r]

end

/-! ## Karatsuba -/

/-- The sum of the halves of `x`, in `upper + 1` columns of `z`. -/
def halfSum (lower upper : Nat) (x z : Nat → Fin cols) (zero : Fin cols) : SerialM cols ι Unit :=
  fixedAddition upper (padded lower x zero) (dropped lower x) z .zero (some (z upper))

/-- The products of the lower and of the upper halves, taken from `t1` in place. -/
def subtractOuter (lower upper : Nat) (z t1 : Nat → Fin cols) (zero : Fin cols) :
    SerialM cols ι Unit := do
  let t1N := 2 * (upper + 1)
  fixedSubtraction t1N t1 (padded (2 * lower) z zero) t1 none
  fixedSubtraction t1N t1 (padded (2 * upper) (dropped (2 * lower) z) zero) t1 none

def fixedMultiplication (N : Nat) (x y z : Nat → Fin cols) : SerialM cols ι Unit :=
  if N ≤ 20 then partialProducts N x y z
  else do
    let lower := N / 2
    let upper := N - lower
    let t1N := 2 * (upper + 1)
    let zero ← mallocOne
    perform .init0 [] [zero]
    halfSum lower upper x z zero
    halfSum lower upper y (dropped N z) zero
    let t1 ← malloc t1N
    fixedMultiplication (upper + 1) z (dropped N z) t1
    fixedMultiplication lower x y z
    fixedMultiplication upper (dropped lower x) (dropped lower y) (dropped (2 * lower) z)
    subtractOuter lower upper z t1 zero
    freeOne zero
    let carry ← mallocOne
    fixedAddition t1N t1 (dropped lower z) (dropped lower z) .zero (some carry)
    free t1N t1
    fixedAddBit (2 * N - (lower + t1N)) (dropped (lower + t1N) z) (dropped (lower + t1N) z)
      (some carry) none
    freeOne carry
termination_by N

/-- The intermediate columns of a multiplication. -/
def multCells (N : Nat) : Nat :=
  if N ≤ 20 then N + 7
  else
    let lower := N / 2
    let upper := N - lower
    1 + 2 * (upper + 1) +
      max (multCells (upper + 1)) (max (multCells lower) (multCells upper))
termination_by N

/-- The cycles of a multiplication, as its documentation counts them. -/
def multCycles (N : Nat) : Nat :=
  if N ≤ 20 then 20 * N ^ 2 - 12 * N - 1
  else
    let lower := N / 2
    let upper := N - lower
    142 * upper + 10 * N + 102 + multCycles (upper + 1) + multCycles upper + multCycles lower
termination_by N

section

variable {s : SerialSimulator cols ι} {m n N : Nat}
  {x y z t : Nat → Fin cols} {zero : Fin cols}

theorem ends_halfSum {lower upper : Nat} (hlu : lower ≤ upper) (hu : 1 ≤ upper)
    (hf : 5 ≤ s.inter.free.length) (hx : Held s (lower + upper) x)
    (hxd : Distinct (lower + upper) x) (hz : Held s (upper + 1) z) (hzd : Distinct (upper + 1) z)
    (hzx : ∀ i < upper + 1, ∀ j < lower + upper, z i ≠ x j) (h0 : zero ∉ s.inter.free)
    (hx0 : ∀ j < lower + upper, x j ≠ zero) (hz0 : ∀ i < upper + 1, z i ≠ zero)
    (hv : ∀ r, s.memory zero r = false) :
    Ends (halfSum lower upper x z zero) s fun _ s' =>
      Step (fun o => ∃ i < upper + 1, o = z i) 5 (1 + upper * 18) s s' ∧
      ∀ r, num (upper + 1) z s'.memory r =
        num lower x s.memory r + num upper (dropped lower x) s.memory r := by
  refine Ends.mono (ends_fixedAddition hf (held_padded (hx.mono (by omega)) h0) hx.dropped
    (hz.mono (by omega)) (hzd.mono (by omega)) (readFirst_of_ne fun i hi j hj => ?_)
    (readFirst_of_ne fun i hi j hj => hzx i (by omega) (lower + j) (by omega)) (fun i hi => ?_)
    (fun c hc => by cases hc) fun c hc => ?_) ?_
  · unfold padded
    split
    · exact hzx i (by omega) j (by omega)
    · exact hz0 i (by omega)
  · unfold padded dropped
    split
    · intro e
      have := hxd i (by omega) (lower + i) (by omega) e
      omega
    · exact (hx0 _ (by omega)).symm
  · obtain rfl : z upper = c := Option.some.inj hc
    refine ⟨hz upper (by omega), fun i hi e => ?_⟩
    have := hzd i (by omega) upper (by omega) e
    omega
  · rintro _ s' ⟨hstep, co, hco, hsum⟩
    refine ⟨hstep.mono ?_ (Nat.le_refl 5), fun r => ?_⟩
    · rintro o (⟨i, hi, e⟩ | e)
      · exact ⟨i, by omega, e⟩
      · exact ⟨upper, by omega, (Option.some.inj e).symm⟩
    · have := hsum r
      rw [num_padded hlu (hv r)] at this
      rw [num, bitsValue, hco hu (z upper) rfl]
      simpa [CarryIn.bit, num] using this

theorem ends_subtractPadded (hmn : m ≤ n) (hf : 6 ≤ s.inter.free.length) (ht : Held s n t)
    (htd : Distinct n t) (hz : Held s m z) (htz : ∀ i < n, ∀ j < m, t i ≠ z j)
    (h0 : zero ∉ s.inter.free) (ht0 : ∀ i < n, t i ≠ zero) (hv : ∀ r, s.memory zero r = false)
    (hle : ∀ r, num m z s.memory r ≤ num n t s.memory r) :
    Ends (fixedSubtraction n t (padded m z zero) t none) s fun _ s' =>
      Step (fun o => ∃ i < n, o = t i) 6 (1 + n * 20) s s' ∧
      ∀ r, num n t s'.memory r = num n t s.memory r - num m z s.memory r := by
  refine Ends.mono (ends_fixedSubtraction hf ht (held_padded hz h0) ht htd (readFirst_self htd)
    (readFirst_of_ne fun i hi j hj => ?_) fun c hc => by cases hc) ?_
  · unfold padded
    split
    · exact htz i hi j ‹_›
    · exact ht0 i hi
  · rintro _ s' ⟨hstep, co, -, hsum⟩
    refine ⟨hstep.mono ?_ (Nat.le_refl 6), fun r => ?_⟩
    · rintro o (h | h)
      · exact h
      · cases h
    · have hlt : num n t s'.memory r < 2 ^ n := num_lt
      have hr := hsum r
      have := hle r
      rw [num_padded hmn (hv r)] at hr
      cases hc : co r with
      | false =>
        rw [hc, Bool.toNat_false, Nat.mul_zero, Nat.add_zero] at hr
        omega
      | true =>
        rw [hc, Bool.toNat_true, Nat.mul_one] at hr
        omega

theorem ends_subtractOuter {lower upper : Nat} (hlu : lower ≤ upper)
    (hf : 6 ≤ s.inter.free.length) (ht : Held s (2 * (upper + 1)) t)
    (htd : Distinct (2 * (upper + 1)) t) (hz : Held s (2 * lower + 2 * upper) z)
    (htz : ∀ i < 2 * (upper + 1), ∀ j < 2 * lower + 2 * upper, t i ≠ z j)
    (h0 : zero ∉ s.inter.free) (ht0 : ∀ i < 2 * (upper + 1), t i ≠ zero)
    (hv : ∀ r, s.memory zero r = false)
    (hle : ∀ r, num (2 * lower) z s.memory r + num (2 * upper) (dropped (2 * lower) z) s.memory r ≤
      num (2 * (upper + 1)) t s.memory r) :
    Ends (subtractOuter lower upper z t zero) s fun _ s' =>
      Step (fun o => ∃ i < 2 * (upper + 1), o = t i) 6
        (1 + 2 * (upper + 1) * 20 + (1 + 2 * (upper + 1) * 20)) s s' ∧
      ∀ r, num (2 * (upper + 1)) t s'.memory r +
        (num (2 * lower) z s.memory r + num (2 * upper) (dropped (2 * lower) z) s.memory r) =
          num (2 * (upper + 1)) t s.memory r := by
  refine Ends.bind (ends_subtractPadded (by omega) hf ht htd (hz.mono (by omega))
    (fun i hi j hj => htz i hi j (by omega)) h0 ht0 hv fun r => ?_) ?_
  · have := hle r
    omega
  · rintro _ s₁ ⟨hs₁, hnum⟩
    have hkeep : ∀ o, o ∉ s.inter.free → (∀ i < 2 * (upper + 1), t i ≠ o) →
        s₁.memory o = s.memory o := fun o ho hW => hs₁.memory_eq ho fun ⟨i, hi, e⟩ => hW i hi e.symm
    have hin := hs₁.inter
    have hup : ∀ r, num (2 * upper) (dropped (2 * lower) z) s₁.memory r =
        num (2 * upper) (dropped (2 * lower) z) s.memory r := fun r =>
      bitsValue_congr fun j hj => congrFun (hkeep _ (hz (2 * lower + j) (by omega))
        fun i hi => htz i hi (2 * lower + j) (by omega)) r
    refine Ends.mono (ends_subtractPadded (by omega) (hin ▸ hf) (fun i hi => hin ▸ ht i hi) htd
      (fun i hi => hin ▸ hz (2 * lower + i) (by omega))
      (fun i hi j hj => htz i hi (2 * lower + j) (by omega)) (hin ▸ h0) ht0
      (fun r => by rw [hkeep zero h0 ht0, hv r]) fun r => ?_) ?_
    · rw [hup, hnum]
      have := hle r
      omega
    · rintro _ s' ⟨hs', hnum'⟩
      refine ⟨hs₁.trans hs', fun r => ?_⟩
      rw [hnum', hup, hnum]
      have := hle r
      omega

structure Factors (s : SerialSimulator cols ι) (N : Nat) (x y z : Nat → Fin cols) : Prop where
  heldX : Held s N x
  heldY : Held s N y
  heldZ : Held s (2 * N) z
  distinctX : Distinct N x
  distinctY : Distinct N y
  distinctZ : Distinct (2 * N) z
  apartX : ∀ i < 2 * N, ∀ j < N, z i ≠ x j
  apartY : ∀ i < 2 * N, ∀ j < N, z i ≠ y j

def Multiplies (cols : Nat) (ι : Type) [NeZero cols] (N : Nat) : Prop :=
  ∀ (s : SerialSimulator cols ι) (x y z : Nat → Fin cols), Factors s N x y z →
    multCells N ≤ s.inter.free.length →
    Ends (fixedMultiplication N x y z) s fun _ s' =>
      Step (fun o => ∃ j < 2 * N, o = z j) (multCells N) (multCycles N) s s' ∧
      ∀ r, num (2 * N) z s'.memory r = num N x s.memory r * num N y s.memory r

theorem multiplies_small (hN : 2 ≤ N) (h20 : N ≤ 20) : Multiplies cols ι N := by
  intro s x y z h hf
  rw [fixedMultiplication, if_pos h20]
  rw [multCells, if_pos h20] at hf ⊢
  have hc : N * 2 + rowCycles N N = multCycles N := by
    rw [multCycles, if_pos h20, rowCycles, if_neg (by omega)]
    obtain ⟨k, rfl⟩ : ∃ k, N = k + 2 := ⟨N - 2, by omega⟩
    have : 20 * (k + 2) ^ 2 =
        (k + 2) * 2 + (3 * (k + 2) + 2 + (k + 2 - 1) * (20 * (k + 2) + 3)) + (12 * (k + 2) + 1) := by
      rw [show k + 2 - 1 = k + 1 by omega]
      ring
    omega
  rw [← hc]
  exact ends_partialProducts hN hf h.heldX h.heldY h.heldZ h.distinctZ h.apartY

/-- Karatsuba's identity, on the pieces of the output before and after the middle term `T` is
added at `l`: the carry `c` goes into the part above it, and none comes out. -/
theorem karatsuba_value {l n m X₀ X₁ Y₀ Y₁ low mid top mid' top' T c co : Nat}
    (hz : low + 2 ^ l * (mid + 2 ^ n * top) = X₀ * Y₀ + 2 ^ l * (2 ^ l * (X₁ * Y₁)))
    (hT : T + (X₀ * Y₀ + X₁ * Y₁) = (X₀ + X₁) * (Y₀ + Y₁)) (hmid : mid' + 2 ^ n * c = T + mid)
    (htop : top' + 2 ^ m * co = top + c)
    (hlt : (X₀ + 2 ^ l * X₁) * (Y₀ + 2 ^ l * Y₁) < 2 ^ l * (2 ^ n * 2 ^ m)) :
    low + 2 ^ l * (mid' + 2 ^ n * top') = (X₀ + 2 ^ l * X₁) * (Y₀ + 2 ^ l * Y₁) := by
  have hT' : T = X₀ * Y₁ + X₁ * Y₀ := by nlinarith
  have htop' := congrArg (2 ^ n * ·) htop
  simp only [Nat.mul_add] at htop'
  have hsum : low + 2 ^ l * (mid' + 2 ^ n * top') + 2 ^ l * (2 ^ n * 2 ^ m) * co =
      (X₀ + 2 ^ l * X₁) * (Y₀ + 2 ^ l * Y₁) := by
    have h1 : mid' + 2 ^ n * top' + 2 ^ n * (2 ^ m * co) = T + mid + 2 ^ n * top := by linarith
    have h2 := congrArg (2 ^ l * ·) h1
    subst hT'
    simp only [Nat.mul_add] at h2 hz ⊢
    linarith
  have hco : co = 0 := by
    rcases Nat.eq_zero_or_pos co with h | h
    · exact h
    · have := Nat.le_mul_of_pos_right (2 ^ l * (2 ^ n * 2 ^ m)) h
      omega
  rw [hco, Nat.mul_zero, Nat.add_zero] at hsum
  exact hsum

theorem multCells_pos (N : Nat) : 7 ≤ multCells N := by
  induction N using Nat.strongRecOn with
  | _ N ih =>
    rw [multCells]
    split
    · omega
    · have := ih (N / 2) (by omega)
      simp only
      omega

/-! The three parts of the Karatsuba branch, each for any continuation. `K` are the intermediate
columns of the recursive multiplications. -/

structure Sums (s : SerialSimulator cols ι) (l u K : Nat) (x y z : Nat → Fin cols) (zero : Fin cols)
    (s' : SerialSimulator cols ι) : Prop where
  fresh : zero ∈ s.inter.first 1
  inter : s'.inter = s.inter.alloc [zero]
  zero : ∀ r, s'.memory zero r = false
  changes : Changes (Reach (fun o => ∃ j < 2 * (l + u), o = z j) s.inter (1 + 2 * (u + 1) + K))
    (1 + (1 + u * 18) + (1 + u * 18)) s s'
  sumX : ∀ r, num (u + 1) z s'.memory r = num l x s.memory r + num u (dropped l x) s.memory r
  sumY : ∀ r, num (u + 1) (dropped (l + u) z) s'.memory r =
    num l y s.memory r + num u (dropped l y) s.memory r

section

variable {l u K : Nat} {B : Type} {Q : B → SerialSimulator cols ι → Prop}

theorem ends_sums {f : Fin cols → SerialM cols ι B} (hl : 2 ≤ l) (hlu : l ≤ u)
    (h : Factors s (l + u) x y z) (hf : 6 ≤ s.inter.free.length)
    (hk : ∀ zero s', Sums s l u K x y z zero s' → Ends (f zero) s' Q) :
    Ends (do
      let zero ← mallocOne
      perform .init0 [] [zero]
      halfSum l u x z zero
      halfSum l u y (dropped (l + u) z) zero
      f zero) s Q := by
  refine Ends.bind (ends_mallocOne (by omega)) ?_
  rintro zero _ ⟨hzero, rfl⟩
  refine ends_seq perform_init0 ?_
  obtain ⟨s₁, hs₁⟩ : ∃ s₁, s₁ = (s.withInter (s.inter.alloc [zero])).put zero (fun _ => false) 1 :=
    ⟨_, rfl⟩
  have hin₁ : s₁.inter = s.inter.alloc [zero] := by rw [hs₁]; rfl
  have hf₁ : 5 ≤ s₁.inter.free.length := hin₁ ▸ le_length_alloc (C := [zero]) hf
  have hv₁ : ∀ r, s₁.memory zero r = false := fun r => by
    rw [hs₁, put_memory, Function.update_self]
  have hkeep₁ : ∀ o, o ∉ s.inter.free → s₁.memory o = s.memory o := fun o ho => by
    rw [hs₁, put_memory, Function.update_of_ne (ne_of_first hzero ho).symm]
    rfl
  have hheld : ∀ o, o ∉ s.inter.free → o ∉ s₁.inter.free := fun o ho => hin₁ ▸ not_free_alloc ho
  have h0 : zero ∉ s₁.inter.free := hin₁ ▸ not_free_self
  have hzz : ∀ j < 2 * (l + u), z j ≠ zero := fun j hj => (ne_of_first hzero (h.heldZ j hj)).symm
  have hch₁ : Changes (Reach (fun o => ∃ j < 2 * (l + u), o = z j) s.inter (1 + 2 * (u + 1) + K)) 1
      s s₁ := by
    rw [hs₁]
    exact (changes_put (.inr (Pool.first_mono (by omega) hzero)) _ 1).of_withInter
  have hfirst : ∀ c ∈ s₁.inter.first 5, Reach (fun o => ∃ j < 2 * (l + u), o = z j) s.inter
      (1 + 2 * (u + 1) + K) c := fun c hc => by
    rw [hin₁] at hc
    exact .inr (Pool.first_mono (by rw [List.length_singleton]; omega) (Pool.first_alloc_subset hc))
  rw [← hs₁]
  refine Ends.bind (ends_halfSum hlu (by omega) hf₁
    (fun j hj => hheld _ (h.heldX j hj)) h.distinctX (fun j hj => hheld _ (h.heldZ j (by omega)))
    (h.distinctZ.mono (by omega)) (fun i hi j hj => h.apartX i (by omega) j hj) h0
    (fun j hj => (ne_of_first hzero (h.heldX j hj)).symm) (fun j hj => hzz j (by omega)) hv₁) ?_
  rintro _ s₂ ⟨hs₂, hn₂⟩
  have hin₂ : s₂.inter = s₁.inter := hs₂.inter
  have hv₂ : ∀ r, s₂.memory zero r = false := fun r => by
    rw [hs₂.memory_eq h0 fun ⟨i, hi, e⟩ => hzz i (by omega) e.symm, hv₁]
  have hkeep₂ : ∀ o, o ∉ s.inter.free → (∀ j < 2 * (l + u), z j ≠ o) → s₂.memory o = s.memory o :=
    fun o ho hz => (hs₂.memory_eq (hheld o ho) fun ⟨i, hi, e⟩ => hz i (by omega) e.symm).trans
      (hkeep₁ o ho)
  refine Ends.bind (ends_halfSum (z := dropped (l + u) z) hlu (by omega) (hin₂ ▸ hf₁)
    (fun j hj => hin₂ ▸ hheld _ (h.heldY j hj)) h.distinctY
    (fun j hj => hin₂ ▸ hheld _ (h.heldZ (l + u + j) (by omega)))
    (Distinct.dropped (h.distinctZ.mono (by omega)))
    (fun i hi j hj => h.apartY (l + u + i) (by omega) j hj) (hin₂ ▸ h0)
    (fun j hj => (ne_of_first hzero (h.heldY j hj)).symm)
    (fun j hj => hzz (l + u + j) (by omega)) hv₂) ?_
  rintro _ s₃ ⟨hs₃, hn₃⟩
  refine hk zero s₃ ⟨hzero, (hs₃.inter.trans hin₂).trans hin₁, fun r => ?_, ?_, fun r => ?_,
    fun r => ?_⟩
  · rw [hs₃.memory_eq (hin₂ ▸ h0) fun ⟨i, hi, e⟩ => hzz (l + u + i) (by omega) e.symm, hv₂]
  · refine (hch₁.step hs₂ ?_ hfirst).step hs₃ ?_ (hin₂ ▸ hfirst)
    · exact fun o ⟨i, hi, e⟩ => .inl ⟨i, by omega, e⟩
    · exact fun o ⟨i, hi, e⟩ => .inl ⟨l + u + i, by omega, e⟩
  · have hapart : ∀ i < u + 1, ¬∃ j < u + 1, z i = dropped (l + u) z j := by
      rintro i hi ⟨j, hj, e⟩
      have := h.distinctZ i (by omega) (l + u + j) (by omega) e
      omega
    rw [hs₃.num_eq (fun i hi => hin₂ ▸ hheld _ (h.heldZ i (by omega))) hapart r, hn₂]
    congr 1
    · exact bitsValue_congr fun j hj => congrFun (hkeep₁ _ (h.heldX j (by omega))) r
    · exact bitsValue_congr fun j hj => congrFun (hkeep₁ _ (h.heldX (l + j) (by omega))) r
  · rw [hn₃]
    congr 1
    · exact bitsValue_congr fun j hj => congrFun (hkeep₂ _ (h.heldY j (by omega))
        fun i hi => h.apartY i hi j (by omega)) r
    · exact bitsValue_congr fun j hj => congrFun (hkeep₂ _ (h.heldY (l + j) (by omega))
        fun i hi => h.apartY i hi (l + j) (by omega)) r

structure Middle (s : SerialSimulator cols ι) (l u K : Nat) (x y z : Nat → Fin cols)
    (zero : Fin cols) (t : Nat → Fin cols) (s' : SerialSimulator cols ι) : Prop where
  fresh : Fresh (s.inter.alloc [zero]) (2 * (u + 1)) t
  inter : s'.inter = (s.inter.alloc [zero]).alloc (listing (2 * (u + 1)) t)
  changes : Changes (Reach (fun o => ∃ j < 2 * (l + u), o = z j) s.inter (1 + 2 * (u + 1) + K))
    (1 + (1 + u * 18) + (1 + u * 18) + multCycles (u + 1) + multCycles l + multCycles u +
      (1 + 2 * (u + 1) * 20 + (1 + 2 * (u + 1) * 20))) s s'
  low : ∀ r, num (2 * l) z s'.memory r = num l x s.memory r * num l y s.memory r
  high : ∀ r, num (2 * u) (dropped (2 * l) z) s'.memory r =
    num u (dropped l x) s.memory r * num u (dropped l y) s.memory r
  middle : ∀ r, num (2 * (u + 1)) t s'.memory r + (num l x s.memory r * num l y s.memory r +
      num u (dropped l x) s.memory r * num u (dropped l y) s.memory r) =
    (num l x s.memory r + num u (dropped l x) s.memory r) *
      (num l y s.memory r + num u (dropped l y) s.memory r)

omit [NeZero cols] in
theorem Factors.keep {N k n : Nat} {s' : SerialSimulator cols ι} (h : Factors s N x y z)
    (hc : Changes (Reach (fun o => ∃ j < 2 * N, o = z j) s.inter k) n s s') :
    (∀ j < N, s'.memory (x j) = s.memory (x j)) ∧ ∀ j < N, s'.memory (y j) = s.memory (y j) := by
  constructor
  · intro j hj
    refine hc.memory _ ?_
    rintro (⟨i, hi, e⟩ | hf)
    · exact h.apartX i hi j hj e.symm
    · exact h.heldX j hj (Pool.mem_free_of_first hf)
  · intro j hj
    refine hc.memory _ ?_
    rintro (⟨i, hi, e⟩ | hf)
    · exact h.apartY i hi j hj e.symm
    · exact h.heldY j hj (Pool.mem_free_of_first hf)

theorem ends_middle {f : (Nat → Fin cols) → SerialM cols ι B} {zero : Fin cols}
    {s₁ : SerialSimulator cols ι} (hl : 2 ≤ l) (hlu : l ≤ u) (hul : u ≤ l + 1)
    (ihs : Multiplies cols ι (u + 1)) (ihl : Multiplies cols ι l) (ihu : Multiplies cols ι u)
    (hKs : multCells (u + 1) ≤ K) (hKl : multCells l ≤ K) (hKu : multCells u ≤ K)
    (h : Factors s (l + u) x y z) (hf : 1 + 2 * (u + 1) + K ≤ s.inter.free.length)
    (hs : Sums s l u K x y z zero s₁)
    (hk : ∀ t s', Middle s l u K x y z zero t s' → Ends (f t) s' Q) :
    Ends (do
      let t ← malloc (2 * (u + 1))
      fixedMultiplication (u + 1) z (dropped (l + u) z) t
      fixedMultiplication l x y z
      fixedMultiplication u (dropped l x) (dropped l y) (dropped (2 * l) z)
      subtractOuter l u z t zero
      f t) s₁ Q := by
  have h7 : 7 ≤ K := (multCells_pos l).trans hKl
  have hf₁ : 2 * (u + 1) + K ≤ (s.inter.alloc [zero]).free.length :=
    le_length_alloc (by rw [List.length_singleton]; omega)
  refine Ends.bind (ends_malloc (by omega) (by rw [hs.inter]; omega)) ?_
  rintro t _ ⟨ht, rfl⟩
  rw [hs.inter] at ht ⊢
  obtain ⟨P, hP⟩ : ∃ P, P = (s.inter.alloc [zero]).alloc (listing (2 * (u + 1)) t) := ⟨_, rfl⟩
  rw [← hP]
  have hfP : K ≤ P.free.length := hP ▸ le_length_alloc (by rw [length_listing]; exact hf₁)
  have hheld : ∀ o, o ∉ s.inter.free → o ∉ P.free :=
    fun o ho => hP ▸ not_free_alloc (not_free_alloc ho)
  have htP : ∀ i < 2 * (u + 1), t i ∉ P.free := fun i hi => hP ▸ Fresh.not_free hi
  have htz : ∀ i < 2 * (u + 1), ∀ j < 2 * (l + u), t i ≠ z j := fun i hi j hj =>
    ht.ne (not_free_alloc (h.heldZ j hj)) i hi
  -- what the parts of this phase may touch is in reach of the whole
  have hreach : ∀ k ≤ K, ∀ c ∈ P.first k, Reach (fun o => ∃ j < 2 * (l + u), o = z j) s.inter
      (1 + 2 * (u + 1) + K) c := fun k hk c hc => by
    rw [hP] at hc
    have h2 := Pool.first_alloc_subset (Pool.first_alloc_subset hc)
    rw [length_listing, List.length_singleton] at h2
    exact .inr (Pool.first_mono (by omega) h2)
  have htreach : ∀ c, (∃ i < 2 * (u + 1), c = t i) → Reach (fun o => ∃ j < 2 * (l + u), o = z j)
      s.inter (1 + 2 * (u + 1) + K) c := by
    rintro c ⟨i, hi, rfl⟩
    have h2 := Pool.first_alloc_subset (ht.mem i hi)
    exact .inr (Pool.first_mono (by rw [List.length_singleton]; omega) h2)
  have hz0 : ∀ j < 2 * (l + u), z j ≠ zero := fun j hj => (ne_of_first hs.fresh (h.heldZ j hj)).symm
  have ht0 : ∀ i < 2 * (u + 1), t i ≠ zero := fun i hi => ht.ne not_free_self i hi
  have h0P : zero ∉ P.free := hP ▸ not_free_alloc not_free_self
  -- the product of the sums
  refine Ends.bind (ihs (s₁.withInter P) z (dropped (l + u) z) t
    { heldX := fun i hi => hheld _ (h.heldZ i (by omega))
      heldY := fun i hi => hheld _ (h.heldZ (l + u + i) (by omega))
      heldZ := htP
      distinctX := h.distinctZ.mono (by omega)
      distinctY := Distinct.dropped (h.distinctZ.mono (by omega))
      distinctZ := ht.inj
      apartX := fun i hi j hj => htz i hi j (by omega)
      apartY := fun i hi j hj => htz i hi (l + u + j) (by omega) } (hKs.trans hfP)) ?_
  rintro _ s₃ ⟨hs₃, hn₃⟩
  have hin₃ : s₃.inter = P := hs₃.inter
  have hch₃ := (hs.changes.withInter P).step hs₃ htreach (hreach _ hKs)
  obtain ⟨hx₃, hy₃⟩ := h.keep hch₃
  -- the product of the lower halves
  refine Ends.bind (ihl s₃ x y z
    { heldX := fun i hi => hin₃ ▸ hheld _ (h.heldX i (by omega))
      heldY := fun i hi => hin₃ ▸ hheld _ (h.heldY i (by omega))
      heldZ := fun i hi => hin₃ ▸ hheld _ (h.heldZ i (by omega))
      distinctX := h.distinctX.mono (by omega)
      distinctY := h.distinctY.mono (by omega)
      distinctZ := h.distinctZ.mono (by omega)
      apartX := fun i hi j hj => h.apartX i (by omega) j (by omega)
      apartY := fun i hi j hj => h.apartY i (by omega) j (by omega) }
    (hin₃ ▸ hKl.trans hfP)) ?_
  rintro _ s₄ ⟨hs₄, hn₄⟩
  have hin₄ : s₄.inter = P := hs₄.inter.trans hin₃
  have hch₄ := hch₃.step hs₄ (fun o ⟨j, hj, e⟩ => .inl ⟨j, by omega, e⟩) (hin₃ ▸ hreach _ hKl)
  obtain ⟨hx₄, hy₄⟩ := h.keep hch₄
  -- the product of the upper halves
  refine Ends.bind (ihu s₄ (dropped l x) (dropped l y) (dropped (2 * l) z)
    { heldX := fun i hi => hin₄ ▸ hheld _ (h.heldX (l + i) (by omega))
      heldY := fun i hi => hin₄ ▸ hheld _ (h.heldY (l + i) (by omega))
      heldZ := fun i hi => hin₄ ▸ hheld _ (h.heldZ (2 * l + i) (by omega))
      distinctX := Distinct.dropped h.distinctX
      distinctY := Distinct.dropped h.distinctY
      distinctZ := Distinct.dropped (h.distinctZ.mono (by omega))
      apartX := fun i hi j hj => h.apartX (2 * l + i) (by omega) (l + j) (by omega)
      apartY := fun i hi j hj => h.apartY (2 * l + i) (by omega) (l + j) (by omega) }
    (hin₄ ▸ hKu.trans hfP)) ?_
  rintro _ s₅ ⟨hs₅, hn₅⟩
  have hin₅ : s₅.inter = P := hs₅.inter.trans hin₄
  have hch₅ := hch₄.step hs₅ (fun o ⟨j, hj, e⟩ => .inl ⟨2 * l + j, by omega, e⟩)
    (hin₄ ▸ hreach _ hKu)
  -- columns that the last two products leave
  have hkeep : ∀ o, o ∉ P.free → (∀ j < 2 * (l + u), z j ≠ o) → s₅.memory o = s₃.memory o :=
    fun o ho hz => (hs₅.memory_eq (hin₄ ▸ ho) fun ⟨j, hj, e⟩ => hz (2 * l + j) (by omega) e.symm).trans
      (hs₄.memory_eq (hin₃ ▸ ho) fun ⟨j, hj, e⟩ => hz j (by omega) e.symm)
  have hv₅ : ∀ r, s₅.memory zero r = false := fun r => by
    rw [hkeep zero h0P hz0, hs₃.memory_eq h0P fun ⟨i, hi, e⟩ => ht0 i hi e.symm]
    exact hs.zero r
  have hmid : ∀ r, num (2 * (u + 1)) t s₅.memory r =
      (num l x s.memory r + num u (dropped l x) s.memory r) *
        (num l y s.memory r + num u (dropped l y) s.memory r) := fun r => by
    rw [← hs.sumX, ← hs.sumY]
    refine Eq.trans (bitsValue_congr fun i hi => ?_) (hn₃ r)
    rw [hkeep _ (htP i hi) fun j hj => (htz i hi j hj).symm]
  have hlow : ∀ r, num (2 * l) z s₅.memory r = num l x s.memory r * num l y s.memory r := fun r => by
    have hapart : ∀ i < 2 * l, ¬∃ j < 2 * u, z i = dropped (2 * l) z j := by
      rintro i hi ⟨j, hj, e⟩
      have := h.distinctZ i (by omega) (2 * l + j) (by omega) e
      omega
    rw [hs₅.num_eq (fun i hi => hin₄ ▸ hheld _ (h.heldZ i (by omega))) hapart, hn₄]
    congr 1
    · exact bitsValue_congr fun j hj => congrFun (hx₃ j (by omega)) r
    · exact bitsValue_congr fun j hj => congrFun (hy₃ j (by omega)) r
  have hhigh : ∀ r, num (2 * u) (dropped (2 * l) z) s₅.memory r =
      num u (dropped l x) s.memory r * num u (dropped l y) s.memory r := fun r => by
    rw [hn₅]
    congr 1
    · exact bitsValue_congr fun j hj => congrFun (hx₄ (l + j) (by omega)) r
    · exact bitsValue_congr fun j hj => congrFun (hy₄ (l + j) (by omega)) r
  -- both taken from the product of the sums
  refine Ends.bind (ends_subtractOuter hlu (by rw [hin₅]; omega) (fun i hi => hin₅ ▸ htP i hi) ht.inj
    (fun j hj => hin₅ ▸ hheld _ (h.heldZ j (by omega))) (fun i hi j hj => htz i hi j (by omega))
    (hin₅ ▸ h0P) ht0 hv₅ fun r => ?_) ?_
  · rw [hlow, hhigh, hmid]
    nlinarith
  · rintro _ s₆ ⟨hs₆, hn₆⟩
    have hzkeep : ∀ j < 2 * (l + u), s₆.memory (z j) = s₅.memory (z j) := fun j hj =>
      hs₆.memory_eq (hin₅ ▸ hheld _ (h.heldZ j hj)) fun ⟨i, hi, e⟩ => htz i hi j hj e.symm
    refine hk t s₆ ⟨ht, by rw [hs₆.inter, hin₅, hP],
      hch₅.step hs₆ htreach (hin₅ ▸ hreach 6 (by omega)), fun r => ?_, fun r => ?_, fun r => ?_⟩
    · rw [← hlow]
      exact bitsValue_congr fun j hj => congrFun (hzkeep j (by omega)) r
    · rw [← hhigh]
      exact bitsValue_congr fun j hj => congrFun (hzkeep (2 * l + j) (by omega)) r
    · rw [← hmid, ← hlow, ← hhigh]
      exact hn₆ r

theorem ends_merge {zero : Fin cols} {s₂ : SerialSimulator cols ι} (hl : 3 ≤ l) (hlu : l ≤ u)
    (hul : u ≤ l + 1) (hK : 7 ≤ K) (h : Factors s (l + u) x y z)
    (hf : 1 + 2 * (u + 1) + K ≤ s.inter.free.length) (hzero : zero ∈ s.inter.first 1)
    (hs : Middle s l u K x y z zero t s₂) :
    Ends (do
      freeOne zero
      let carry ← mallocOne
      fixedAddition (2 * (u + 1)) t (dropped l z) (dropped l z) .zero (some carry)
      free (2 * (u + 1)) t
      fixedAddBit (2 * (l + u) - (l + 2 * (u + 1))) (dropped (l + 2 * (u + 1)) z)
        (dropped (l + 2 * (u + 1)) z) (some carry) none
      freeOne carry) s₂ fun _ s' =>
      Step (fun o => ∃ j < 2 * (l + u), o = z j) (1 + 2 * (u + 1) + K)
        (142 * u + 10 * (l + u) + 102 + multCycles (u + 1) + multCycles u + multCycles l) s s' ∧
      ∀ r, num (2 * (l + u)) z s'.memory r =
        num (l + u) x s.memory r * num (l + u) y s.memory r := by
  obtain ⟨n, hn⟩ : ∃ n, n = 2 * (u + 1) := ⟨_, rfl⟩
  obtain ⟨m, hm⟩ : ∃ m, m = 2 * (l + u) - (l + n) := ⟨_, rfl⟩
  have hzf := Pool.mem_free.mp (Pool.mem_free_of_first hzero)
  have hfresh := hs.fresh
  have hin := hs.inter
  simp only [← hn] at hf hfresh hin ⊢
  rw [← hm]
  have htfree : ∀ c ∈ listing n t, c ∈ s.inter.free ∧ c ≠ zero := fun c hc => by
    obtain ⟨i, hi, rfl⟩ := mem_listing.mp hc
    have := Pool.mem_free_alloc.mp (hfresh.mem_free hi)
    exact ⟨this.1, fun e => this.2 (e ▸ List.mem_cons_self)⟩
  refine ends_seq (run_freeOne (by rw [hin]; exact hzf.1)) ?_
  rw [hin, release_alloc_alloc (fun c hc => by rw [List.mem_singleton.mp hc]; exact hzf.2)
    fun c hc hl => (htfree c hl).2 (List.mem_singleton.mp hc)]
  have hf₃ : 1 + K ≤ (s.inter.alloc (listing n t)).free.length :=
    le_length_alloc (by rw [length_listing]; omega)
  refine Ends.bind (ends_mallocOne (by rw [withInter_inter]; omega)) ?_
  rintro carry _ ⟨hcarry, rfl⟩
  simp only [withInter_inter, withInter_withInter] at hcarry ⊢
  have hcf := Pool.mem_free_alloc.mp (Pool.mem_free_of_first hcarry)
  have hcz : ∀ j < 2 * (l + u), z j ≠ carry := fun j hj e => h.heldZ j hj (e ▸ hcf.1)
  have htz : ∀ i < n, ∀ j < 2 * (l + u), t i ≠ z j := fun i hi j hj e =>
    h.heldZ j hj (e ▸ (htfree _ (mem_listing.mpr ⟨i, hi, rfl⟩)).1)
  have hheld : ∀ o, o ∉ s.inter.free →
      o ∉ ((s.inter.alloc (listing n t)).alloc [carry]).free :=
    fun o ho => not_free_alloc (not_free_alloc ho)
  have hdz : Distinct n (dropped l z) := Distinct.dropped (h.distinctZ.mono (by omega))
  -- the middle term is added at bit `l`
  refine Ends.bind (ends_fixedAddition (le_length_alloc (by rw [List.length_singleton]; omega))
    (fun i hi => not_free_alloc (Fresh.not_free hi))
    (fun i hi => hheld _ (h.heldZ (l + i) (by omega)))
    (fun i hi => hheld _ (h.heldZ (l + i) (by omega))) hdz
    (readFirst_of_ne fun i hi j hj => (htz j hj (l + i) (by omega)).symm) (readFirst_self hdz)
    (fun i hi => htz i hi (l + i) (by omega)) (fun c hc => by cases hc) fun c hc => ?_) ?_
  · obtain rfl : carry = c := Option.some.inj hc
    exact ⟨not_free_self, fun i hi => hcz (l + i) (by omega)⟩
  rintro _ s₃ ⟨hs₃, co, hco, hn₃⟩
  have hin₃ : s₃.inter = (s.inter.alloc (listing n t)).alloc [carry] := hs₃.inter
  have hcm : s₃.memory carry = co := hco (by omega) carry rfl
  refine ends_seq (run_free fun c hc => ?_) ?_
  · rw [hin₃]
    exact (Pool.mem_free.mp (htfree c hc).1).1
  rw [hin₃, release_alloc_alloc (fun c hc => (Pool.mem_free.mp (htfree c hc).1).2)
    fun c hc hd => hcf.2 ((List.mem_singleton.mp hd : c = carry) ▸ hc)]
  -- its carry goes into the bits above
  refine Ends.bind (ends_fixedAddBit (le_length_alloc (by rw [List.length_singleton]; omega))
    (fun i hi => not_free_alloc (h.heldZ (l + n + i) (by omega)))
    (fun i hi => not_free_alloc (h.heldZ (l + n + i) (by omega)))
    (Distinct.dropped (h.distinctZ.mono (by omega)))
    (readFirst_self (Distinct.dropped (h.distinctZ.mono (by omega)))) (fun c hc => ?_)
    fun c hc => by cases hc) ?_
  · obtain rfl : carry = c := Option.some.inj hc
    exact ⟨not_free_self, hcz (l + n + 0) (by omega)⟩
  rintro _ s₄ ⟨hs₄, co', -, hn₄⟩
  have hin₄ : s₄.inter = s.inter.alloc [carry] := hs₄.inter
  have hca := Pool.mem_free.mp hcf.1
  refine ends_of_run (run_freeOne (by rw [hin₄]; exact hca.1)) ?_
  rw [hin₄, Pool.release_alloc fun c hc => by rw [List.mem_singleton.mp hc]; exact hca.2]
  have hreach : ∀ c ∈ s.inter.first (n + (1 + K)), Reach (fun o => ∃ j < 2 * (l + u), o = z j)
      s.inter (1 + n + K) c := fun c hc => .inr (Pool.first_mono (by omega) hc)
  have hcr : Reach (fun o => ∃ j < 2 * (l + u), o = z j) s.inter (1 + n + K) carry := by
    have := Pool.first_alloc_subset hcarry
    rw [length_listing] at this
    exact .inr (Pool.first_mono (by omega) this)
  refine ⟨⟨rfl, ?_⟩, fun r => ?_⟩
  · have hch := hs.changes
    rw [← hn] at hch
    have hch₃ := (hch.withInter ((s.inter.alloc (listing n t)).alloc [carry])).step hs₃
      (fun o ho => ?_) fun c hc => ?_
    · have hch₄ := (hch₃.withInter (s.inter.alloc [carry])).step hs₄ (fun o ho => ?_) fun c hc => ?_
      · have hcyc : 1 + (1 + u * 18) + (1 + u * 18) + multCycles (u + 1) + multCycles l +
            multCycles u + (1 + n * 20 + (1 + n * 20)) +
            ((CarryIn.zero : CarryIn cols).cycles + n * 18) +
            ((CarryIn.cell carry).cycles + m * 10) =
            142 * u + 10 * (l + u) + 102 + multCycles (u + 1) + multCycles u + multCycles l := by
          simp only [CarryIn.cycles]
          omega
        rw [← hcyc]
        exact hch₄.withInter _
      · rcases ho with ⟨i, hi, e⟩ | ho
        · exact .inl ⟨l + n + i, by omega, e⟩
        · cases ho
      · have := Pool.first_alloc_subset hc
        rw [List.length_singleton] at this
        exact .inr (Pool.first_mono (by omega) this)
    · rcases ho with ⟨i, hi, e⟩ | ho
      · exact .inl ⟨l + i, by omega, e⟩
      · exact Option.some.inj ho ▸ hcr
    · have := Pool.first_alloc_subset (Pool.first_alloc_subset hc)
      rw [length_listing, List.length_singleton] at this
      exact hreach c (Pool.first_mono (by omega) this)
  · -- what each of the two additions leaves of the output
    have hkeep₃ : ∀ j < 2 * (l + u), (∀ i < n, j ≠ l + i) → s₃.memory (z j) = s₂.memory (z j) := by
      intro j hj hne
      refine hs₃.memory_eq (hheld _ (h.heldZ j hj)) ?_
      rintro (⟨i, hi, e⟩ | e)
      · exact hne i hi (h.distinctZ j hj (l + i) (by omega) e)
      · exact hcz j hj (Option.some.inj e).symm
    have hkeep₄ : ∀ j < l + n, s₄.memory (z j) = s₃.memory (z j) := by
      intro j hj
      refine hs₄.memory_eq (not_free_alloc (h.heldZ j (by omega))) ?_
      rintro (⟨i, hi, e⟩ | e)
      · have := h.distinctZ j (by omega) (l + n + i) (by omega) e
        omega
      · cases e
    have hlow : num l z s₄.memory r = num l z s₂.memory r := bitsValue_congr fun j hj => by
      rw [hkeep₄ j (by omega), hkeep₃ j (by omega) fun i _ => by omega]
    have hmid : num n (dropped l z) s₄.memory r = num n (dropped l z) s₃.memory r :=
      bitsValue_congr fun j hj => congrFun (hkeep₄ (l + j) (by omega)) r
    have htop : num m (dropped (l + n) z) s₃.memory r = num m (dropped (l + n) z) s₂.memory r :=
      bitsValue_congr fun j hj => congrFun (hkeep₃ (l + n + j) (by omega) fun i hi => by omega) r
    have hsplit : ∀ mem : Fin cols → ι → Bool, num (2 * (l + u)) z mem r =
        num l z mem r + 2 ^ l * (num n (dropped l z) mem r +
          2 ^ n * num m (dropped (l + n) z) mem r) := by
      intro mem
      rw [show 2 * (l + u) = l + (n + m) by omega, num_add, num_add, dropped_dropped]
    have hold : num (2 * (l + u)) z s₂.memory r =
        num (2 * l) z s₂.memory r + 2 ^ (2 * l) * num (2 * u) (dropped (2 * l) z) s₂.memory r := by
      rw [show 2 * (l + u) = 2 * l + 2 * u by omega, num_add]
    have hadd := hn₃ r
    have hbit := hn₄ r
    simp only [withInter_memory, CarryIn.ofBit, CarryIn.bit, Bool.toNat_false, Nat.add_zero] at hadd hbit
    rw [hcm, htop] at hbit
    have hmiddle := hs.middle r
    rw [← hn] at hmiddle
    have hx : num (l + u) x s.memory r < 2 ^ (l + u) := num_lt
    have hy : num (l + u) y s.memory r < 2 ^ (l + u) := num_lt
    have hlt := Nat.mul_lt_mul'' hx hy
    rw [withInter_memory, hsplit, hlow, hmid]
    rw [num_add l u x, num_add l u y] at hlt ⊢
    refine karatsuba_value ?_ hmiddle hadd hbit ?_
    · rw [← hsplit, hold, hs.low, hs.high, Nat.two_mul, Nat.pow_add, Nat.mul_assoc]
    · refine hlt.trans_eq ?_
      rw [← Nat.pow_add, ← Nat.pow_add, ← Nat.pow_add]
      congr 1
      omega

theorem multiplies_karatsuba (hN : 20 < l + u) (hlu : l ≤ u) (hul : u ≤ l + 1)
    (ihs : Multiplies cols ι (u + 1)) (ihl : Multiplies cols ι l) (ihu : Multiplies cols ι u) :
    Multiplies cols ι (l + u) := by
  intro s x y z h hf
  have e1 : (l + u) / 2 = l := by omega
  have e2 : l + u - l = u := by omega
  rw [fixedMultiplication, if_neg (by omega)]
  rw [multCells, if_neg (by omega)] at hf ⊢
  rw [multCycles, if_neg (by omega)]
  simp only [e1, e2] at hf ⊢
  have h7 := multCells_pos l
  refine ends_sums (K := max (multCells (u + 1)) (max (multCells l) (multCells u))) (by omega) hlu
    h (by omega) fun zero s₁ hs₁ => ?_
  refine ends_middle (by omega) hlu hul ihs ihl ihu (by omega) (by omega) (by omega) h hf hs₁
    fun t s₂ hs₂ => ?_
  exact ends_merge (by omega) hlu hul (by omega) h hf hs₁.fresh hs₂

end

theorem multiplies (hN : 2 ≤ N) : Multiplies cols ι N := by
  induction N using Nat.strongRecOn with
  | _ N ih =>
    rcases Nat.lt_or_ge 20 N with h20 | h20
    · have := multiplies_karatsuba (l := N / 2) (u := N - N / 2) (by omega) (by omega) (by omega)
        (ih (N - N / 2 + 1) (by omega) (by omega)) (ih (N / 2) (by omega) (by omega))
        (ih (N - N / 2) (by omega) (by omega))
      rwa [show N / 2 + (N - N / 2) = N by omega] at this
    · exact multiplies_small hN h20

/-! ## Products -/

section

variable {s : SerialSimulator cols ι} {N : Nat} {x y z : Nat → Fin cols}

/-- **`fixedMultiplication` multiplies**, in the cycles that its documentation counts, whether by
partial products or by Karatsuba's recursion. -/
theorem fixedMultiplication_leaves (hN : 2 ≤ N) (hf : multCells N ≤ s.inter.free.length)
    (h : Factors s N x y z) :
    Ends (fixedMultiplication N x y z) s fun _ s' =>
      Leaves (2 * N) z none (fun r => num N x s.memory r * num N y s.memory r) (fun _ => false)
        (multCycles N) s s' := by
  refine Ends.mono (multiplies hN s x y z h hf) ?_
  rintro _ s' ⟨hstep, hprod⟩
  exact (hstep.mono (fun _ => .inl) (Nat.le_refl _)).leaves hprod fun c hc => by cases hc

theorem factors_columns {a : Nat} {v : Nat → Bool} (h : 4 * N ≤ a) (ha : a ≤ cols) :
    Factors (loaded a v : SerialSimulator cols ι) N (columns 0) (columns N) (columns (2 * N)) :=
  ⟨held_columns (by omega) ha, held_columns (by omega) ha, held_columns (by omega) ha,
    distinct_columns (by omega), distinct_columns (by omega), distinct_columns (by omega),
    fun _ hi _ hj e => columns_ne (by omega) (by omega) hj hi e.symm,
    fun _ hi _ hj e => columns_ne (by omega) (by omega) hj hi e.symm⟩

theorem fixedMultiplication_leaves_karatsuba :
    Ends (fixedMultiplication 24 (columns 0) (columns 24) (columns 48))
      (loaded 96 (· < 48) : SerialSimulator 143 Unit) fun _ s' =>
        Leaves 48 (columns 48) none (fun _ => 281474943156225) (fun _ => false) 10739
          (loaded 96 (· < 48)) s' := by
  have hcells : multCells 24 ≤ (loaded 96 (· < 48) : SerialSimulator 143 Unit).inter.free.length := by
    rw [loaded, length_free_allocator]
    simp [multCells]
  have hcycles : multCycles 24 = 10739 := by simp [multCycles]
  have hx : num 24 (columns 0) (loaded 96 (· < 48) : SerialSimulator 143 Unit).memory () = 16777215 := by
    decide +kernel
  have hy : num 24 (columns 24) (loaded 96 (· < 48) : SerialSimulator 143 Unit).memory () = 16777215 := by
    decide +kernel
  have := fixedMultiplication_leaves (by decide) hcells (factors_columns (by decide) (by decide))
  simpa only [hcycles, hx, hy] using this

end

/-! ## The choice of the algorithm -/

def productCycles (N : Nat) : Nat := 20 * N ^ 2 - 12 * N - 1

theorem productCycles_eq {N : Nat} (hN : 2 ≤ N) : N * 2 + rowCycles N N = productCycles N := by
  obtain ⟨M, rfl⟩ := Nat.exists_eq_add_of_le' hN
  rw [rowCycles, if_neg (by omega), productCycles, show M + 2 - 1 = M + 1 by omega,
    show 20 * (M + 2) ^ 2 = (M + 2) * 2 + (3 * (M + 2) + 2 + (M + 1) * (20 * (M + 2) + 3)) +
      12 * (M + 2) + 1 by ring]
  omega

theorem productCycles_add {N : Nat} (hN : 1 ≤ N) : productCycles N + 12 * N + 1 = 20 * N ^ 2 := by
  have : N ≤ N ^ 2 := Nat.le_self_pow (by decide) N
  unfold productCycles
  omega

/-- One step of the recursion, with the halves multiplied in at most `e` cycles more than by
partial products. -/
theorem karatsuba_cycles {l u e a b c : Nat} (hl : 2 ≤ l) (hlu : l ≤ u) (hul : u ≤ l + 1)
    (ha : a ≤ productCycles (u + 1) + e) (hb : b ≤ productCycles u + e)
    (hc : c ≤ productCycles l + e) :
    142 * u + 10 * (l + u) + 102 + a + b + c + 20 * l ^ 2 ≤
      productCycles (l + u) + 190 * l + 308 + 3 * e := by
  have h1 := productCycles_add (N := u + 1) (by omega)
  have h2 := productCycles_add (N := u) (by omega)
  have h3 := productCycles_add (N := l) (by omega)
  have h4 := productCycles_add (N := l + u) (by omega)
  obtain rfl | rfl : u = l ∨ u = l + 1 := by omega
  · nlinarith
  · nlinarith

theorem multCycles_small {N : Nat} (hN : N ≤ 20) : multCycles N = productCycles N := by
  rw [multCycles, if_pos hN, productCycles]

theorem multCycles_halves {l u : Nat} (hN : 20 < l + u) (hlu : l ≤ u) (hul : u ≤ l + 1) :
    multCycles (l + u) = 142 * u + 10 * (l + u) + 102 + multCycles (u + 1) + multCycles u +
      multCycles l := by
  rw [multCycles, if_neg (by omega)]
  simp only [show (l + u) / 2 = l by omega, show l + u - l = u by omega]

/-- The recursion costs at most 208 cycles, and saves some above 21 bits. -/
theorem multCycles_le {N : Nat} (hN : 2 ≤ N) :
    multCycles N ≤ productCycles N + 208 ∧ (21 < N → multCycles N < productCycles N) := by
  induction N using Nat.strongRecOn with
  | _ N ih =>
    have hsq : ∀ {k l : Nat}, k ≤ l → k * l ≤ l ^ 2 := fun {k l} h => by
      rw [pow_two]
      exact Nat.mul_le_mul_right l h
    rcases Nat.lt_or_ge 20 N with h20 | h20
    · obtain ⟨l, u, rfl, hlu, hul⟩ : ∃ l u, N = l + u ∧ l ≤ u ∧ u ≤ l + 1 :=
        ⟨N / 2, N - N / 2, by omega, by omega, by omega⟩
      rw [multCycles_halves h20 hlu hul]
      rcases Nat.lt_or_ge 38 (l + u) with h38 | h38
      · have hstep := karatsuba_cycles (e := 208) (by omega) hlu hul (ih (u + 1) (by omega) (by omega)).1
          (ih u (by omega) (by omega)).1 (ih l (by omega) (by omega)).1
        have := hsq (show 19 ≤ l by omega)
        omega
      · have hstep := karatsuba_cycles (e := 0) (by omega) hlu hul
          (multCycles_small (by omega : u + 1 ≤ 20)).le (multCycles_small (by omega : u ≤ 20)).le
          (multCycles_small (by omega : l ≤ 20)).le
        have := hsq (show 10 ≤ l by omega)
        refine ⟨by omega, fun h21 => ?_⟩
        have := hsq (show 11 ≤ l by omega)
        omega
    · rw [multCycles_small h20]
      exact ⟨by omega, by omega⟩

/-- **Karatsuba's recursion gives the product of the partial products**, and is chosen where it
does not take more cycles, except for 21 bits. -/
theorem fixedMultiplication_chosen {s : SerialSimulator cols ι} {N : Nat} {x y z : Nat → Fin cols}
    (hN : 2 ≤ N) (hf : max (multCells N) (N + 7) ≤ s.inter.free.length) (h : Factors s N x y z) :
    Ends (fixedMultiplication N x y z) s fun _ s₁ => Ends (partialProducts N x y z) s fun _ s₂ =>
      (∀ r, num (2 * N) z s₁.memory r = num (2 * N) z s₂.memory r) ∧
      (s₁.latency ≤ s₂.latency ↔ N ≠ 21) := by
  refine Ends.mono (multiplies hN s x y z h (by omega)) ?_
  rintro _ s₁ ⟨hstep₁, hprod₁⟩
  refine Ends.mono (ends_partialProducts hN (by omega) h.heldX h.heldY h.heldZ h.distinctZ h.apartY) ?_
  rintro _ s₂ ⟨hstep₂, hprod₂⟩
  refine ⟨fun r => by rw [hprod₁, hprod₂], ?_⟩
  rw [hstep₁.changes.latency, hstep₂.changes.latency, productCycles_eq hN]
  refine ⟨?_, fun h21 => ?_⟩
  · rintro hle rfl
    simp [multCycles, productCycles] at hle
  · rcases Nat.lt_or_ge 21 N with hlt | hge
    · exact Nat.add_le_add_left ((multCycles_le hN).2 hlt).le _
    · rw [multCycles_small (by omega)]

/-- At 24 bits the recursion is entered and pays, at 21 bits it is entered and does not. -/
theorem fixedMultiplication_chosen_recursion :
    (Ends (fixedMultiplication 24 (columns 0) (columns 24) (columns 48))
      (loaded 96 (· < 48) : SerialSimulator 143 Unit) fun _ s₁ =>
        Ends (partialProducts 24 (columns 0) (columns 24) (columns 48))
          (loaded 96 (· < 48) : SerialSimulator 143 Unit) fun _ s₂ =>
            (∀ r, num 48 (columns 48) s₁.memory r = num 48 (columns 48) s₂.memory r) ∧
            s₁.latency ≤ s₂.latency) ∧
    Ends (fixedMultiplication 21 (columns 0) (columns 21) (columns 42))
      (loaded 84 (· < 42) : SerialSimulator 143 Unit) fun _ s₁ =>
        Ends (partialProducts 21 (columns 0) (columns 21) (columns 42))
          (loaded 84 (· < 42) : SerialSimulator 143 Unit) fun _ s₂ =>
            (∀ r, num 42 (columns 42) s₁.memory r = num 42 (columns 42) s₂.memory r) ∧
            ¬s₁.latency ≤ s₂.latency := by
  have h24 : max (multCells 24) (24 + 7) ≤
      (loaded 96 (· < 48) : SerialSimulator 143 Unit).inter.free.length := by
    rw [loaded, length_free_allocator]
    simp [multCells]
  have h21 : max (multCells 21) (21 + 7) ≤
      (loaded 84 (· < 42) : SerialSimulator 143 Unit).inter.free.length := by
    rw [loaded, length_free_allocator]
    simp [multCells]
  constructor
  · refine (fixedMultiplication_chosen (by decide) h24 (factors_columns (by decide) (by decide))).mono ?_
    intro _ s₁ h
    exact h.mono fun _ s₂ ⟨hprod, hle⟩ => ⟨hprod, hle.2 (by decide)⟩
  · refine (fixedMultiplication_chosen (by decide) h21 (factors_columns (by decide) (by decide))).mono ?_
    intro _ s₁ h
    exact h.mono fun _ s₂ ⟨hprod, hle⟩ => ⟨hprod, fun hlat => hle.1 hlat rfl⟩

end

end CimSigmoid.Pim
