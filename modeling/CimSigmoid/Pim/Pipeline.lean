import CimSigmoid.Pim.Multiplication
import CimSigmoid.Pim.Division
import CimSigmoid.F6.Exact

/-!
# The serial f6 pipeline on the simulator

The fixed-point serial evaluators of `f6_dashboard.py` and `_run_pipeline_serial_fixed`, gate
by gate. Constants, copies, the zero check and the clamp's choice are written to the memory
by the host, which costs no cycles and is not seen by `maxUsed`; everything else is done by
the operations of the serial arithmetic. The host's columns `0` to `8N` are those of the
pipeline, the rest are intermediate, and each evaluator makes its own allocator of them.
Arrays that an evaluator frees at its end, in the order of their allocation, are freed here
in the opposite order.

`serialRow` is what the pipeline leaves in a row when the operations are taken as functions
on registers: the gates compute it (`ends_runPipelineSerialFixed`).
-/

namespace CimSigmoid.Pim

open Machine Mem Bits SerialSimulator

variable {cols : Nat} {ι : Type}

def SerialSimulator.write (s : SerialSimulator cols ι) (o : Fin cols) (v : ι → Bool) :
    SerialSimulator cols ι :=
  { s with memory := Function.update s.memory o v }

/-- `sim.memory[o] = v`, where `v` is computed from the memory. -/
def write (o : Fin cols) (v : (Fin cols → ι → Bool) → ι → Bool) : SerialM cols ι Unit :=
  modify fun s => s.write o (v s.memory)

def writeArray (N : Nat) (t : Nat → Fin cols) (v : Nat → (Fin cols → ι → Bool) → ι → Bool) :
    SerialM cols ι Unit :=
  forRange N fun i => write (t i) (v i)

def writeConst (N : Nat) (t : Nat → Fin cols) (c : Nat) : SerialM cols ι Unit :=
  writeArray N t fun i _ _ => c.testBit i

/-- A constant of `N` bits in an array of `2N` columns. -/
def writeWide (N : Nat) (t : Nat → Fin cols) (c : Nat) : SerialM cols ι Unit := do
  writeConst N t c
  writeConst N (dropped N t) 0

variable [NeZero cols]

def mallocArray (k : Nat) : SerialM cols ι (Nat → Fin cols) := do
  check (2 ≤ k)
  malloc k

/-- A constant is written to `w` and added to `x`, all of `2N` columns. -/
def addConst (N : Nat) (x w z : Nat → Fin cols) (c : Nat) : SerialM cols ι Unit := do
  writeWide N w c
  fixedAddition (2 * N) x w z .zero none

namespace HornerEvaluator

def evaluateFixedSerial (N : Nat) (x result : Nat → Fin cols) : SerialM cols ι Unit :=
  scratchArray N fun const12 => scratchArray N fun const60 => scratchArray N fun const120 => do
    writeConst N const12 12
    writeConst N const60 60
    writeConst N const120 120
    scratchArray N fun t1 => scratchArray (2 * N) fun t2 => scratchArray (2 * N) fun t3 =>
      scratchArray (2 * N) fun t4 => do
        fixedAddition N x const12 t1 .zero none
        fixedMultiplication N t1 x t2
        scratchArray (2 * N) fun const60Wide => do
          addConst N t2 const60Wide t3 60
          fixedMultiplication N t3 x t4
          scratchArray (2 * N) fun const120Wide => addConst N t4 const120Wide result 120

end HornerEvaluator

namespace DenominatorEvaluator

/-- Step 1, for which `x` is copied: a gate's inputs must differ. Gives the array of the
product. -/
def square (N : Nat) (x : Nat → Fin cols) : SerialM cols ι (Nat → Fin cols) := do
  let xCopy ← mallocArray N
  writeArray N xCopy fun i mem => mem (x i)
  let t1 ← mallocArray (2 * N)
  fixedMultiplication N x xCopy t1
  free N xCopy
  pure t1

/-- Steps 2 and 3. -/
def scaleAndAdd (N : Nat) (t1 const24 const240 result : Nat → Fin cols) : SerialM cols ι Unit :=
  scratchArray (2 * N) fun t2 => do
    fixedMultiplication N const24 t1 t2
    fixedAddition N t2 const240 result .zero none
    writeArray N (dropped N result) fun i mem => mem (t2 (N + i))

def evaluateFixedSerial (N : Nat) (x result : Nat → Fin cols) : SerialM cols ι Unit :=
  scratchArray N fun const24 => do
    writeConst N const24 24
    scratchArray N fun const240 => do
      writeConst N const240 240
      let t1 ← square N x
      scaleAndAdd N t1 const24 const240 result
      free (2 * N) t1

end DenominatorEvaluator

namespace DivisionUnit

def divideFixedSerial [Fintype ι] (N : Nat) (numerator denominator quotient : Nat → Fin cols) :
    SerialM cols ι Unit := do
  let s ← get
  let denomIsZero := fun r => ∀ i < N, s.memory (denominator i) r = false
  if ∀ r, denomIsZero r then writeConst N quotient 0
  else scratchArray N fun r => do
    fixedDivision N numerator denominator quotient r
    if ∃ r, denomIsZero r then
      writeArray N quotient fun i mem r => !decide (denomIsZero r) && mem (quotient i) r

end DivisionUnit

namespace ClampingUnit

def clampFixedSerial (N : Nat) (value output : Nat → Fin cols) : SerialM cols ι Unit :=
  scratchArray N fun constOne => scratchArray N fun subResult => scratchOne fun cout => do
    writeConst N constOne 1
    fixedSubtraction N value constOne subResult (some cout)
    writeArray N output fun i mem r =>
      if mem (value (N - 1)) r then false
      else if mem cout r then Nat.testBit 1 i else mem (value i) r

end ClampingUnit

/-- An evaluator is given the columns from `a` on. -/
def withAllocator (a : Nat) (evaluator : SerialM cols ι Unit) : SerialM cols ι Unit := do
  modify fun s => s.withInter (allocator a)
  evaluator

def runPipelineSerialFixed [Fintype ι] (N : Nat) (x : ι → BitVec N) : SerialM cols ι Unit := do
  writeArray N (columns 0) fun i _ r => (x r).getLsbD i
  withAllocator (8 * N) (HornerEvaluator.evaluateFixedSerial N (columns 0) (columns (2 * N)))
  withAllocator (8 * N) (DenominatorEvaluator.evaluateFixedSerial N (columns 0) (columns (4 * N)))
  withAllocator (8 * N) (DivisionUnit.divideFixedSerial N (columns (2 * N)) (columns (4 * N))
    (columns (6 * N)))
  withAllocator (8 * N) (ClampingUnit.clampFixedSerial N (columns (6 * N)) (columns (7 * N)))

/-! ## Registers -/

/-- The number in an array, as a register. -/
def reg (N : Nat) (x : Nat → Fin cols) (mem : Fin cols → ι → Bool) (r : ι) : BitVec N :=
  BitVec.ofNat N (num N x mem r)

/-- The serial arithmetic, as functions on registers; the division is that of the non-restoring
passes. -/
def serialArithmetic (N : Nat) : F6.SerialArithmetic N where
  __ := F6.SerialArithmetic.exact N
  fixedDivision z d := BitVec.ofNat N (nrQuotient N z.toNat d.toNat)
  quotient z d hd hz := by
    have h0 : 0 < d.toNat := Nat.pos_of_ne_zero fun h => hd (BitVec.eq_of_toNat_eq h)
    rw [nrQuotient_eq h0 d.isLt hz, BitVec.toNat_ofNat, Nat.mod_eq_of_lt hz]

section

variable {s s' : SerialSimulator cols ι} {N k m n : Nat} {x y z t : Nat → Fin cols}
  {mem : Fin cols → ι → Bool} {r : ι} {W : Fin cols → Prop}

omit [NeZero cols] in
theorem reg_toNat : (reg N x mem r).toNat = num N x mem r := by
  rw [reg, BitVec.toNat_ofNat, Nat.mod_eq_of_lt num_lt]

omit [NeZero cols] in
theorem reg_eq {v : BitVec N} (h : num N x mem r = v.toNat) : reg N x mem r = v :=
  BitVec.eq_of_toNat_eq (reg_toNat.trans h)

omit [NeZero cols] in
theorem lower_reg : F6.lower (reg (2 * N) x mem r) = reg N x mem r := by
  refine (reg_eq ?_).symm
  rw [F6.lower_toNat, reg_toNat, Nat.two_mul, num_add, Nat.add_mul_mod_self_left,
    Nat.mod_eq_of_lt num_lt]

omit [NeZero cols] in
theorem upper_reg : F6.upper (reg (2 * N) x mem r) = reg N (dropped N x) mem r := by
  refine (reg_eq ?_).symm
  rw [F6.upper, BitVec.extractLsb'_toNat, reg_toNat, Nat.two_mul, num_add,
    Nat.shiftRight_eq_div_pow, Nat.add_mul_div_left _ _ (Nat.two_pow_pos N), Nat.div_eq_of_lt num_lt,
    Nat.zero_add, Nat.mod_eq_of_lt num_lt]

omit [NeZero cols] in
theorem Step.reg_eq (h : Step W k n s s') (hx : Held s N x) (hW : ∀ i < N, ¬W (x i)) :
    reg N x s'.memory r = reg N x s.memory r := by
  rw [reg, h.num_eq hx hW, reg]

/-! ## Writes of the host -/

omit [NeZero cols] in
theorem step_write {o : Fin cols} {v : ι → Bool} (ho : W o) : Step W k 0 s (s.write o v) :=
  ⟨rfl, fun c hc => Function.update_of_ne (fun e : c = o => hc (e ▸ .inl ho)) .., rfl, .inl rfl⟩

omit [NeZero cols] in
/-- What is written depends on the columns that are not written yet. -/
theorem ends_writeArray {v : Nat → (Fin cols → ι → Bool) → ι → Bool} {w : Nat → ι → Bool}
    (ht : Distinct N t)
    (hv : ∀ i < N, ∀ mem, (∀ c, (∀ j < i, c ≠ t j) → mem c = s.memory c) → v i mem = w i) :
    Ends (writeArray N t v) s fun _ s' =>
      Step (fun o => ∃ j < N, o = t j) 0 0 s s' ∧ ∀ j < N, s'.memory (t j) = w j := by
  refine Ends.mono (ends_loop (n := 0) (k := 0) (W := fun o => ∃ j < N, o = t j)
    (fun i mem => (∀ j < i, mem (t j) = w j) ∧ ∀ c, (∀ j < i, c ≠ t j) → mem c = s.memory c)
    ⟨fun j hj => absurd hj (Nat.not_lt_zero j), fun _ _ => rfl⟩ fun i hi s' _ hI => ?_) ?_
  · refine ends_of_run rfl ⟨step_write ⟨i, hi, rfl⟩, fun j hj => ?_, fun c hc => ?_⟩
    · rcases Nat.lt_or_eq_of_le (Nat.le_of_lt_succ hj) with hj | rfl
      · have hne : t j ≠ t i := fun e => by
          have := ht j (by omega) i hi e
          omega
        exact (Function.update_of_ne hne ..).trans (hI.1 j hj)
      · exact (Function.update_self ..).trans (hv j hi _ hI.2)
    · exact (Function.update_of_ne (hc i (by omega)) ..).trans (hI.2 c fun j hj => hc j (by omega))
  · rintro _ s' ⟨hstep, hI⟩
    exact ⟨hstep, hI.1⟩

omit [NeZero cols] in
theorem ends_writeConst (ht : Distinct N t) (c : Nat) :
    Ends (writeConst N t c) s fun _ s' =>
      Step (fun o => ∃ j < N, o = t j) 0 0 s s' ∧ ∀ r, reg N t s'.memory r = F6.const c := by
  refine Ends.mono (ends_writeArray (w := fun i _ => c.testBit i) ht fun _ _ _ _ => rfl) ?_
  rintro _ s' ⟨hstep, hmem⟩
  refine ⟨hstep, fun r => Pim.reg_eq ?_⟩
  rw [F6.const, BitVec.toNat_ofNat, ← bitsValue_testBit]
  exact bitsValue_congr fun j hj => congrFun (hmem j hj) r

omit [NeZero cols] in
theorem ends_writeWide (hs : Held s (2 * N) t) (ht : Distinct (2 * N) t) (c : Nat) :
    Ends (writeWide N t c) s fun _ s' => Step (fun o => ∃ j < 2 * N, o = t j) 0 0 s s' ∧
      ∀ r, reg (2 * N) t s'.memory r = (F6.const c : BitVec N).setWidth (2 * N) := by
  rw [Nat.two_mul] at hs ht ⊢
  refine Ends.bind (ends_writeConst (ht.mono (Nat.le_add_right N N)) c) ?_
  rintro _ s₁ ⟨hstep₁, hlow⟩
  refine Ends.mono (ends_writeConst ht.dropped 0) ?_
  rintro _ s₂ ⟨hstep₂, hup⟩
  have hkeep : ∀ r, reg N t s₂.memory r = reg N t s₁.memory r := fun r => by
    refine hstep₂.reg_eq (fun j hj => hstep₁.inter ▸ hs j (by omega)) fun j hj ⟨i, hi, e⟩ => ?_
    have := ht j (by omega) (N + i) (by omega) e
    omega
  refine ⟨(hstep₁.mono ?_ (Nat.le_refl 0)).trans (hstep₂.mono ?_ (Nat.le_refl 0)), fun r => Pim.reg_eq ?_⟩
  · rintro o ⟨j, hj, rfl⟩
    exact ⟨j, by omega, rfl⟩
  · rintro o ⟨j, hj, rfl⟩
    exact ⟨N + j, by omega, rfl⟩
  · have hl := congrArg BitVec.toNat ((hkeep r).trans (hlow r))
    have hu := congrArg BitVec.toNat (hup r)
    have hc : (F6.const c : BitVec N).toNat < 2 ^ (N + N) :=
      (BitVec.isLt _).trans_le (Nat.pow_le_pow_right Nat.two_pos (by omega))
    rw [reg_toNat] at hl hu
    rw [num_add, hl, hu, BitVec.toNat_setWidth, Nat.mod_eq_of_lt hc]
    simp [F6.const]

/-! ## Operations on registers -/

structure Register (s : SerialSimulator cols ι) (N : Nat) (x : Nat → Fin cols) : Prop where
  held : Held s N x
  distinct : Distinct N x

def Apart (M : Nat) (z : Nat → Fin cols) (N : Nat) (x : Nat → Fin cols) : Prop :=
  ∀ i < M, ∀ j < N, z i ≠ x j

omit [NeZero cols] in
theorem Register.keep (h : Register s N x) (hs : ∀ c, c ∉ s.inter.free → c ∉ s'.inter.free) :
    Register s' N x := ⟨fun i hi => hs _ (h.held i hi), h.distinct⟩

omit [NeZero cols] in
theorem Register.mono (h : Register s N x) (hmn : m ≤ N) : Register s m x :=
  ⟨h.held.mono hmn, h.distinct.mono hmn⟩

omit [NeZero cols] in
theorem Register.reg_eq (h : Register s N x) {M : Nat}
    (hs : Step (fun o => ∃ j < M, o = z j) k n s s') (ha : Apart M z N x) (r : ι) :
    reg N x s'.memory r = reg N x s.memory r :=
  hs.reg_eq h.held fun i hi ⟨j, hj, e⟩ => ha j hj i hi e.symm

theorem ends_regAddition (hf : 5 ≤ s.inter.free.length) (hx : Register s N x) (hy : Register s N y)
    (hz : Register s N z) (hzx : Apart N z N x) (hzy : Apart N z N y) (hxy : Apart N x N y) :
    Ends (fixedAddition N x y z .zero none) s fun _ s' =>
      Step (fun o => ∃ i < N, o = z i) 5 (1 + N * 18) s s' ∧
      ∀ r, reg N z s'.memory r = reg N x s.memory r + reg N y s.memory r := by
  refine Ends.mono (ends_fixedAddition hf hx.held hy.held hz.held hz.distinct (readFirst_of_ne hzx)
    (readFirst_of_ne hzy) (fun i hi => hxy i hi i hi) (fun c hc => by cases hc)
    fun c hc => by cases hc) ?_
  rintro _ s' ⟨hstep, co, -, hsum⟩
  refine ⟨hstep.mono (fun o ho => ho.elim id fun h => by cases h) (Nat.le_refl 5),
    fun r => Pim.reg_eq ?_⟩
  have h := hsum r
  simp only [CarryIn.bit, Bool.toNat_false, Nat.add_zero] at h
  rw [BitVec.toNat_add, reg_toNat, reg_toNat, ← h, Nat.add_mul_mod_self_left,
    Nat.mod_eq_of_lt num_lt]

theorem ends_regMultiplication (hN : 2 ≤ N) (hf : multCells N ≤ s.inter.free.length)
    (hx : Register s N x) (hy : Register s N y) (hz : Register s (2 * N) z)
    (hzx : Apart (2 * N) z N x) (hzy : Apart (2 * N) z N y) :
    Ends (fixedMultiplication N x y z) s fun _ s' =>
      Step (fun o => ∃ i < 2 * N, o = z i) (multCells N) (multCycles N) s s' ∧
      ∀ r, reg (2 * N) z s'.memory r =
        (serialArithmetic N).fixedMultiplication (reg N x s.memory r) (reg N y s.memory r) := by
  refine Ends.mono (multiplies hN s x y z ⟨hx.held, hy.held, hz.held, hx.distinct, hy.distinct,
    hz.distinct, hzx, hzy⟩ hf) ?_
  rintro _ s' ⟨hstep, hprod⟩
  refine ⟨hstep, fun r => Pim.reg_eq ?_⟩
  rw [(serialArithmetic N).product, reg_toNat, reg_toNat, hprod]

/-! ## Allocated registers -/

/-- What `t` and the state are after an array of `k` columns has been allocated. -/
structure Opened (s : SerialSimulator cols ι) (k : Nat) (t : Nat → Fin cols)
    (s' : SerialSimulator cols ι) : Prop where
  memory : s'.memory = s.memory
  held : ∀ c, c ∉ s.inter.free → c ∉ s'.inter.free
  room : s.inter.free.length ≤ k + s'.inter.free.length
  register : Register s' k t
  apart : ∀ c, c ∉ s.inter.free → ∀ i < k, t i ≠ c

omit [NeZero cols] in
theorem Fresh.opened (h : Fresh s.inter k t) :
    Opened s k t (s.withInter (s.inter.alloc (listing k t))) where
  memory := rfl
  held _ := not_free_alloc
  room := by
    have := Pool.length_free_alloc (P := s.inter) (C := listing k t)
    rwa [length_listing] at this
  register := ⟨fun _ => Fresh.not_free, h.inj⟩
  apart _ hc := h.ne hc

omit [NeZero cols] in
theorem Opened.apart_of_held (h : Opened s k t s') (hx : Held s N x) : Apart k t N x :=
  fun i hi j hj => h.apart _ (hx j hj) i hi

omit [NeZero cols] in
theorem Apart.symm {M : Nat} (h : Apart M z N x) : Apart N x M z :=
  fun i hi j hj e => h j hj i hi e.symm

omit [NeZero cols] in
theorem Apart.mono {M M' N' : Nat} (h : Apart M z N x) (hM : M' ≤ M) (hN : N' ≤ N) :
    Apart M' z N' x := fun i hi j hj => h i (by omega) j (by omega)

theorem ends_scratchArray {body : (Nat → Fin cols) → SerialM cols ι Unit}
    {Q : (Fin cols → ι → Bool) → Prop} (hk : 2 ≤ k) (hf : k ≤ s.inter.free.length)
    (hbody : ∀ t s', Opened s k t s' → Ends (body t) s' fun _ s'' =>
      Step (fun c => W c ∨ ∃ i < k, c = t i) m n s' s'' ∧ Q s''.memory) :
    Ends (scratchArray k body) s fun _ s' => Step W (k + m) n s s' ∧ Q s'.memory := by
  refine ends_seq (run_check hk) (ends_scratch (by omega) hf fun t ht => ?_)
  refine Ends.mono (hbody t _ ht.opened) ?_
  rintro _ s' ⟨hstep, hQ⟩
  refine ⟨hstep.mono (fun c hc => hc.imp id ?_) (Nat.le_refl m), hQ⟩
  rintro ⟨i, hi, rfl⟩
  exact ⟨i, hi, rfl⟩

/-! ## The numerator -/

def hornerCells (N : Nat) : Nat := 12 * N + max (multCells N) (2 * N + 5)

theorem ends_addConst {w : Nat → Fin cols} (hf : 5 ≤ s.inter.free.length)
    (hx : Register s (2 * N) x) (hw : Register s (2 * N) w) (hz : Register s (2 * N) z)
    (hzx : Apart (2 * N) z (2 * N) x) (hwx : Apart (2 * N) w (2 * N) x)
    (hwz : Apart (2 * N) w (2 * N) z) (c : Nat) :
    Ends (addConst N x w z c) s fun _ s' =>
      Step (fun o => (∃ i < 2 * N, o = z i) ∨ ∃ i < 2 * N, o = w i) 5 (1 + 2 * N * 18) s s' ∧
      ∀ r, reg (2 * N) z s'.memory r =
        reg (2 * N) x s.memory r + (F6.const c : BitVec N).setWidth (2 * N) := by
  refine Ends.bind (ends_writeWide hw.held hw.distinct c) ?_
  rintro _ s₁ ⟨hstep₁, hval⟩
  have hkeep : ∀ c, c ∉ s.inter.free → c ∉ s₁.inter.free := fun c hc => hstep₁.inter ▸ hc
  refine Ends.mono (ends_regAddition (hstep₁.inter ▸ hf) (hx.keep hkeep) (hw.keep hkeep)
    (hz.keep hkeep) hzx hwz.symm hwx.symm) ?_
  rintro _ s₂ ⟨hstep₂, hsum⟩
  refine ⟨?_, fun r => by rw [hsum, hval, hx.reg_eq hstep₁ hwx]⟩
  rw [← Nat.zero_add (1 + 2 * N * 18)]
  exact (hstep₁.mono (fun _ => .inr) (Nat.zero_le 5)).trans
    (hstep₂.mono (fun _ => .inl) (Nat.le_refl 5))

/-- From `t2` on. -/
theorem ends_hornerOuter {t2 t3 t4 result : Nat → Fin cols} (hN : 2 ≤ N)
    (hf : 2 * N + max (multCells N) (2 * N + 5) ≤ s.inter.free.length) (hx : Register s N x)
    (ht2 : Register s (2 * N) t2) (ht3 : Register s (2 * N) t3) (ht4 : Register s (2 * N) t4)
    (hres : Register s (2 * N) result) (h32 : Apart (2 * N) t3 (2 * N) t2)
    (h3x : Apart (2 * N) t3 N x) (h43 : Apart (2 * N) t4 (2 * N) t3) (h4x : Apart (2 * N) t4 N x)
    (hr4 : Apart (2 * N) result (2 * N) t4) :
    Ends (scratchArray (2 * N) fun const60Wide => do
        addConst N t2 const60Wide t3 60
        fixedMultiplication N t3 x t4
        scratchArray (2 * N) fun const120Wide => addConst N t4 const120Wide result 120) s fun _ s' =>
      Step (fun o => (∃ i < 2 * N, o = result i) ∨ (∃ i < 2 * N, o = t3 i) ∨ ∃ i < 2 * N, o = t4 i)
        (2 * N + max (multCells N) (2 * N + 5)) (2 + 72 * N + multCycles N) s s' ∧
      ∀ r, reg (2 * N) result s'.memory r = (serialArithmetic N).fixedMultiplication
          (F6.lower (reg (2 * N) t2 s.memory r + (F6.const 60 : BitVec N).setWidth (2 * N)))
          (reg N x s.memory r) + (F6.const 120 : BitVec N).setWidth (2 * N) := by
  refine ends_scratchArray (m := max (multCells N) (2 * N + 5))
    (W := fun o => (∃ i < 2 * N, o = result i) ∨ (∃ i < 2 * N, o = t3 i) ∨ ∃ i < 2 * N, o = t4 i)
    (Q := fun mem => ∀ r, reg (2 * N) result mem r = (serialArithmetic N).fixedMultiplication
      (F6.lower (reg (2 * N) t2 s.memory r + (F6.const 60 : BitVec N).setWidth (2 * N)))
      (reg N x s.memory r) + (F6.const 120 : BitVec N).setWidth (2 * N)) (by omega) (by omega)
    fun w s₁ hw => ?_
  have hroom := hw.room
  refine Ends.bind (ends_addConst (by omega) (ht2.keep hw.held) hw.register (ht3.keep hw.held) h32
    (hw.apart_of_held ht2.held) (hw.apart_of_held ht3.held) 60) ?_
  rintro _ s₂ ⟨hstep₂, hval₂⟩
  have hkeep₂ : ∀ c, c ∉ s.inter.free → c ∉ s₂.inter.free := fun c hc => hstep₂.inter ▸ hw.held c hc
  have hx₂ : ∀ r, reg N x s₂.memory r = reg N x s.memory r := fun r => by
    rw [hstep₂.reg_eq (hx.keep hw.held).held, hw.memory]
    rintro i hi (⟨j, hj, e⟩ | ⟨j, hj, e⟩)
    · exact h3x j hj i hi e.symm
    · exact hw.apart_of_held hx.held j hj i hi e.symm
  refine Ends.bind (ends_regMultiplication hN (hstep₂.inter ▸ by omega)
    ((ht3.keep hkeep₂).mono (by omega)) (hx.keep hkeep₂) (ht4.keep hkeep₂)
    (h43.mono (Nat.le_refl _) (by omega)) h4x) ?_
  rintro _ s₃ ⟨hstep₃, hval₃⟩
  have hin₃ : s₃.inter = s₁.inter := hstep₃.inter.trans hstep₂.inter
  have hkeep₃ : ∀ c, c ∉ s.inter.free → c ∉ s₃.inter.free := fun c hc => hin₃ ▸ hw.held c hc
  refine Ends.mono (ends_scratchArray (s := s₃) (m := 5) (n := 1 + 2 * N * 18)
    (W := fun o => ∃ i < 2 * N, o = result i)
    (Q := fun mem => ∀ r, reg (2 * N) result mem r =
      reg (2 * N) t4 s₃.memory r + (F6.const 120 : BitVec N).setWidth (2 * N)) (by omega)
    (hin₃ ▸ by omega) fun v s₄ hv => ?_) ?_
  · have hroom' := hv.room
    rw [hin₃] at hroom'
    refine Ends.mono (ends_addConst (by omega) ((ht4.keep hkeep₃).keep hv.held) hv.register
      ((hres.keep hkeep₃).keep hv.held) hr4 (hv.apart_of_held (ht4.keep hkeep₃).held)
      (hv.apart_of_held (hres.keep hkeep₃).held) 120) ?_
    rintro _ s₅ ⟨hstep₅, hval₅⟩
    exact ⟨hstep₅, fun r => by rw [hval₅, hv.memory]⟩
  · rintro _ s₅ ⟨hstep₅, hval₅⟩
    refine ⟨?_, fun r => ?_⟩
    · rw [show 2 + 72 * N + multCycles N = 1 + 2 * N * 18 + multCycles N + (1 + 2 * N * 18) by ring]
      refine ((hstep₂.mono ?_ (by omega)).trans (hstep₃.mono (fun o h => .inl (.inr (.inr h)))
        (by omega))).trans (hstep₅.mono (fun o h => .inl (.inl h)) (by omega))
      rintro o (h | h)
      · exact .inl (.inr (.inl h))
      · exact .inr h
    · rw [hval₅, hval₃, ← lower_reg, hval₂, hw.memory, hx₂]

/-- With `const12` written. -/
theorem ends_hornerInner {const12 result : Nat → Fin cols} (hN : 2 ≤ N)
    (hf : 9 * N + max (multCells N) (2 * N + 5) ≤ s.inter.free.length) (hx : Register s N x)
    (h12 : Register s N const12) (hval : ∀ r, reg N const12 s.memory r = F6.const 12)
    (hx12 : Apart N x N const12) (hres : Register s (2 * N) result) :
    Ends (scratchArray N fun t1 => scratchArray (2 * N) fun t2 => scratchArray (2 * N) fun t3 =>
      scratchArray (2 * N) fun t4 => do
        fixedAddition N x const12 t1 .zero none
        fixedMultiplication N t1 x t2
        scratchArray (2 * N) fun const60Wide => do
          addConst N t2 const60Wide t3 60
          fixedMultiplication N t3 x t4
          scratchArray (2 * N) fun const120Wide => addConst N t4 const120Wide result 120) s
      fun _ s' => Step (fun o => ∃ i < 2 * N, o = result i)
        (N + (2 * N + (2 * N + (2 * N + (2 * N + max (multCells N) (2 * N + 5))))))
        (2 * multCycles N + 90 * N + 3) s s' ∧
      ∀ r, reg (2 * N) result s'.memory r =
        F6.HornerEvaluator.evaluateFixedSerial (serialArithmetic N) (reg N x s.memory r) := by
  refine ends_scratchArray (W := fun o => ∃ i < 2 * N, o = result i)
    (Q := fun mem => ∀ r, reg (2 * N) result mem r =
      F6.HornerEvaluator.evaluateFixedSerial (serialArithmetic N) (reg N x s.memory r))
    hN (by omega) fun t1 s₁ h₁ => ?_
  have hroom₁ := h₁.room
  have hx₁ := hx.keep h₁.held
  refine ends_scratchArray (Q := fun mem => ∀ r, reg (2 * N) result mem r =
      F6.HornerEvaluator.evaluateFixedSerial (serialArithmetic N) (reg N x s.memory r))
    (by omega) (by omega) fun t2 s₂ h₂ => ?_
  have hroom₂ := h₂.room
  have hx₂ := hx₁.keep h₂.held
  refine ends_scratchArray (Q := fun mem => ∀ r, reg (2 * N) result mem r =
      F6.HornerEvaluator.evaluateFixedSerial (serialArithmetic N) (reg N x s.memory r))
    (by omega) (by omega) fun t3 s₃ h₃ => ?_
  have hroom₃ := h₃.room
  have hx₃ := hx₂.keep h₃.held
  refine ends_scratchArray (Q := fun mem => ∀ r, reg (2 * N) result mem r =
      F6.HornerEvaluator.evaluateFixedSerial (serialArithmetic N) (reg N x s.memory r))
    (by omega) (by omega) fun t4 s₄ h₄ => ?_
  have hroom₄ := h₄.room
  have hheld : ∀ c, c ∉ s.inter.free → c ∉ s₄.inter.free := fun c hc =>
    h₄.held c (h₃.held c (h₂.held c (h₁.held c hc)))
  have hmem : s₄.memory = s.memory := by rw [h₄.memory, h₃.memory, h₂.memory, h₁.memory]
  have ht1₃ := (h₁.register.keep h₂.held).keep h₃.held
  have ht2₃ := h₂.register.keep h₃.held
  have hx₄ := hx.keep hheld
  refine Ends.bind (ends_regAddition (by omega) hx₄ (h12.keep hheld) (ht1₃.keep h₄.held)
    (h₁.apart_of_held hx.held) (h₁.apart_of_held h12.held) hx12) ?_
  rintro _ s₅ ⟨hstep₅, hval₅⟩
  have hkeep₅ : ∀ c, c ∉ s₄.inter.free → c ∉ s₅.inter.free := fun c hc => hstep₅.inter ▸ hc
  refine Ends.bind (ends_regMultiplication hN (hstep₅.inter ▸ by omega)
    ((ht1₃.keep h₄.held).keep hkeep₅) (hx₄.keep hkeep₅) ((ht2₃.keep h₄.held).keep hkeep₅)
    (h₂.apart_of_held h₁.register.held) (h₂.apart_of_held hx₁.held)) ?_
  rintro _ s₆ ⟨hstep₆, hval₆⟩
  have hin₆ : s₆.inter = s₄.inter := hstep₆.inter.trans hstep₅.inter
  have hkeep₆ : ∀ c, c ∉ s₄.inter.free → c ∉ s₆.inter.free := fun c hc => hin₆ ▸ hc
  refine Ends.mono (ends_hornerOuter hN (hin₆ ▸ by omega) (hx₄.keep hkeep₆)
    ((ht2₃.keep h₄.held).keep hkeep₆) ((h₃.register.keep h₄.held).keep hkeep₆)
    (h₄.register.keep hkeep₆) ((hres.keep hheld).keep hkeep₆) (h₃.apart_of_held h₂.register.held)
    (h₃.apart_of_held hx₂.held) (h₄.apart_of_held h₃.register.held) (h₄.apart_of_held hx₃.held)
    (h₄.apart_of_held (hres.keep fun c hc => h₃.held c (h₂.held c (h₁.held c hc))).held).symm) ?_
  rintro _ s₇ ⟨hstep₇, hval₇⟩
  refine ⟨?_, fun r => ?_⟩
  · rw [show 2 * multCycles N + 90 * N + 3 =
      1 + N * 18 + multCycles N + (2 + 72 * N + multCycles N) by ring]
    refine ((hstep₅.mono (fun o h => .inl (.inl (.inl (.inr h)))) (by omega)).trans
      (hstep₆.mono (fun o h => .inl (.inl (.inr h))) (by omega))).trans
      (hstep₇.mono ?_ (Nat.le_refl _))
    rintro o (h | h | h)
    · exact .inl (.inl (.inl (.inl h)))
    · exact .inl (.inr h)
    · exact .inr h
  · have hx₅ := hx₄.reg_eq hstep₅ (h₁.apart_of_held hx.held) r
    have hx₆ := (hx₄.keep hkeep₅).reg_eq hstep₆ (h₂.apart_of_held hx₁.held) r
    rw [hval₇, hval₆, hval₅, hx₆, hx₅, hmem, hval]
    rfl

theorem ends_horner {result : Nat → Fin cols} (hN : 2 ≤ N)
    (hf : hornerCells N ≤ s.inter.free.length) (hx : Register s N x)
    (hres : Register s (2 * N) result) :
    Ends (HornerEvaluator.evaluateFixedSerial N x result) s fun _ s' =>
      Step (fun o => ∃ i < 2 * N, o = result i) (hornerCells N) (2 * multCycles N + 90 * N + 3) s s' ∧
      ∀ r, reg (2 * N) result s'.memory r =
        F6.HornerEvaluator.evaluateFixedSerial (serialArithmetic N) (reg N x s.memory r) := by
  unfold hornerCells at hf ⊢
  rw [show 12 * N + max (multCells N) (2 * N + 5) = N + (N + (N + (N + (2 * N + (2 * N + (2 * N +
    (2 * N + max (multCells N) (2 * N + 5)))))))) by omega]
  refine ends_scratchArray (W := fun o => ∃ i < 2 * N, o = result i)
    (Q := fun mem => ∀ r, reg (2 * N) result mem r =
      F6.HornerEvaluator.evaluateFixedSerial (serialArithmetic N) (reg N x s.memory r))
    hN (by omega) fun const12 s₁ h₁ => ?_
  have hroom₁ := h₁.room
  refine ends_scratchArray (Q := fun mem => ∀ r, reg (2 * N) result mem r =
      F6.HornerEvaluator.evaluateFixedSerial (serialArithmetic N) (reg N x s.memory r))
    hN (by omega) fun const60 s₂ h₂ => ?_
  have hroom₂ := h₂.room
  refine ends_scratchArray (Q := fun mem => ∀ r, reg (2 * N) result mem r =
      F6.HornerEvaluator.evaluateFixedSerial (serialArithmetic N) (reg N x s.memory r))
    hN (by omega) fun const120 s₃ h₃ => ?_
  have hroom₃ := h₃.room
  have hx₁ := hx.keep h₁.held
  have hx₂ := hx₁.keep h₂.held
  have h12 := (h₁.register.keep h₂.held).keep h₃.held
  have h60 := h₂.register.keep h₃.held
  refine Ends.bind (ends_writeConst h12.distinct 12) ?_
  rintro _ s₄ ⟨hstep₄, hval₄⟩
  refine Ends.bind (ends_writeConst h60.distinct 60) ?_
  rintro _ s₅ ⟨hstep₅, -⟩
  refine Ends.bind (ends_writeConst h₃.register.distinct 120) ?_
  rintro _ s₆ ⟨hstep₆, -⟩
  have hin₅ : s₅.inter = s₃.inter := hstep₅.inter.trans hstep₄.inter
  have hin₆ : s₆.inter = s₃.inter := hstep₆.inter.trans hin₅
  have hkeep₄ : ∀ c, c ∉ s₃.inter.free → c ∉ s₄.inter.free := fun c hc => hstep₄.inter ▸ hc
  have hkeep₅ : ∀ c, c ∉ s₃.inter.free → c ∉ s₅.inter.free := fun c hc => hin₅ ▸ hc
  have hkeep₆ : ∀ c, c ∉ s₃.inter.free → c ∉ s₆.inter.free := fun c hc => hin₆ ▸ hc
  have hx₃ := hx₂.keep h₃.held
  have hxval : ∀ r, reg N x s₆.memory r = reg N x s.memory r := fun r => by
    rw [(hx₃.keep hkeep₅).reg_eq hstep₆ (h₃.apart_of_held hx₂.held),
      (hx₃.keep hkeep₄).reg_eq hstep₅ (h₂.apart_of_held hx₁.held),
      hx₃.reg_eq hstep₄ (h₁.apart_of_held hx.held), h₃.memory, h₂.memory, h₁.memory]
  have hval : ∀ r, reg N const12 s₆.memory r = F6.const 12 := fun r => by
    rw [(h12.keep hkeep₅).reg_eq hstep₆ (h₃.apart_of_held (h₁.register.keep h₂.held).held),
      (h12.keep hkeep₄).reg_eq hstep₅ (h₂.apart_of_held h₁.register.held), hval₄]
  refine Ends.mono (ends_hornerInner hN (hin₆ ▸ by omega) (hx₃.keep hkeep₆) (h12.keep hkeep₆) hval
    (h₁.apart_of_held hx.held).symm
    ((((hres.keep h₁.held).keep h₂.held).keep h₃.held).keep hkeep₆)) ?_
  rintro _ s₇ ⟨hstep₇, hval₇⟩
  refine ⟨?_, fun r => by rw [hval₇, hxval]⟩
  rw [← Nat.zero_add (2 * multCycles N + 90 * N + 3)]
  refine (((hstep₄.mono ?_ (Nat.zero_le _)).trans (hstep₅.mono ?_ (Nat.zero_le _))).trans
    (hstep₆.mono ?_ (Nat.zero_le _))).trans (hstep₇.mono ?_ (Nat.le_refl _))
  · exact fun o h => .inl (.inl (.inr h))
  · exact fun o h => .inl (.inr h)
  · exact fun o h => .inr h
  · exact fun o h => .inl (.inl (.inl h))

/-! ## The denominator -/

def denominatorCells (N : Nat) : Nat := 6 * N + multCells N

theorem ends_mallocArray (hk : 2 ≤ k) (hf : k ≤ s.inter.free.length) :
    Ends (mallocArray k) s fun t s' =>
      Fresh s.inter k t ∧ s' = s.withInter (s.inter.alloc (listing k t)) :=
  ends_seq (run_check hk) (ends_malloc (by omega) hf)

omit [NeZero cols] in
theorem ends_copy (ht : Distinct N t) (htx : Apart N t N x) :
    Ends (writeArray N t fun i mem => mem (x i)) s fun _ s' =>
      Step (fun o => ∃ j < N, o = t j) 0 0 s s' ∧
      ∀ r, reg N t s'.memory r = reg N x s.memory r := by
  refine Ends.mono (ends_writeArray (w := fun i => s.memory (x i)) ht fun i hi mem hmem =>
    hmem _ fun j hj => (htx j (by omega) i hi).symm) ?_
  rintro _ s' ⟨hstep, hmem⟩
  refine ⟨hstep, fun r => Pim.reg_eq ?_⟩
  rw [reg_toNat]
  exact bitsValue_congr fun j hj => congrFun (hmem j hj) r

theorem ends_square (hN : 2 ≤ N) (hf : 3 * N + multCells N ≤ s.inter.free.length)
    (hx : Register s N x) :
    Ends (DenominatorEvaluator.square N x) s fun t1 s' =>
      s'.inter = s.inter.alloc (listing (2 * N) t1) ∧ (∀ i < 2 * N, t1 i ∈ s.inter.first (3 * N)) ∧
      Distinct (2 * N) t1 ∧
      Changes (fun c => c ∈ s.inter.first (3 * N + multCells N)) (multCycles N) s s' ∧
      ∀ r, reg (2 * N) t1 s'.memory r = (serialArithmetic N).fixedMultiplication
        (reg N x s.memory r) (reg N x s.memory r) := by
  refine Ends.bind (ends_mallocArray hN (by omega)) ?_
  rintro xCopy _ ⟨hcopy, rfl⟩
  have h₁ := hcopy.opened
  have hroom₁ := h₁.room
  obtain ⟨s₁, hs₁⟩ : ∃ s₁, s₁ = s.withInter (s.inter.alloc (listing N xCopy)) := ⟨_, rfl⟩
  rw [← hs₁] at h₁ hroom₁ ⊢
  have hin₁ : s₁.inter = s.inter.alloc (listing N xCopy) := by rw [hs₁]; rfl
  refine Ends.bind (ends_copy h₁.register.distinct (h₁.apart_of_held hx.held)) ?_
  rintro _ s₂ ⟨hstep₂, hval₂⟩
  have hin₂ : s₂.inter = s₁.inter := hstep₂.inter
  refine Ends.bind (ends_mallocArray (by omega) (hin₂ ▸ by omega)) ?_
  rintro t1 _ ⟨ht1, rfl⟩
  have h₃ := ht1.opened
  have hroom₃ := h₃.room
  obtain ⟨s₃, hs₃⟩ : ∃ s₃, s₃ = s₂.withInter (s₂.inter.alloc (listing (2 * N) t1)) := ⟨_, rfl⟩
  rw [← hs₃] at h₃ hroom₃ ⊢
  rw [hin₂] at hroom₃
  have hkeep₂ : ∀ c, c ∉ s₁.inter.free → c ∉ s₂.inter.free := fun c hc => hin₂ ▸ hc
  have hx₂ := (hx.keep h₁.held).keep hkeep₂
  have hcopy₂ := h₁.register.keep hkeep₂
  refine Ends.bind (ends_regMultiplication hN (by omega) (hx₂.keep h₃.held) (hcopy₂.keep h₃.held)
    h₃.register (h₃.apart_of_held hx₂.held) (h₃.apart_of_held hcopy₂.held)) ?_
  rintro _ s₄ ⟨hstep₄, hval₄⟩
  have hin₄ : s₄.inter = (s.inter.alloc (listing N xCopy)).alloc (listing (2 * N) t1) := by
    rw [hstep₄.inter, hs₃, withInter_inter, hin₂, hin₁]
  refine ends_seq (run_free (hin₄ ▸ hcopy.mem_cells)) (ends_pure ?_)
  have hin₅ : s₄.inter.release (listing N xCopy) = s.inter.alloc (listing (2 * N) t1) := by
    rw [hin₄]
    refine release_alloc_alloc hcopy.not_allocated fun c hc hc' => ?_
    obtain ⟨i, hi, rfl⟩ := mem_listing.mp hc
    obtain ⟨j, hj, e⟩ := mem_listing.mp hc'
    exact h₃.apart_of_held hcopy₂.held j hj i hi e
  rw [hin₅]
  have hfirst : ∀ m, ∀ c ∈ (s.inter.alloc (listing N xCopy)).first m, c ∈ s.inter.first (N + m) :=
    fun m c hc => by
      have := Pool.first_alloc_subset hc
      rwa [length_listing] at this
  have ht1' : ∀ i < 2 * N, t1 i ∈ s.inter.first (3 * N) := fun i hi => by
    have := ht1.mem i hi
    rw [hin₂, hin₁] at this
    exact Pool.first_mono (by omega) (hfirst _ _ this)
  refine ⟨rfl, ht1', ht1.inj, ?_, fun r => ?_⟩
  · have hch₁ : Changes (fun c => c ∈ s.inter.first (3 * N + multCells N)) 0 s s₁ :=
      hs₁ ▸ Changes.refl.withInter _
    have hch₂ := hch₁.step hstep₂ (fun c hc => ?_) (fun c hc => absurd hc List.not_mem_nil)
    · have hch₃ : Changes (fun c => c ∈ s.inter.first (3 * N + multCells N)) 0 s s₃ :=
        hs₃ ▸ hch₂.withInter _
      rw [← Nat.zero_add (multCycles N)]
      refine (hch₃.step hstep₄ (fun c hc => ?_) fun c hc => ?_).withInter _
      · obtain ⟨i, hi, rfl⟩ := hc
        exact Pool.first_mono (by omega) (ht1' i hi)
      · rw [hs₃, withInter_inter, hin₂, hin₁] at hc
        have := Pool.first_alloc_subset hc
        rw [length_listing] at this
        exact Pool.first_mono (by omega) (hfirst _ _ this)
    · obtain ⟨i, hi, rfl⟩ := hc
      exact Pool.first_mono (by omega) (hcopy.mem i hi)
  · rw [withInter_memory, hval₄, h₃.memory, hval₂, (hx.keep h₁.held).reg_eq hstep₂
      (h₁.apart_of_held hx.held), h₁.memory]

def scaled (N : Nat) (const24 t1 : Nat → Fin cols) (mem : Fin cols → ι → Bool) (r : ι) :
    BitVec (2 * N) :=
  (serialArithmetic N).fixedMultiplication (reg N const24 mem r) (reg N t1 mem r)

/-- What is left of the denominator once `x` is squared. -/
theorem ends_scaleAndAdd {t1 const24 const240 result : Nat → Fin cols} (hN : 2 ≤ N)
    (hf : 2 * N + multCells N ≤ s.inter.free.length) (ht1 : Register s N t1)
    (h24 : Register s N const24) (h240 : Register s N const240) (hres : Register s (2 * N) result)
    (hr240 : Apart (2 * N) result N const240) :
    Ends (DenominatorEvaluator.scaleAndAdd N t1 const24 const240 result) s fun _ s' =>
      Step (fun o => ∃ i < 2 * N, o = result i) (2 * N + multCells N)
        (multCycles N + (1 + N * 18)) s s' ∧
      ∀ r, (reg N result s'.memory r, reg N (dropped N result) s'.memory r) =
        (F6.lower (scaled N const24 t1 s.memory r) + reg N const240 s.memory r,
          F6.upper (scaled N const24 t1 s.memory r)) := by
  have h7 := multCells_pos N
  refine ends_scratchArray (m := multCells N) (W := fun o => ∃ i < 2 * N, o = result i)
    (Q := fun mem => ∀ r, (reg N result mem r, reg N (dropped N result) mem r) =
      (F6.lower (scaled N const24 t1 s.memory r) + reg N const240 s.memory r,
        F6.upper (scaled N const24 t1 s.memory r))) (by omega) (by omega) fun t2 s₁ h₁ => ?_
  have hroom₁ := h₁.room
  have hres₁ := hres.keep h₁.held
  have h240₁ := h240.keep h₁.held
  refine Ends.bind (ends_regMultiplication hN (by omega) (h24.keep h₁.held) (ht1.keep h₁.held)
    h₁.register (h₁.apart_of_held h24.held) (h₁.apart_of_held ht1.held)) ?_
  rintro _ s₂ ⟨hstep₂, hval₂⟩
  have hkeep₂ : ∀ c, c ∉ s₁.inter.free → c ∉ s₂.inter.free := fun c hc => hstep₂.inter ▸ hc
  have h2r : Apart (2 * N) t2 (2 * N) result := h₁.apart_of_held hres.held
  have h2240 : Apart (2 * N) t2 N const240 := h₁.apart_of_held h240.held
  have hle : N ≤ 2 * N := by omega
  refine Ends.bind (ends_regAddition (hstep₂.inter ▸ by omega)
    ((h₁.register.keep hkeep₂).mono hle) (h240₁.keep hkeep₂) ((hres₁.keep hkeep₂).mono hle)
    (h2r.symm.mono hle hle) (hr240.mono hle (Nat.le_refl N)) (h2240.mono hle (Nat.le_refl N))) ?_
  rintro _ s₃ ⟨hstep₃, hval₃⟩
  have hin₃ : s₃.inter = s₁.inter := hstep₃.inter.trans hstep₂.inter
  have hdist : Distinct (N + N) result := Nat.two_mul N ▸ hres.distinct
  refine Ends.mono (ends_copy (x := dropped N t2) hdist.dropped fun i hi j hj =>
    (h2r _ (by omega) _ (by omega)).symm) ?_
  rintro _ s₄ ⟨hstep₄, hval₄⟩
  refine ⟨?_, fun r => ?_⟩
  · rw [← Nat.add_zero (multCycles N + (1 + N * 18))]
    refine ((hstep₂.mono (fun _ => .inr) (Nat.le_refl _)).trans (hstep₃.mono ?_ (by omega))).trans
      (hstep₄.mono ?_ (Nat.zero_le _))
    · rintro o ⟨i, hi, rfl⟩
      exact .inl ⟨i, by omega, rfl⟩
    · rintro o ⟨i, hi, rfl⟩
      exact .inl ⟨N + i, by omega, rfl⟩
  · have hscaled : reg (2 * N) t2 s₂.memory r = scaled N const24 t1 s.memory r := by
      rw [hval₂, h₁.memory, scaled]
    -- the copy of the upper half does not write the lower one
    have hlow : reg N result s₄.memory r = reg N result s₃.memory r :=
      ((hres₁.keep fun c hc => hin₃ ▸ hc).mono hle).reg_eq hstep₄ (fun i hi j hj e => by
        have := hdist _ (by omega) _ (by omega) e
        omega) r
    have h2₃ : reg (2 * N) t2 s₃.memory r = reg (2 * N) t2 s₂.memory r :=
      (h₁.register.keep hkeep₂).reg_eq hstep₃ (h2r.symm.mono hle (Nat.le_refl _)) r
    have h240₂ : reg N const240 s₂.memory r = reg N const240 s.memory r := by
      rw [h240₁.reg_eq hstep₂ h2240, h₁.memory]
    rw [hlow, hval₃, ← lower_reg, hscaled, h240₂, hval₄, ← upper_reg, h2₃, hscaled]

theorem ends_squareScaled {const24 const240 result : Nat → Fin cols} (hN : 2 ≤ N)
    (hf : 4 * N + multCells N ≤ s.inter.free.length) (hx : Register s N x)
    (h24 : Register s N const24) (h240 : Register s N const240) (hres : Register s (2 * N) result)
    (hr240 : Apart (2 * N) result N const240) :
    Ends (do
        let t1 ← DenominatorEvaluator.square N x
        DenominatorEvaluator.scaleAndAdd N t1 const24 const240 result
        free (2 * N) t1) s fun _ s' =>
      Step (fun o => ∃ i < 2 * N, o = result i) (4 * N + multCells N)
        (2 * multCycles N + 18 * N + 1) s s' ∧
      ∀ r t2, t2 = (serialArithmetic N).fixedMultiplication (reg N const24 s.memory r)
          (F6.lower ((serialArithmetic N).fixedMultiplication (reg N x s.memory r)
            (reg N x s.memory r))) →
        (reg N result s'.memory r, reg N (dropped N result) s'.memory r) =
          (F6.lower t2 + reg N const240 s.memory r, F6.upper t2) := by
  refine Ends.bind (ends_square hN (by omega) hx) ?_
  rintro t1 s₁ ⟨hin₁, hfirst₁, hdist₁, hch₁, hval₁⟩
  have hkeep₁ : ∀ c, c ∉ s.inter.free → c ∉ s₁.inter.free := fun c hc => hin₁ ▸ not_free_alloc hc
  have hmem₁ : ∀ c, c ∉ s.inter.free → s₁.memory c = s.memory c := fun c hc =>
    hch₁.memory c fun h => hc (Pool.mem_free_of_first h)
  have hreg₁ : ∀ {y : Nat → Fin cols}, Register s N y → ∀ r,
      reg N y s₁.memory r = reg N y s.memory r := fun hy r =>
    Pim.reg_eq (reg_toNat.trans (bitsValue_congr fun j hj =>
      congrFun (hmem₁ _ (hy.held j hj)).symm r)).symm
  have ht1 : Register s₁ (2 * N) t1 := ⟨fun i hi => hin₁ ▸ Fresh.not_free hi, hdist₁⟩
  refine Ends.bind (ends_scaleAndAdd hN (hin₁ ▸ le_length_alloc (by rw [length_listing]; omega))
    (ht1.mono (by omega)) (h24.keep hkeep₁) (h240.keep hkeep₁) (hres.keep hkeep₁) hr240) ?_
  rintro _ s₂ ⟨hstep₂, hval₂⟩
  have hin₂ : s₂.inter = s.inter.alloc (listing (2 * N) t1) := hstep₂.inter.trans hin₁
  have hfree : ∀ c ∈ listing (2 * N) t1, c ∈ s.inter.free := fun c hc => by
    obtain ⟨i, hi, rfl⟩ := mem_listing.mp hc
    exact Pool.mem_free_of_first (hfirst₁ i hi)
  refine ends_of_run (run_free fun c hc => hin₂ ▸ (Pool.mem_free.mp (hfree c hc)).1) ?_
  rw [hin₂, Pool.release_alloc fun c hc => (Pool.mem_free.mp (hfree c hc)).2]
  refine ⟨⟨rfl, ?_⟩, fun r t2 ht2 => ?_⟩
  · rw [show 2 * multCycles N + 18 * N + 1 = multCycles N + (multCycles N + (1 + N * 18)) by ring]
    have hch₁' : Changes (Reach (fun o => ∃ i < 2 * N, o = result i) s.inter
        (4 * N + multCells N)) (multCycles N) s s₁ :=
      hch₁.mono fun c hc => .inr (Pool.first_mono (by omega) hc)
    refine (hch₁'.step hstep₂ (fun _ => .inl) fun c hc => .inr ?_).withInter _
    rw [hin₁] at hc
    have := Pool.first_alloc_subset hc
    rw [length_listing] at this
    exact Pool.first_mono (by omega) this
  · have hlow : reg N t1 s₁.memory r = F6.lower (reg (2 * N) t1 s₁.memory r) := lower_reg.symm
    rw [withInter_memory, hval₂, scaled, hreg₁ h24, hreg₁ h240, hlow, hval₁, ← ht2]

theorem ends_denominator {result : Nat → Fin cols} (hN : 2 ≤ N)
    (hf : denominatorCells N ≤ s.inter.free.length) (hx : Register s N x)
    (hres : Register s (2 * N) result) :
    Ends (DenominatorEvaluator.evaluateFixedSerial N x result) s fun _ s' =>
      Step (fun o => ∃ i < 2 * N, o = result i) (denominatorCells N)
        (2 * multCycles N + 18 * N + 1) s s' ∧
      ∀ r, (reg N result s'.memory r, reg N (dropped N result) s'.memory r) =
        F6.DenominatorEvaluator.evaluateFixedSerial (serialArithmetic N) (reg N x s.memory r) := by
  unfold denominatorCells at hf ⊢
  rw [show 6 * N + multCells N = N + (N + (4 * N + multCells N)) by omega]
  refine ends_scratchArray (W := fun o => ∃ i < 2 * N, o = result i)
    (Q := fun mem => ∀ r, (reg N result mem r, reg N (dropped N result) mem r) =
      F6.DenominatorEvaluator.evaluateFixedSerial (serialArithmetic N) (reg N x s.memory r))
    hN (by omega) fun const24 s₁ h₁ => ?_
  have hroom₁ := h₁.room
  have hx₁ := hx.keep h₁.held
  refine Ends.bind (ends_writeConst h₁.register.distinct 24) ?_
  rintro _ s₂ ⟨hstep₂, hval₂⟩
  have hkeep₂ : ∀ c, c ∉ s₁.inter.free → c ∉ s₂.inter.free := fun c hc => hstep₂.inter ▸ hc
  have h24₂ := h₁.register.keep hkeep₂
  have hx₂ := hx₁.keep hkeep₂
  have hres₂ := (hres.keep h₁.held).keep hkeep₂
  refine Ends.mono (ends_scratchArray (s := s₂) (n := 2 * multCycles N + 18 * N + 1)
    (m := 4 * N + multCells N) (W := fun o => ∃ i < 2 * N, o = result i)
    (Q := fun mem => ∀ r, (reg N result mem r, reg N (dropped N result) mem r) =
      F6.DenominatorEvaluator.evaluateFixedSerial (serialArithmetic N) (reg N x s.memory r))
    hN (hstep₂.inter ▸ by omega) fun const240 s₃ h₃ => ?_) ?_
  · have hroom₃ := h₃.room
    rw [hstep₂.inter] at hroom₃
    refine Ends.bind (ends_writeConst h₃.register.distinct 240) ?_
    rintro _ s₄ ⟨hstep₄, hval₄⟩
    have hkeep₄ : ∀ c, c ∉ s₃.inter.free → c ∉ s₄.inter.free := fun c hc => hstep₄.inter ▸ hc
    have hx₄ := (hx₂.keep h₃.held).keep hkeep₄
    have h24₄ := (h24₂.keep h₃.held).keep hkeep₄
    refine Ends.mono (ends_squareScaled hN (hstep₄.inter ▸ by omega) hx₄ h24₄
      (h₃.register.keep hkeep₄) ((hres₂.keep h₃.held).keep hkeep₄)
      (h₃.apart_of_held hres₂.held).symm) ?_
    rintro _ s₅ ⟨hstep₅, hval₅⟩
    refine ⟨?_, fun r => ?_⟩
    · rw [← Nat.zero_add (2 * multCycles N + 18 * N + 1)]
      exact (hstep₄.mono (fun _ => .inr) (Nat.zero_le _)).trans
        (hstep₅.mono (fun _ => .inl) (Nat.le_refl _))
    · have hxval : reg N x s₄.memory r = reg N x s.memory r := by
        rw [(hx₂.keep h₃.held).reg_eq hstep₄ (h₃.apart_of_held hx₂.held), h₃.memory,
          hx₁.reg_eq hstep₂ (h₁.apart_of_held hx.held), h₁.memory]
      have h24val : reg N const24 s₄.memory r = F6.const 24 := by
        rw [(h24₂.keep h₃.held).reg_eq hstep₄ (h₃.apart_of_held h24₂.held), h₃.memory, hval₂]
      rw [hval₅ r _ rfl, hxval, h24val, hval₄]
      rfl
  · rintro _ s' ⟨hstep', hval'⟩
    rw [← Nat.zero_add (2 * multCycles N + 18 * N + 1)]
    exact ⟨(hstep₂.mono (fun _ => .inr) (Nat.zero_le _)).trans
      (hstep'.mono (fun _ => .inl) (Nat.le_refl _)), hval'⟩

/-! ## The division -/

omit [NeZero cols] in
theorem reg_eq_zero : reg N x mem r = 0 ↔ ∀ i < N, mem (x i) r = false := by
  rw [← bitsValue_eq_zero]
  exact ⟨fun h => reg_toNat.symm.trans (congrArg BitVec.toNat h), fun h => Pim.reg_eq (v := 0) h⟩

theorem ends_divideChecked {numerator denominator quotient rem : Nat → Fin cols}
    {zero : ι → Prop} [DecidablePred zero] [Decidable (∃ r, zero r)] (hN : 1 ≤ N)
    (hf : 10 ≤ s.inter.free.length) (h : Places s N N numerator denominator quotient rem) :
    Ends (do
        fixedDivision N numerator denominator quotient rem
        if ∃ r, zero r then
          writeArray N quotient fun i mem r => !decide (zero r) && mem (quotient i) r) s fun _ s' =>
      Step (fun o => (∃ j < N, o = rem j) ∨ ∃ j < N, o = quotient j) 10 (26 * N ^ 2 + 56 * N + 7)
        s s' ∧
      ∀ r, reg N quotient s'.memory r = if zero r then 0 else (serialArithmetic N).fixedDivision
        (reg (2 * N) numerator s.memory r) (reg N denominator s.memory r) := by
  refine Ends.bind (ends_fixedDivision hN hf h) ?_
  rintro _ s₁ ⟨hstep₁, hval₁⟩
  have hquot : ∀ r, reg N quotient s₁.memory r = (serialArithmetic N).fixedDivision
      (reg (2 * N) numerator s.memory r) (reg N denominator s.memory r) := fun r => by
    rw [reg, (hval₁ r).1, ← reg_toNat, ← reg_toNat]
    rfl
  split
  · refine Ends.mono (ends_writeArray (w := fun i r => !decide (zero r) && s₁.memory (quotient i) r)
      h.distinctQ fun i hi mem hmem => ?_) ?_
    · funext r
      rw [hmem (quotient i) fun j hj e => by
        have := h.distinctQ i hi j (by omega) e
        omega]
    · rintro _ s₂ ⟨hstep₂, hval₂⟩
      refine ⟨hstep₁.trans (hstep₂.mono (fun _ => .inr) (Nat.zero_le 10)), fun r => ?_⟩
      split
      · refine reg_eq_zero.mpr fun i hi => ?_
        simp only [hval₂ i hi, ‹zero r›, decide_true, Bool.not_true, Bool.false_and]
      · rw [← hquot]
        refine Pim.reg_eq (Eq.trans (bitsValue_congr fun i hi => ?_) reg_toNat.symm)
        simp only [hval₂ i hi, ‹¬zero r›, decide_false, Bool.not_false, Bool.true_and]
  · refine ends_pure ⟨hstep₁, fun r => ?_⟩
    rw [hquot, if_neg fun h0 => ‹¬∃ r, zero r› ⟨r, h0⟩]

theorem ends_divide [Fintype ι] {numerator denominator quotient : Nat → Fin cols} (hN : 2 ≤ N)
    (hf : N + 10 ≤ s.inter.free.length) (hnum : Register s (2 * N) numerator)
    (hden : Register s N denominator) (hquot : Register s N quotient)
    (hqn : Apart N quotient (2 * N) numerator) (hqd : Apart N quotient N denominator) :
    Ends (DivisionUnit.divideFixedSerial N numerator denominator quotient) s fun _ s' =>
      Step (fun o => ∃ j < N, o = quotient j) (N + 10)
        (if ∀ r, reg N denominator s.memory r = 0 then 0 else 26 * N ^ 2 + 56 * N + 7) s s' ∧
      ∀ r, reg N quotient s'.memory r = if reg N denominator s.memory r = 0 then 0
        else (serialArithmetic N).fixedDivision (reg (2 * N) numerator s.memory r)
          (reg N denominator s.memory r) := by
  have hzero : ∀ r, (∀ i < N, s.memory (denominator i) r = false) ↔ reg N denominator s.memory r = 0 :=
    fun r => reg_eq_zero.symm
  refine ends_seq (show (get : SerialM cols ι _).run s = some (s, s) from rfl) ?_
  simp only [hzero]
  split
  · rename_i hall
    refine Ends.mono (ends_writeConst hquot.distinct 0) ?_
    rintro _ s' ⟨hstep, hval⟩
    exact ⟨hstep.mono (fun _ => id) (Nat.zero_le _), fun r => by rw [hval, if_pos (hall r)]; rfl⟩
  · refine ends_scratchArray (m := 10) (W := fun o => ∃ j < N, o = quotient j)
      (Q := fun mem => ∀ r, reg N quotient mem r = if reg N denominator s.memory r = 0 then 0
        else (serialArithmetic N).fixedDivision (reg (2 * N) numerator s.memory r)
          (reg N denominator s.memory r)) hN (by omega) fun rem s₁ h₁ => ?_
    have hroom := h₁.room
    have hplaces : Places s₁ N N numerator denominator quotient rem :=
      { heldZ := (hnum.keep h₁.held).held
        heldD := (hden.keep h₁.held).held
        heldQ := (hquot.keep h₁.held).held
        heldR := h₁.register.held
        distinctQ := hquot.distinct
        distinctR := h₁.register.distinct
        q_ne_z := hqn
        q_ne_d := hqd
        r_ne_z := h₁.apart_of_held hnum.held
        r_ne_d := h₁.apart_of_held hden.held
        r_ne_q := h₁.apart_of_held hquot.held }
    refine Ends.mono (ends_divideChecked (by omega) (by omega) hplaces) ?_
    rintro _ s₂ ⟨hstep, hval⟩
    exact ⟨hstep.mono (fun o h => h.symm) (Nat.le_refl 10), fun r => by rw [hval, h₁.memory]⟩

/-! ## The clamp -/

omit [NeZero cols] in
theorem bitsValue_select (x : Nat → Fin cols) (mem : Fin cols → ι → Bool) (neg ge : Bool) :
    (bitsValue N fun i => if neg then false else if ge then Nat.testBit 1 i else mem (x i) r) =
      (F6.ClampingUnit.select neg ge (reg N x mem r)).toNat := by
  unfold F6.ClampingUnit.select
  cases neg with
  | true => exact bitsValue_false N
  | false =>
    cases ge with
    | true => exact (bitsValue_testBit N 1).trans (BitVec.toNat_ofNat ..).symm
    | false => exact reg_toNat.symm

omit [NeZero cols] in
theorem msb_reg (hN : 1 ≤ N) : (reg N x mem r).msb = mem (x (N - 1)) r := by
  have h := bitsValue_msb (N - 1) fun i => mem (x i) r
  rw [Nat.sub_add_cancel hN] at h
  rw [BitVec.msb_eq_decide, reg_toNat, h]
  rfl

theorem ends_clamp {value output : Nat → Fin cols} (hN : 2 ≤ N)
    (hf : 2 * N + 7 ≤ s.inter.free.length) (hval : Register s N value)
    (hout : Register s N output) (hov : Apart N output N value) :
    Ends (ClampingUnit.clampFixedSerial N value output) s fun _ s' =>
      Step (fun o => ∃ j < N, o = output j) (N + (N + (1 + 6))) (1 + N * 20) s s' ∧
      ∀ r, reg N output s'.memory r =
        F6.ClampingUnit.clampFixedSerial (serialArithmetic N) (reg N value s.memory r) := by
  refine ends_scratchArray (W := fun o => ∃ j < N, o = output j)
    (Q := fun mem => ∀ r, reg N output mem r =
      F6.ClampingUnit.clampFixedSerial (serialArithmetic N) (reg N value s.memory r))
    hN (by omega) fun constOne s₁ h₁ => ?_
  have hroom₁ := h₁.room
  have hval₁ := hval.keep h₁.held
  have hout₁ := hout.keep h₁.held
  refine ends_scratchArray (Q := fun mem => ∀ r, reg N output mem r =
      F6.ClampingUnit.clampFixedSerial (serialArithmetic N) (reg N value s.memory r))
    hN (by omega) fun subResult s₂ h₂ => ?_
  have hroom₂ := h₂.room
  have hval₂ := hval₁.keep h₂.held
  have hout₂ := hout₁.keep h₂.held
  have hone₂ := h₁.register.keep h₂.held
  refine ends_scratchOne (m := 6) (Q := fun mem => ∀ r, reg N output mem r =
      F6.ClampingUnit.clampFixedSerial (serialArithmetic N) (reg N value s.memory r))
    (by omega) fun cout hcout => ?_
  obtain ⟨s₃, hs₃⟩ : ∃ s₃, s₃ = s₂.withInter (s₂.inter.alloc [cout]) := ⟨_, rfl⟩
  rw [← hs₃]
  have hin₃ : s₃.inter = s₂.inter.alloc [cout] := by rw [hs₃]; rfl
  have hmem₃ : s₃.memory = s.memory := by rw [hs₃, withInter_memory, h₂.memory, h₁.memory]
  have hheld₃ : ∀ c, c ∉ s₂.inter.free → c ∉ s₃.inter.free := fun c hc => hin₃ ▸ not_free_alloc hc
  have hf₃ : 6 ≤ s₃.inter.free.length := hin₃ ▸ le_length_alloc (by simp; omega)
  refine Ends.bind (ends_writeConst hone₂.distinct 1) ?_
  rintro _ s₄ ⟨hstep₄, hone⟩
  have hheld₄ : ∀ c, c ∉ s₂.inter.free → c ∉ s₄.inter.free := fun c hc =>
    hstep₄.inter ▸ hheld₃ c hc
  refine Ends.bind (ends_fixedSubtraction (hstep₄.inter ▸ hf₃) (hval₂.keep hheld₄).held
    (hone₂.keep hheld₄).held (h₂.register.keep hheld₄).held h₂.register.distinct
    (readFirst_of_ne (h₂.apart_of_held hval₁.held))
    (readFirst_of_ne (h₂.apart_of_held h₁.register.held)) fun c hc => ?_) ?_
  · cases hc
    exact ⟨hstep₄.inter ▸ hin₃ ▸ not_free_self, fun i hi => (ne_of_first hcout (h₂.register.held i hi)).symm⟩
  · rintro _ s₅ ⟨hstep₅, co, hco, hsub⟩
    have hvalue : ∀ i < N, s₅.memory (value i) = s.memory (value i) := fun i hi => by
      rw [hstep₅.memory_eq ((hval₂.keep hheld₄).held i hi), hstep₄.memory_eq
        ((hval₂.keep hheld₃).held i hi), hmem₃]
      · rintro ⟨j, hj, e⟩
        exact h₁.apart_of_held hval.held j hj i hi e.symm
      · rintro (⟨j, hj, e⟩ | e)
        · exact h₂.apart_of_held hval₁.held j hj i hi e.symm
        · cases e
          exact hval₂.held i hi (Pool.mem_free_of_first hcout)
    have hcarry : ∀ r, co r = decide ((F6.const 1 : BitVec N).toNat ≤ (reg N value s.memory r).toNat) :=
      fun r => by
        have hval₄ : reg N value s₄.memory r = reg N value s.memory r := by
          rw [(hval₂.keep hheld₃).reg_eq hstep₄ (h₁.apart_of_held hval.held), hmem₃]
        rw [← hone r, ← hval₄, reg_toNat, reg_toNat]
        exact (mod_and_noBorrow num_lt num_lt (hsub r)).2
    have hov' : ∀ i < N, ∀ j < N, value j ≠ output i := fun i hi j hj => (hov i hi j hj).symm
    have hco' : ∀ i < N, cout ≠ output i := fun i hi => ne_of_first hcout (hout₂.held i hi)
    refine Ends.mono (ends_writeArray (w := fun i r => if s.memory (value (N - 1)) r then false
      else if co r then Nat.testBit 1 i else s.memory (value i) r) hout.distinct
      fun i hi mem hmem => ?_) ?_
    · rw [hmem (value (N - 1)) fun j hj => hov' j (by omega) _ (by omega),
        hmem cout fun j hj => hco' j (by omega), hmem (value i) fun j hj => hov' j (by omega) i hi,
        hvalue _ (by omega), hvalue i hi, hco (by omega) cout rfl]
    · rintro _ s₆ ⟨hstep₆, hval₆⟩
      refine ⟨?_, fun r => Pim.reg_eq ?_⟩
      · rw [← Nat.add_zero (1 + N * 20), ← Nat.zero_add (1 + N * 20)]
        refine ((hstep₄.mono (fun o h => .inl (.inl (.inr h))) (Nat.zero_le 6)).trans
          (hstep₅.mono ?_ (Nat.le_refl 6))).trans
          (hstep₆.mono (fun o h => .inl (.inl (.inl h))) (Nat.zero_le 6))
        rintro o (h | h)
        · exact .inl (.inr h)
        · exact .inr (Option.mem_some.mp h).symm
      · rw [F6.ClampingUnit.clampFixedSerial, msb_reg (by omega)]
        refine Eq.trans (bitsValue_congr fun i hi => congrFun (hval₆ i hi) r) ?_
        rw [bitsValue_select value s.memory, hcarry]
        rfl

/-! ## The pipeline -/

section

variable {a b : Nat}

theorem apart_columns (h : a + m ≤ b) (hb : b + n ≤ cols) :
    Apart m (columns a : Nat → Fin cols) n (columns b) := fun _ hi _ hj => columns_ne h hb hi hj

theorem register_columns (h : a + n ≤ b) (hb : b ≤ cols) :
    Register (s.withInter (allocator b)) n (columns a) :=
  ⟨fun i hi => not_free_allocator (by rw [val_columns (by omega)]; omega),
    distinct_columns (by omega)⟩

end

def row (N : Nat) (mem : Fin cols → ι → Bool) (r : ι) : F6.SerialRow N where
  numerator := reg (2 * N) (columns (2 * N)) mem r
  denominator := (reg N (columns (4 * N)) mem r, reg N (columns (5 * N)) mem r)
  quotient := reg N (columns (6 * N)) mem r
  clamped := reg N (columns (7 * N)) mem r

/-- The columns that the pipeline writes. -/
def PipelineColumns (N : Nat) (c : Fin cols) : Prop :=
  c.val < N ∨ 2 * N ≤ c.val ∧ c.val < 8 * N + hornerCells N

/-- What an evaluator of the pipeline changes, whose result is in `m` columns from `a` on: no
other array of the pipeline. -/
structure Evaluated (N a m n : Nat) (s s' : SerialSimulator cols ι) : Prop where
  changes : Changes (PipelineColumns N) n s s'
  keep : ∀ {M b : Nat}, b + M ≤ 8 * N → (b + M ≤ a ∨ a + m ≤ b) → ∀ r,
    reg M (columns b) s'.memory r = reg M (columns b) s.memory r

section

variable {a : Nat} (hN : 2 ≤ N) (hc : 8 * N + hornerCells N ≤ cols)

include hc

theorem Step.evaluated (ha : 2 * N ≤ a) (hm : a + m ≤ 8 * N) (hk : k ≤ hornerCells N)
    (h : Step (fun o => ∃ i < m, o = columns a i) k n (s.withInter (allocator (8 * N))) s') :
    Evaluated N a m n s s' := by
  refine ⟨h.changes.of_withInter.mono fun c hc' => .inr ?_, fun hb hab r => ?_⟩
  · rcases hc' with ⟨i, hi, rfl⟩ | hc'
    · rw [val_columns (by omega)]
      omega
    · have := mem_first_allocator hc'
      omega
  · refine (register_columns (s := s) hb (by omega)).reg_eq h ?_ r
    rcases hab with hab | hab
    · exact (apart_columns hab (by omega)).symm
    · exact apart_columns hab (by omega)

theorem register_pipeline {b M : Nat} (h : b + M ≤ 8 * N) :
    Register (s.withInter (allocator (8 * N))) M (columns b) := register_columns h (by omega)

theorem le_free_pipeline (hk : k ≤ hornerCells N) :
    k ≤ (s.withInter (allocator (8 * N) : Pool (Fin cols))).inter.free.length := by
  rw [withInter_inter, length_free_allocator]
  omega

include hN

theorem ends_hornerStage :
    Ends (withAllocator (8 * N) (HornerEvaluator.evaluateFixedSerial N (columns 0) (columns (2 * N))))
      s fun _ s' => Evaluated N (2 * N) (2 * N) (2 * multCycles N + 90 * N + 3) s s' ∧
        ∀ r, reg (2 * N) (columns (2 * N)) s'.memory r =
          F6.HornerEvaluator.evaluateFixedSerial (serialArithmetic N)
            (reg N (columns 0) s.memory r) := by
  refine ends_seq rfl (Ends.mono (ends_horner hN (le_free_pipeline hc (Nat.le_refl _))
    (register_pipeline hc (by omega)) (register_pipeline hc (by omega))) ?_)
  rintro _ s' ⟨hstep, hval⟩
  exact ⟨hstep.evaluated hc (by omega) (by omega) (Nat.le_refl _), hval⟩

theorem ends_denominatorStage :
    Ends (withAllocator (8 * N)
      (DenominatorEvaluator.evaluateFixedSerial N (columns 0) (columns (4 * N)))) s fun _ s' =>
        Evaluated N (4 * N) (2 * N) (2 * multCycles N + 18 * N + 1) s s' ∧
        ∀ r, (reg N (columns (4 * N)) s'.memory r, reg N (columns (5 * N)) s'.memory r) =
          F6.DenominatorEvaluator.evaluateFixedSerial (serialArithmetic N)
            (reg N (columns 0) s.memory r) := by
  have hcells : denominatorCells N ≤ hornerCells N := by
    unfold denominatorCells hornerCells
    omega
  have hupper : dropped N (columns (4 * N) : Nat → Fin cols) = columns (5 * N) := by
    rw [dropped_columns, show 4 * N + N = 5 * N by omega]
  refine ends_seq rfl (Ends.mono (ends_denominator hN (le_free_pipeline hc hcells)
    (register_pipeline hc (by omega)) (register_pipeline hc (by omega))) ?_)
  rintro _ s' ⟨hstep, hval⟩
  rw [hupper] at hval
  exact ⟨hstep.evaluated hc (by omega) (by omega) hcells, hval⟩

theorem ends_divisionStage [Fintype ι] :
    Ends (withAllocator (8 * N) (DivisionUnit.divideFixedSerial N (columns (2 * N)) (columns (4 * N))
      (columns (6 * N)))) s fun _ s' =>
        Evaluated N (6 * N) N (if ∀ r, reg N (columns (4 * N)) s.memory r = 0 then 0
          else 26 * N ^ 2 + 56 * N + 7) s s' ∧
        ∀ r, reg N (columns (6 * N)) s'.memory r =
          if reg N (columns (4 * N)) s.memory r = 0 then 0
          else (serialArithmetic N).fixedDivision (reg (2 * N) (columns (2 * N)) s.memory r)
            (reg N (columns (4 * N)) s.memory r) := by
  have hcells : N + 10 ≤ hornerCells N := by
    unfold hornerCells
    omega
  refine ends_seq rfl (Ends.mono (ends_divide hN (le_free_pipeline hc hcells)
    (register_pipeline hc (by omega)) (register_pipeline hc (by omega))
    (register_pipeline hc (by omega)) (apart_columns (by omega) (by omega)).symm
    (apart_columns (by omega) (by omega)).symm) ?_)
  rintro _ s' ⟨hstep, hval⟩
  exact ⟨hstep.evaluated hc (by omega) (by omega) hcells, hval⟩

theorem ends_clampStage :
    Ends (withAllocator (8 * N) (ClampingUnit.clampFixedSerial N (columns (6 * N)) (columns (7 * N))))
      s fun _ s' => Evaluated N (7 * N) N (1 + N * 20) s s' ∧
        ∀ r, reg N (columns (7 * N)) s'.memory r = F6.ClampingUnit.clampFixedSerial
          (serialArithmetic N) (reg N (columns (6 * N)) s.memory r) := by
  have hcells : N + (N + (1 + 6)) ≤ hornerCells N := by
    unfold hornerCells
    omega
  refine ends_seq rfl (Ends.mono (ends_clamp hN (le_free_pipeline hc (by omega))
    (register_pipeline hc (by omega)) (register_pipeline hc (by omega))
    (apart_columns (by omega) (by omega)).symm) ?_)
  rintro _ s' ⟨hstep, hval⟩
  exact ⟨hstep.evaluated hc (by omega) (by omega) hcells, hval⟩

end

/-- The cycles of the pipeline; nothing is divided when every denominator is zero. -/
def pipelineCycles [Fintype ι] (N : Nat) (x : ι → BitVec N) : Nat :=
  2 * multCycles N + 90 * N + 3 + (2 * multCycles N + 18 * N + 1) +
    (if ∀ r, (F6.serialRow (serialArithmetic N) (x r)).denominator.1 = 0 then 0
      else 26 * N ^ 2 + 56 * N + 7) + (1 + N * 20)

/-- **The pipeline** computes its rows, and no assertion of the simulator or of an allocator
fails. -/
theorem ends_runPipelineSerialFixed [Fintype ι] (hN : 2 ≤ N) (hc : 8 * N + hornerCells N ≤ cols)
    (x : ι → BitVec N) :
    Ends (runPipelineSerialFixed N x) s fun _ s' =>
      Changes (PipelineColumns N) (pipelineCycles N x) s s' ∧
      ∀ r, row N s'.memory r = F6.serialRow (serialArithmetic N) (x r) := by
  refine Ends.bind (ends_writeArray (w := fun i r => (x r).getLsbD i) (distinct_columns (by omega))
    fun _ _ _ _ => rfl) ?_
  rintro _ s₁ ⟨hstep₁, hx₁⟩
  have hx : ∀ r, reg N (columns 0) s₁.memory r = x r := fun r => Pim.reg_eq (by
    rw [← bitsValue_getLsbD]
    exact bitsValue_congr fun i hi => congrFun (hx₁ i hi) r)
  have hch₁ : Changes (PipelineColumns N) 0 s s₁ := hstep₁.changes.mono fun c hc' => by
    rcases hc' with ⟨i, hi, rfl⟩ | hc'
    · exact .inl (by rw [val_columns (by omega)]; omega)
    · exact absurd hc' List.not_mem_nil
  refine Ends.bind (ends_hornerStage hN hc) ?_
  rintro _ s₂ ⟨h₂, hval₂⟩
  refine Ends.bind (ends_denominatorStage hN hc) ?_
  rintro _ s₃ ⟨h₃, hval₃⟩
  refine Ends.bind (ends_divisionStage hN hc) ?_
  rintro _ s₄ ⟨h₄, hval₄⟩
  refine Ends.mono (ends_clampStage hN hc) ?_
  rintro _ s₅ ⟨h₅, hval₅⟩
  have hx₂ : ∀ r, reg N (columns 0) s₂.memory r = x r := fun r => by
    rw [h₂.keep (by omega) (.inl (by omega)), hx]
  simp only [hx] at hval₂
  simp only [hx₂] at hval₃
  have hnum₃ : ∀ r, reg (2 * N) (columns (2 * N)) s₃.memory r =
      (F6.serialRow (serialArithmetic N) (x r)).numerator := fun r => by
    rw [h₃.keep (by omega) (.inl (by omega)), hval₂]
    rfl
  have hden₃ : ∀ r, reg N (columns (4 * N)) s₃.memory r =
      (F6.serialRow (serialArithmetic N) (x r)).denominator.1 := fun r =>
    congrArg Prod.fst (hval₃ r)
  have hupper₃ : ∀ r, reg N (columns (5 * N)) s₃.memory r =
      (F6.serialRow (serialArithmetic N) (x r)).denominator.2 := fun r =>
    congrArg Prod.snd (hval₃ r)
  have hquot₄ : ∀ r, reg N (columns (6 * N)) s₄.memory r =
      (F6.serialRow (serialArithmetic N) (x r)).quotient := fun r => by
    rw [hval₄, hnum₃, hden₃]
    rfl
  refine ⟨?_, fun r => ?_⟩
  · have h₄' := h₄.changes
    simp only [hden₃] at h₄'
    rw [pipelineCycles, ← Nat.zero_add (2 * multCycles N + 90 * N + 3)]
    exact (((hch₁.trans h₂.changes).trans h₃.changes).trans h₄').trans h₅.changes
  · rw [row, h₅.keep (by omega) (.inl (by omega)), h₄.keep (by omega) (.inl (by omega)), hnum₃,
      h₅.keep (by omega) (.inl (by omega)), h₄.keep (by omega) (.inl (by omega)), hden₃,
      h₅.keep (by omega) (.inl (by omega)), h₄.keep (by omega) (.inl (by omega)), hupper₃,
      h₅.keep (by omega) (.inl (by omega)), hval₅, hquot₄]
    rfl

end

/-! ## Runs of the pipeline -/

section

variable {N n : Nat} {s : SerialSimulator cols (Fin n)}

/-- **The gates refine the pipeline on registers**: a run on any simulator with enough columns
fails no assertion and leaves the rows of `serialArithmetic`. Its sums, differences and products are
exact; its quotient is that of the non-restoring passes, which is exact only where it fits in `N`
bits. -/
theorem runPipelineSerialFixed_refines (hN : 2 ≤ N) (hc : 8 * N + hornerCells N ≤ cols)
    (x : Fin n → BitVec N) :
    Ends (runPipelineSerialFixed N x) s fun _ s' =>
      List.ofFn (row N s'.memory) =
        F6.runPipelineSerialFixed (serialArithmetic N) (List.ofFn x) := by
  refine Ends.mono (ends_runPipelineSerialFixed hN hc x) ?_
  rintro _ s' ⟨-, hrow⟩
  rw [F6.runPipelineSerialFixed_eq, List.map_ofFn]
  exact congrArg List.ofFn (funext hrow)

/-- A quotient that does not fit: 12615 by 8 leaves 235, and so the output is 0. -/
theorem runPipelineSerialFixed_refines_overflow :
    Ends (runPipelineSerialFixed 8 fun r => if r = 0 then 255 else 2)
      (start 0 : SerialSimulator 181 (Fin 2)) fun _ s' =>
      List.ofFn (row 8 s'.memory) = [⟨12615, (8, 0), 235, 0⟩, ⟨296, (80, 0), 3, 1⟩] := by
  have hrows : F6.runPipelineSerialFixed (serialArithmetic 8)
      (List.ofFn fun r : Fin 2 => if r = 0 then 255 else 2) =
      [⟨12615, (8, 0), 235, 0⟩, ⟨296, (80, 0), 3, 1⟩] := rfl
  exact hrows ▸ runPipelineSerialFixed_refines (by decide) (by simp [hornerCells, multCells]) _

/-- The fields of `Metrics` that `collect_serial` fills. -/
structure SerialMetrics where
  latency : Nat
  energy : Nat
  area : Nat

def collectSerial {ι : Type} (s : SerialSimulator cols ι) : SerialMetrics :=
  ⟨s.latency, s.latency, s.maxUsed + 1⟩

/-- **The cost of the pipeline** on a new simulator does not depend on the inputs: no input makes
the denominator zero, so the division is always made. -/
theorem collectSerial_pipeline (hN : 8 ≤ N) (hn : 0 < n) (hc : 8 * N + hornerCells N ≤ cols)
    (x : Fin n → BitVec N) :
    Ends (runPipelineSerialFixed N x) (start 0 : SerialSimulator cols (Fin n)) fun _ s' =>
      (collectSerial s').latency = 4 * multCycles N + 26 * N ^ 2 + 184 * N + 12 ∧
      (collectSerial s').energy = (collectSerial s').latency ∧
      (collectSerial s').area ≤ 20 * N + max (multCells N) (2 * N + 5) := by
  refine Ends.mono (ends_runPipelineSerialFixed (by omega) hc x) ?_
  rintro _ s' ⟨hch, -⟩
  refine ⟨?_, rfl, ?_⟩
  · have hden : ¬∀ r, (F6.serialRow (serialArithmetic N) (x r)).denominator.1 = 0 := fun h => by
      have h0 := F6.serial_denominator hN (serialArithmetic N) (x ⟨0, hn⟩)
      exact F6.ne_zero_of_toNat h0 (F6.divisor_pos hN _) (h ⟨0, hn⟩)
    have hlat := hch.latency
    rw [pipelineCycles, if_neg hden] at hlat
    rw [collectSerial, hlat, start]
    ring
  · have hpos := multCells_pos N
    have hbound : s'.maxUsed < 8 * N + hornerCells N := by
      rcases hch.maxUsed with e | ⟨c, hcol, e⟩
      · rw [e]
        exact Nat.lt_of_lt_of_le (show 0 < 8 * N by omega) (Nat.le_add_right _ _)
      · rw [e]
        rcases hcol with hcol | hcol <;> omega
    rw [collectSerial]
    unfold hornerCells at hbound
    simp only
    omega

theorem collectSerial_pipeline_eight :
    Ends (runPipelineSerialFixed 8 fun _ => 200) (start 0 : SerialSimulator 181 (Fin 1)) fun _ s' =>
      (collectSerial s').latency = 4 * multCycles 8 + 26 * 8 ^ 2 + 184 * 8 + 12 ∧
      (collectSerial s').energy = (collectSerial s').latency ∧
      (collectSerial s').area ≤ 20 * 8 + max (multCells 8) (2 * 8 + 5) :=
  collectSerial_pipeline (by decide) (by decide) (by simp [hornerCells, multCells]) _

theorem one_le_quotient_iff (x : Nat) : 1 ≤ F6.p6 x / F6.q6 x ↔ 5 ≤ x := by
  rw [Nat.le_div_iff_mul_le (F6.q6_pos x), Nat.one_mul]
  unfold F6.p6 F6.q6
  refine ⟨fun h => ?_, fun h => ?_⟩
  · by_contra hlt
    obtain rfl | rfl | rfl | rfl | rfl : x = 0 ∨ x = 1 ∨ x = 2 ∨ x = 3 ∨ x = 4 := by omega
    all_goals omega
  · obtain ⟨y, rfl⟩ := Nat.exists_eq_add_of_le h
    have e : (5 + y) ^ 3 + 12 * (5 + y) ^ 2 + 60 * (5 + y) + 120 =
        24 * (5 + y) ^ 2 + 240 + (5 + 15 * y + 3 * y ^ 2 + y ^ 3) := by ring
    omega

/-- **The pipeline is a step at 5** on inputs whose polynomials fit in `N` bits. -/
theorem runPipelineSerialFixed_step (hN : 8 ≤ N) (hc : 8 * N + hornerCells N ≤ cols)
    (x : Fin n → BitVec N) :
    Ends (runPipelineSerialFixed N x) s fun _ s' => ∀ r,
      F6.p6 (x r).toNat < 2 ^ N → F6.q6 (x r).toNat < 2 ^ N →
      (reg N (columns (7 * N)) s'.memory r).toNat = if 5 ≤ (x r).toNat then 1 else 0 := by
  refine Ends.mono (ends_runPipelineSerialFixed (by omega) hc x) ?_
  rintro _ s' ⟨-, hrow⟩ r hp hq
  have hout := (F6.serialRow_output hN (serialArithmetic N) hp hq).clamped
  rw [← hrow r] at hout
  refine hout.trans ?_
  have h5 := one_le_quotient_iff (x r).toNat
  split <;> omega

theorem runPipelineSerialFixed_step_five :
    Ends (runPipelineSerialFixed 16 fun _ => 5) (start 0 : SerialSimulator 357 (Fin 1)) fun _ s' =>
      (reg 16 (columns 112) s'.memory 0).toNat = 1 :=
  Ends.mono (runPipelineSerialFixed_step (by decide) (by simp [hornerCells, multCells]) _)
    fun _ _ h => h 0 (by decide) (by decide)

end

end CimSigmoid.Pim
