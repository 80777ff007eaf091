import CimSigmoid.F6.Pipeline

/-!
# Exact runs of the pipelines

Where `p(x) = x³ + 12x² + 60x + 120` and `q(x) = 24x² + 240` fit in N bits, so does
everything on the way to them: no register is truncated, no lower half drops a bit,
the quotient is `p(x) / q(x)` and too small for the clamp to take for a negative
number. The registers of the evaluations are laid open here for that; the evaluations
are their last ones.
-/

namespace CimSigmoid.F6

def p6 (x : Nat) : Nat := x ^ 3 + 12 * x ^ 2 + 60 * x + 120

def q6 (x : Nat) : Nat := 24 * x ^ 2 + 240

/-! ## Registers -/

structure SerialRegisters (N : Nat) where
  t1 : BitVec N
  t2 : BitVec (2 * N)
  t3 : BitVec (2 * N)
  t4 : BitVec (2 * N)
  numerator : BitVec (2 * N)
  xSquared : BitVec (2 * N)
  scaled : BitVec (2 * N)
  denominator : BitVec N

/-- The working registers of the parallel evaluations; a product has a lower and an upper half. -/
structure ParallelRegisters (N : Nat) where
  t1 : BitVec N
  t2 : BitVec N × BitVec N
  t3 : BitVec N
  t4 : BitVec N × BitVec N
  numerator : BitVec N × BitVec N
  xSquared : BitVec N × BitVec N
  scaled : BitVec N × BitVec N
  denominator : BitVec N

section

variable {N : Nat}

def serialRegisters (A : SerialArithmetic N) (x : BitVec N) : SerialRegisters N :=
  let t1 := A.fixedAddition x (const 12)
  let t2 := A.fixedMultiplication t1 x
  let t3 := A.fixedAddition t2 ((const 60 : BitVec N).setWidth (2 * N))
  let t4 := A.fixedMultiplication (lower t3) x
  let xSquared := A.fixedMultiplication x x
  let scaled := A.fixedMultiplication (const 24) (lower xSquared)
  { t1, t2, t3, t4
    numerator := A.fixedAddition t4 ((const 120 : BitVec N).setWidth (2 * N))
    xSquared, scaled
    denominator := A.fixedAddition (lower scaled) (const 240) }

def parallelRegisters (A : ParallelArithmetic N) (x : BitVec N) : ParallelRegisters N :=
  let t1 := A.fixedAddition x (const 12)
  let t2 := A.fixedMultiplication t1 x
  let t3 := A.fixedAddition t2.1 (const 60)
  let t4 := A.fixedMultiplication t3 x
  let xSquared := A.fixedMultiplication x (~~~(~~~x))
  let scaled := A.fixedMultiplication (const 24) xSquared.1
  { t1, t2, t3, t4
    numerator := (A.fixedAddition t4.1 (const 120), ~~~(~~~t4.2))
    xSquared, scaled
    denominator := A.fixedAddition scaled.1 (const 240) }

theorem serialRegisters_eq (A : SerialArithmetic N) (x : BitVec N) :
    HornerEvaluator.evaluateFixedSerial A x = (serialRegisters A x).numerator ∧
    (DenominatorEvaluator.evaluateFixedSerial A x).1 = (serialRegisters A x).denominator :=
  ⟨rfl, rfl⟩

theorem parallelRegisters_eq (A : ParallelArithmetic N) (x : BitVec N) :
    HornerEvaluator.evaluateFixedParallel A x = (parallelRegisters A x).numerator ∧
    (DenominatorEvaluator.evaluateFixedParallel A x).1 = (parallelRegisters A x).denominator :=
  ⟨rfl, rfl⟩

/-- Every register, and every lower half that is used, holds its exact value. -/
structure SerialRegisters.Exact (r : SerialRegisters N) (x : Nat) : Prop where
  t1 : r.t1.toNat = x + 12
  t2 : r.t2.toNat = (x + 12) * x
  t3 : r.t3.toNat = (x + 12) * x + 60
  t3_lower : (lower r.t3).toNat = (x + 12) * x + 60
  t4 : r.t4.toNat = ((x + 12) * x + 60) * x
  numerator : r.numerator.toNat = p6 x
  xSquared : r.xSquared.toNat = x ^ 2
  xSquared_lower : (lower r.xSquared).toNat = x ^ 2
  scaled : r.scaled.toNat = 24 * x ^ 2
  scaled_lower : (lower r.scaled).toNat = 24 * x ^ 2
  denominator : r.denominator.toNat = q6 x

/-- A product that its lower half holds alone. -/
def Halves (h : BitVec N × BitVec N) (value : Nat) : Prop := h.1.toNat = value ∧ h.2.toNat = 0

structure ParallelRegisters.Exact (r : ParallelRegisters N) (x : Nat) : Prop where
  t1 : r.t1.toNat = x + 12
  t2 : Halves r.t2 ((x + 12) * x)
  t3 : r.t3.toNat = (x + 12) * x + 60
  t4 : Halves r.t4 (((x + 12) * x + 60) * x)
  numerator : Halves r.numerator (p6 x)
  xSquared : Halves r.xSquared (x ^ 2)
  scaled : Halves r.scaled (24 * x ^ 2)
  denominator : r.denominator.toNat = q6 x

/-! ## Nothing is truncated -/

/-- The intermediates of the numerator are bounded by it. -/
theorem intermediates_le (x : Nat) :
    x + 12 ≤ p6 x ∧ (x + 12) * x ≤ p6 x ∧ (x + 12) * x + 60 ≤ p6 x ∧
    ((x + 12) * x + 60) * x + 120 = p6 x := by
  unfold p6
  refine ⟨?_, ?_, ?_, by ring⟩ <;> nlinarith [Nat.zero_le (x ^ 3), Nat.zero_le (x ^ 2)]

theorem lower_exact {a : BitVec (2 * N)} {v : Nat} (ha : a.toNat = v) (h : v < 2 ^ N) :
    (lower a).toNat = v := by
  rw [lower_toNat, ha, Nat.mod_eq_of_lt h]

theorem add_const_toNat (hN : 8 ≤ N) {a : BitVec N} {v c : Nat} (ha : a.toNat = v) (hc : c < 256)
    (h : v + c < 2 ^ N) : (a + const c).toNat = v + c := by
  rw [BitVec.toNat_add, ha, const_toNat hN hc, Nat.mod_eq_of_lt h]

namespace SerialArithmetic

variable (A : SerialArithmetic N)

theorem add_const (hN : 8 ≤ N) {a : BitVec N} {v c : Nat} (ha : a.toNat = v) (hc : c < 256)
    (h : v + c < 2 ^ N) : (A.fixedAddition a (const c)).toNat = v + c := by
  rw [A.addition, add_const_toNat hN ha hc h]

theorem add_const_wide (hN : 8 ≤ N) {a : BitVec (2 * N)} {v c : Nat} (ha : a.toNat = v)
    (hc : c < 256) (h : v + c < 2 ^ N) :
    (A.fixedAddition a ((const c : BitVec N).setWidth (2 * N))).toNat = v + c := by
  have hwide : 2 ^ N ≤ 2 ^ (2 * N) := Nat.pow_le_pow_right (by norm_num) (by omega)
  rw [A.addition, BitVec.toNat_add, ha, const_setWidth_toNat hN hc, Nat.mod_eq_of_lt (by omega)]

theorem mul_exact {a b : BitVec N} {u v : Nat} (ha : a.toNat = u) (hb : b.toNat = v) :
    (A.fixedMultiplication a b).toNat = u * v := by
  rw [A.product, ha, hb]

end SerialArithmetic

theorem serialRegisters_exact (hN : 8 ≤ N) (A : SerialArithmetic N) {x : BitVec N}
    (hp : p6 x.toNat < 2 ^ N) (hq : q6 x.toNat < 2 ^ N) :
    (serialRegisters A x).Exact x.toNat := by
  obtain ⟨h12, hmul, h60, h120⟩ := intermediates_le x.toNat
  unfold q6 at hq
  have ht1 : (serialRegisters A x).t1.toNat = x.toNat + 12 :=
    A.add_const hN rfl (by norm_num) (by omega)
  have ht2 : (serialRegisters A x).t2.toNat = (x.toNat + 12) * x.toNat := A.mul_exact ht1 rfl
  have ht3 : (serialRegisters A x).t3.toNat = (x.toNat + 12) * x.toNat + 60 :=
    A.add_const_wide hN ht2 (by norm_num) (by omega)
  have ht3' := lower_exact ht3 (by omega)
  have ht4 : (serialRegisters A x).t4.toNat = ((x.toNat + 12) * x.toNat + 60) * x.toNat :=
    A.mul_exact ht3' rfl
  have hnum : (serialRegisters A x).numerator.toNat =
      ((x.toNat + 12) * x.toNat + 60) * x.toNat + 120 :=
    A.add_const_wide hN ht4 (by norm_num) (by omega)
  have hsq : (serialRegisters A x).xSquared.toNat = x.toNat * x.toNat := A.mul_exact rfl rfl
  rw [← Nat.pow_two] at hsq
  have hsq' := lower_exact hsq (by omega)
  have hscaled : (serialRegisters A x).scaled.toNat = 24 * x.toNat ^ 2 :=
    A.mul_exact (const_toNat hN (by norm_num)) hsq'
  have hscaled' := lower_exact hscaled (by omega)
  have hden : (serialRegisters A x).denominator.toNat = 24 * x.toNat ^ 2 + 240 :=
    A.add_const hN hscaled' (by norm_num) (by omega)
  exact ⟨ht1, ht2, ht3, ht3', ht4, hnum.trans h120, hsq, hsq', hscaled, hscaled', hden⟩

namespace ParallelArithmetic

variable (A : ParallelArithmetic N)

theorem add_const (hN : 8 ≤ N) {a : BitVec N} {v c : Nat} (ha : a.toNat = v) (hc : c < 256)
    (h : v + c < 2 ^ N) : (A.fixedAddition a (const c)).toNat = v + c := by
  rw [A.addition, add_const_toNat hN ha hc h]

theorem mul_exact {a b : BitVec N} {u v : Nat} (ha : a.toNat = u) (hb : b.toNat = v)
    (h : u * v < 2 ^ N) : Halves (A.fixedMultiplication a b) (u * v) := by
  constructor
  · rw [A.product_lower, ha, hb, Nat.mod_eq_of_lt h]
  · rw [A.product_upper, ha, hb, Nat.div_eq_of_lt h]

end ParallelArithmetic

theorem parallelRegisters_exact (hN : 8 ≤ N) (A : ParallelArithmetic N) {x : BitVec N}
    (hp : p6 x.toNat < 2 ^ N) (hq : q6 x.toNat < 2 ^ N) :
    (parallelRegisters A x).Exact x.toNat := by
  obtain ⟨h12, hmul, h60, h120⟩ := intermediates_le x.toNat
  unfold q6 at hq
  have hcopy (y : BitVec N) : (~~~(~~~y)).toNat = y.toNat := by rw [BitVec.not_not]
  have ht1 : (parallelRegisters A x).t1.toNat = x.toNat + 12 :=
    A.add_const hN rfl (by norm_num) (by omega)
  have ht2 : Halves (parallelRegisters A x).t2 ((x.toNat + 12) * x.toNat) :=
    A.mul_exact ht1 rfl (by omega)
  have ht3 : (parallelRegisters A x).t3.toNat = (x.toNat + 12) * x.toNat + 60 :=
    A.add_const hN ht2.1 (by norm_num) (by omega)
  have ht4 : Halves (parallelRegisters A x).t4 (((x.toNat + 12) * x.toNat + 60) * x.toNat) :=
    A.mul_exact ht3 rfl (by omega)
  have hnum : (parallelRegisters A x).numerator.1.toNat =
      ((x.toNat + 12) * x.toNat + 60) * x.toNat + 120 :=
    A.add_const hN ht4.1 (by norm_num) (by omega)
  have hnum' : (parallelRegisters A x).numerator.2.toNat = 0 := (hcopy _).trans ht4.2
  have hsq : Halves (parallelRegisters A x).xSquared (x.toNat * x.toNat) :=
    A.mul_exact rfl (hcopy x) (by rw [← Nat.pow_two]; omega)
  rw [← Nat.pow_two] at hsq
  have hscaled : Halves (parallelRegisters A x).scaled (24 * x.toNat ^ 2) :=
    A.mul_exact (const_toNat hN (by norm_num)) hsq.1 (by omega)
  have hden : (parallelRegisters A x).denominator.toNat = 24 * x.toNat ^ 2 + 240 :=
    A.add_const hN hscaled.1 (by norm_num) (by omega)
  exact ⟨ht1, ht2, ht3, ht4, ⟨hnum.trans h120, hnum'⟩, hsq, hscaled, hden⟩

/-! ## Quotient and clamp -/

theorem q6_pos (x : Nat) : 0 < q6 x := Nat.succ_pos _

/-- The quotient is far below the sign bit: the divisor is at least 240. -/
theorem quotient_lt {x : Nat} (hN : 8 ≤ N) (hp : p6 x < 2 ^ N) : p6 x / q6 x < 2 ^ (N - 1) := by
  obtain ⟨M, rfl⟩ : ∃ M, N = M + 1 := ⟨N - 1, by omega⟩
  rw [Nat.div_lt_iff_lt_mul (q6_pos x), Nat.add_sub_cancel]
  rw [Nat.pow_succ] at hp
  unfold q6
  nlinarith [Nat.zero_le (x ^ 2), Nat.two_pow_pos M]

/-- What a row holds behind the divider: the exact quotient `q`, with a clear sign bit, and the
clamped value `c`. -/
structure Output (q c : BitVec N) (x : Nat) : Prop where
  quotient : q.toNat = p6 x / q6 x
  sign : q.msb = false
  clamped : c.toNat = min (p6 x / q6 x) 1

theorem clamp_eq_min {q : Nat} (hq : q < 2 ^ (N - 1)) : clamp N q = min q 1 := by
  unfold clamp
  split <;> omega

theorem output_of_quotient {x : Nat} {v : BitVec N} (hN : 8 ≤ N) (hp : p6 x < 2 ^ N)
    (hv : v.toNat = p6 x / q6 x) :
    Output v (ClampingUnit.select v.msb (decide ((const 1 : BitVec N).toNat ≤ v.toNat)) v) x := by
  have hlt := quotient_lt hN hp
  refine ⟨hv, ?_, ?_⟩
  · rw [BitVec.msb_eq_decide, hv]
    simpa using hlt
  · rw [select_toNat hN, hv, clamp_eq_min hlt]

theorem serialRow_output (hN : 8 ≤ N) (A : SerialArithmetic N) {x : BitVec N}
    (hp : p6 x.toNat < 2 ^ N) (hq : q6 x.toNat < 2 ^ N) :
    Output (serialRow A x).quotient (serialRow A x).clamped x.toNat := by
  obtain ⟨hnum, hden⟩ := serialRegisters_eq A x
  have hexact := serialRegisters_exact hN A hp hq
  have h0 := ne_zero_of_toNat hexact.denominator (q6_pos _)
  have hfits : (serialRegisters A x).numerator.toNat / (serialRegisters A x).denominator.toNat <
      2 ^ N := by
    rw [hexact.numerator, hexact.denominator]
    exact (Nat.div_le_self _ _).trans_lt hp
  have hquot := A.quotient _ _ h0 hfits
  rw [hexact.numerator, hexact.denominator] at hquot
  simp only [serialRow, ClampingUnit.clampFixedSerial, A.carry, hnum, hden, if_neg h0]
  exact output_of_quotient hN hp hquot

theorem parallelRow_output (hN : 8 ≤ N) (A : ParallelArithmetic N) {x : BitVec N}
    (hp : p6 x.toNat < 2 ^ N) (hq : q6 x.toNat < 2 ^ N) :
    Output (parallelRow A x).quotient (parallelRow A x).clamped x.toNat := by
  obtain ⟨hnum, hden⟩ := parallelRegisters_eq A x
  have hexact := parallelRegisters_exact hN A hp hq
  have h0 := ne_zero_of_toNat hexact.denominator (q6_pos _)
  have hwide : wide (parallelRegisters A x).numerator = p6 x.toNat := by
    rw [wide, hexact.numerator.1, hexact.numerator.2, Nat.zero_mul, Nat.zero_add]
  have hfits : wide (parallelRegisters A x).numerator / (parallelRegisters A x).denominator.toNat <
      2 ^ N := by
    rw [hwide]
    exact (Nat.div_le_self _ _).trans_lt hp
  have hquot := A.quotient (parallelRegisters A x).numerator.2
    (parallelRegisters A x).numerator.1 _ h0 hfits
  rw [Prod.mk.eta, hwide, hexact.denominator] at hquot
  simp only [parallelRow, ClampingUnit.clampFixedParallel, A.carry, hnum, hden, if_neg h0]
  exact output_of_quotient hN hp hquot

/-- **Exact runs.** In every row whose input keeps `p(x)` and `q(x)` below `2 ^ N`, both pipelines
output `min (p(x) / q(x)) 1`, through exact registers and a quotient with a clear sign bit. -/
theorem pipelines_exact (hN : 8 ≤ N) (S : SerialArithmetic N) (P : ParallelArithmetic N)
    {xs : List (BitVec N)} {i : Nat} {x : BitVec N} (hx : xs[i]? = some x)
    (hp : p6 x.toNat < 2 ^ N) (hq : q6 x.toNat < 2 ^ N) :
    (∃ r, (runPipelineSerialFixed S xs)[i]? = some r ∧
      r.numerator = (serialRegisters S x).numerator ∧
      r.denominator.1 = (serialRegisters S x).denominator ∧
      (serialRegisters S x).Exact x.toNat ∧ Output r.quotient r.clamped x.toNat) ∧
    (∃ r, (runPipelineParallelFixed P xs)[i]? = some r ∧
      r.numerator = (parallelRegisters P x).numerator ∧
      r.denominator.1 = (parallelRegisters P x).denominator ∧
      (parallelRegisters P x).Exact x.toNat ∧ Output r.quotient r.clamped x.toNat) := by
  have hserial : (runPipelineSerialFixed S xs)[i]? = some (serialRow S x) := by
    rw [runPipelineSerialFixed_eq, List.getElem?_map, hx]
    rfl
  have hparallel : (runPipelineParallelFixed P xs)[i]? = some (parallelRow P x) := by
    rw [runPipelineParallelFixed_eq, List.getElem?_map, hx]
    rfl
  obtain ⟨hsnum, hsden⟩ := serialRegisters_eq S x
  obtain ⟨hpnum, hpden⟩ := parallelRegisters_eq P x
  exact ⟨⟨_, hserial, hsnum, hsden, serialRegisters_exact hN S hp hq, serialRow_output hN S hp hq⟩,
    ⟨_, hparallel, hpnum, hpden, parallelRegisters_exact hN P hp hq,
      parallelRow_output hN P hp hq⟩⟩

end

theorem pipelines_exact_sixteen :
    ∃ r, (runPipelineSerialFixed (.exact 16) [300, 20])[1]? = some r ∧ r.clamped.toNat = 1 := by
  have hx : ([300, 20] : List (BitVec 16))[1]? = some 20 := rfl
  have h := pipelines_exact (by decide) (.exact 16) (.exact 16) hx (by decide) (by decide)
  obtain ⟨⟨r, hr, -, -, -, hout⟩, -⟩ := h
  exact ⟨r, hr, hout.clamped.trans (by decide)⟩

end CimSigmoid.F6
