import CimSigmoid.Sigmoid.Rounding

/-!
# Order of the outputs

How far the cores keep the order of their inputs. The Azevedo core does so across
every breakpoint but `XMED` and inside the linear pieces; inside a quadratic piece
the inner fraction lets the output fall back by up to 4 units, and the two parabolas
meet at `XMED` with offsets 2057 and 2039; both are made up for as soon as the exact
polynomial has risen by 6.5 units. (Where the linear pieces run past 0 and 1,
pairs that cross `XINF` or `XSUP` are left out.) The Vaisnav core keeps the order
except at 2.375, where its line of slope `1 / 32` starts below the line of slope
`1 / 8`, and at the mirror image of that point.
-/

namespace CimSigmoid.Sigmoid

/-! ## Azevedo -/

/-- A parabola rises between two inputs whose mean is on the rising side of its vertex. -/
theorem quadraticRat_le (k2 k1 k0 : Int) {x1 x2 : Int} (hle : x1 ≤ x2)
    (h : 0 ≤ k2 * (x1 + x2) + k1 * 4096) : quadraticRat k2 k1 k0 x1 ≤ quadraticRat k2 k1 k0 x2 := by
  have hle' : (0 : ℚ) ≤ x2 - x1 := by exact_mod_cast Int.sub_nonneg_of_le hle
  have h' : (0 : ℚ) ≤ k2 * (x1 + x2) + k1 * 4096 := by exact_mod_cast h
  have hdiff : quadraticRat k2 k1 k0 x2 - quadraticRat k2 k1 k0 x1 =
      (x2 - x1) * (k2 * (x1 + x2) + k1 * 4096) / 4096 ^ 2 := by
    unfold quadraticRat
    ring
  have := div_nonneg (mul_nonneg hle' h') (by norm_num : (0 : ℚ) ≤ 4096 ^ 2)
  linarith

theorem le_add_of_errors {y1 y2 k : Int} {P1 P2 u l : ℚ} (hup : y1 - P1 ≤ u) (hdown : l < y2 - P2)
    (hrise : P1 + (u - l) ≤ P2 + (k + 1)) : y1 ≤ y2 + k := by
  have hlt : (y1 : ℚ) < ((y2 + k + 1 : Int) : ℚ) := by
    push_cast
    linarith
  have := Int.cast_lt.mp hlt
  omega

theorem quadratic_low_drop {x1 x2 : Int} (h1 : -13312 < x1) (hle : x1 ≤ x2) (h2 : x2 ≤ 0) :
    quadraticInt 165 1116 2057 x1 ≤ quadraticInt 165 1116 2057 x2 + 4 := by
  obtain ⟨-, hup⟩ := quadratic_error_low 165 1116 2057 h1 (by omega)
  obtain ⟨hdown, -⟩ := quadratic_error_low 165 1116 2057 (by omega : -13312 < x2) h2
  have hP := quadraticRat_le 165 1116 2057 hle (by omega)
  refine le_add_of_errors hup.le hdown ?_
  push_cast
  linarith

theorem quadratic_high_drop {x1 x2 : Int} (h1 : 0 < x1) (hle : x1 ≤ x2) (h2 : x2 ≤ 13312) :
    quadraticInt (-165) 1116 2039 x1 ≤ quadraticInt (-165) 1116 2039 x2 + 4 := by
  obtain ⟨-, hup⟩ := quadratic_error_high (-165) 1116 2039 h1 (by omega)
  obtain ⟨hdown, -⟩ := quadratic_error_high (-165) 1116 2039 (by omega : 0 < x2) h2
  have hP := quadraticRat_le (-165) 1116 2039 hle (by omega)
  refine le_add_of_errors hup hdown ?_
  push_cast
  linarith

theorem quadratic_low_levels {x : Int} (hx : -13312 < x) (hx' : x ≤ 0) :
    172 ≤ quadraticInt 165 1116 2057 x ∧ quadraticInt 165 1116 2057 x ≤ 2057 := by
  constructor
  · obtain ⟨hdown, -⟩ := quadratic_error_low 165 1116 2057 hx hx'
    have hP := quadraticRat_le 165 1116 2057 hx.le (by omega)
    have hend : (172 : ℚ) < quadraticRat 165 1116 2057 (-13312) := by norm_num [quadraticRat]
    have hlt : ((171 : Int) : ℚ) < quadraticInt 165 1116 2057 x := by
      push_cast
      linarith
    exact Int.cast_lt.mp hlt
  · obtain ⟨ht, -⟩ := factor_low hx hx'
    have hprod : x * linearInt 165 1116 x ≤ 0 := mul_nonpos_of_nonpos_of_nonneg hx' (by omega)
    unfold quadraticInt
    omega

theorem quadratic_high_levels {x : Int} (hx : 0 < x) (hx' : x ≤ 13312) :
    2039 ≤ quadraticInt (-165) 1116 2039 x ∧ quadraticInt (-165) 1116 2039 x ≤ 3923 := by
  constructor
  · obtain ⟨ht, -⟩ := factor_high hx hx'
    have hprod : 0 ≤ x * linearInt (-165) 1116 x := mul_nonneg hx.le (by omega)
    unfold quadraticInt
    omega
  · obtain ⟨-, hup⟩ := quadratic_error_high (-165) 1116 2039 hx hx'
    have hP := quadraticRat_le (-165) 1116 2039 hx' (by omega)
    have hend : quadraticRat (-165) 1116 2039 13312 < 3924 := by norm_num [quadraticRat]
    have hlt : (quadraticInt (-165) 1116 2039 x : ℚ) < ((3924 : Int) : ℚ) := by
      push_cast
      linarith
    have := Int.cast_lt.mp hlt
    omega

/-- The pair steps from a constant region into an overshoot of the linear piece, or out of one. -/
def CrossesOvershoot (x1 x2 : Int) : Prop :=
  (x1 ≤ -22282 ∧ -22282 < x2 ∧ x2 ≤ -22175) ∨ (22246 ≤ x1 ∧ x1 ≤ 22282 ∧ 22282 < x2)

instance (x1 x2 : Int) : Decidable (CrossesOvershoot x1 x2) := inferInstanceAs (Decidable (_ ∨ _))

/-- How far the output may fall from `x1` to `x2`: not at all, unless both are in the quadratic
regions. -/
def dip (x1 x2 : Int) : Int :=
  if -13312 < x1 ∧ x2 ≤ 13312 then (if x1 ≤ 0 ∧ 0 < x2 then 18 else 4) else 0

theorem sigmoidInt_low {x : Int} (hx : -13312 < x) (hx' : x ≤ 0) :
    sigmoidInt x = quadraticInt 165 1116 2057 x := by
  rw [sigmoidInt, if_neg (by omega), if_neg (by omega), if_pos hx']

theorem sigmoidInt_high {x : Int} (hx : 0 < x) (hx' : x ≤ 13312) :
    sigmoidInt x = quadraticInt (-165) 1116 2039 x := by
  rw [sigmoidInt, if_neg (by omega), if_neg (by omega), if_neg (by omega), if_pos hx']

/-- The levels of the four parts of the core do not overlap, but for the two parabolas. -/
theorem sigmoidInt_levels (x : Int) :
    (x ≤ -13312 ∧ sigmoidInt x = if x ≤ -22282 then 0 else 58 * x / 4096 + 314) ∨
    ((-13312 < x ∧ x ≤ 0) ∧ 172 ≤ sigmoidInt x ∧ sigmoidInt x ≤ 2057) ∨
    ((0 < x ∧ x ≤ 13312) ∧ 2039 ≤ sigmoidInt x ∧ sigmoidInt x ≤ 3923) ∨
    (13312 < x ∧ sigmoidInt x = if x ≤ 22282 then 58 * x / 4096 + 3782 else 4096) := by
  rcases le_or_gt x (-13312) with hmin | hmin
  · refine .inl ⟨hmin, ?_⟩
    rw [sigmoidInt, if_pos hmin, linearInt]
    split_ifs <;> omega
  rcases le_or_gt x 0 with hmed | hmed
  · refine .inr (.inl ⟨⟨hmin, hmed⟩, ?_⟩)
    rw [sigmoidInt_low hmin hmed]
    exact quadratic_low_levels hmin hmed
  rcases le_or_gt x 13312 with hmax | hmax
  · refine .inr (.inr (.inl ⟨⟨hmed, hmax⟩, ?_⟩))
    rw [sigmoidInt_high hmed hmax]
    exact quadratic_high_levels hmed hmax
  · refine .inr (.inr (.inr ⟨hmax, ?_⟩))
    rw [sigmoidInt, if_neg (by omega), if_neg (by omega), if_neg (by omega), if_neg (by omega),
      linearInt]
    split_ifs <;> omega

theorem sigmoidInt_dip {x1 x2 : Int} (hle : x1 ≤ x2) (hc : ¬ CrossesOvershoot x1 x2) :
    sigmoidInt x1 ≤ sigmoidInt x2 + dip x1 x2 := by
  have hlow : -13312 < x1 → x2 ≤ 0 → sigmoidInt x1 ≤ sigmoidInt x2 + 4 := by
    intro h1 h2
    rw [sigmoidInt_low h1 (by omega), sigmoidInt_low (by omega) h2]
    exact quadratic_low_drop h1 hle h2
  have hhigh : 0 < x1 → x2 ≤ 13312 → sigmoidInt x1 ≤ sigmoidInt x2 + 4 := by
    intro h1 h2
    rw [sigmoidInt_high h1 (by omega), sigmoidInt_high (by omega) h2]
    exact quadratic_high_drop h1 hle h2
  unfold CrossesOvershoot at hc
  unfold dip
  rcases sigmoidInt_levels x1 with h1 | h1 | h1 | h1 <;>
    rcases sigmoidInt_levels x2 with h2 | h2 | h2 | h2 <;> omega

/-- Where the polynomial rises by 6.5 units, rounding cannot turn the order around. -/
theorem sigmoid_le_of_rise {x1 x2 : BitVec 16}
    (h : polynomial x1.toInt + 13 / 2 ≤ polynomial x2.toInt) :
    (sigmoid x1).toInt ≤ (sigmoid x2).toInt := by
  obtain ⟨-, hup⟩ := roundingError_bounds x1
  obtain ⟨hdown, -⟩ := roundingError_bounds x2
  unfold roundingError at hup hdown
  have hle := le_add_of_errors (k := 0) hup.le hdown (by push_cast; linarith)
  rwa [add_zero] at hle

/-- **Order of the Azevedo core's outputs.** -/
theorem sigmoid_monotone_upto {x1 x2 : BitVec 16} (hle : x1.toInt ≤ x2.toInt)
    (hc : ¬ CrossesOvershoot x1.toInt x2.toInt) :
    (sigmoid x1).toInt ≤ (sigmoid x2).toInt + dip x1.toInt x2.toInt ∧
    (polynomial x1.toInt + 13 / 2 ≤ polynomial x2.toInt →
      (sigmoid x1).toInt ≤ (sigmoid x2).toInt) := by
  refine ⟨?_, sigmoid_le_of_rise⟩
  rw [sigmoid_toInt, sigmoid_toInt]
  exact sigmoidInt_dip hle hc

theorem sigmoid_monotone_upto_xMin :
    ¬ CrossesOvershoot (-16384) (-12288) ∧ dip (-16384) (-12288) = 0 ∧
    (sigmoid (BitVec.ofInt 16 (-16384))).toInt ≤ (sigmoid (BitVec.ofInt 16 (-12288))).toInt + 0 :=
  ⟨by decide, by decide, (sigmoid_monotone_upto (by decide) (by decide)).1⟩

/-- The output falls from 0 to the next input by 18, and inside either parabola by 4. -/
theorem sigmoid_falls :
    (0#16).toInt ≤ (1#16).toInt ∧ ¬ (sigmoid (0#16)).toInt ≤ (sigmoid (1#16)).toInt ∧
    (sigmoid (1#16)).toInt + 18 = (sigmoid (0#16)).toInt ∧
    (sigmoid (BitVec.ofInt 16 (-13305))).toInt + 4 =
      (sigmoid (BitVec.ofInt 16 (-13306))).toInt ∧
    (sigmoid (13306#16)).toInt + 4 = (sigmoid (13305#16)).toInt := by
  decide

/-! ## Vaisnav -/

/-- `u` on the line of slope `1 / 8` above `v` on the line of slope `1 / 32`. -/
def StepsDown (u v : Int) : Prop :=
  4096 ≤ u ∧ u < 9728 ∧ 9728 ≤ v ∧ v < 20480 ∧ v / 32 + 3456 < u / 8 + 2560

instance (u v : Int) : Decidable (StepsDown u v) := inferInstanceAs (Decidable (_ ∧ _))

theorem yTmpInt_le_iff {u v : Int} (hu : 0 ≤ u) (hle : u ≤ v) :
    yTmpInt u ≤ yTmpInt v ↔ ¬ StepsDown u v := by
  unfold yTmpInt StepsDown
  split_ifs <;> omega

theorem yTmpInt_drop {u v : Int} (hu : 0 ≤ u) (hle : u ≤ v) : yTmpInt u ≤ yTmpInt v + 15 := by
  unfold yTmpInt
  split_ifs <;> omega

theorem sigmoideInt_le_iff {x1 x2 : Int} (hle : x1 ≤ x2) :
    (sigmoideInt x1 ≤ sigmoideInt x2 ↔ ¬ StepsDown x1 x2 ∧ ¬ StepsDown (-x2) (-x1)) ∧
    sigmoideInt x1 ≤ sigmoideInt x2 + 15 := by
  unfold sigmoideInt
  rcases le_or_gt 0 x1 with h1 | h1
  · rw [if_pos h1, if_pos (by omega), yTmpInt_le_iff h1 hle]
    have hdrop := yTmpInt_drop h1 hle
    have hmirror : ¬ StepsDown (-x2) (-x1) := by
      unfold StepsDown
      omega
    exact ⟨(and_iff_left hmirror).symm, hdrop⟩
  rw [if_neg (by omega)]
  have hstep : ¬ StepsDown x1 x2 := by
    unfold StepsDown
    omega
  obtain ⟨hb1, -⟩ := yTmpInt_bounds (u := -x1) (by omega)
  rcases le_or_gt 0 x2 with h2 | h2
  · rw [if_pos h2]
    obtain ⟨hb2, -⟩ := yTmpInt_bounds h2
    have hmirror : ¬ StepsDown (-x2) (-x1) := by
      unfold StepsDown
      omega
    exact ⟨iff_of_true (by omega) ⟨hstep, hmirror⟩, by omega⟩
  · rw [if_neg (by omega)]
    have hdrop := yTmpInt_drop (u := -x2) (v := -x1) (by omega) (by omega)
    have hiff := yTmpInt_le_iff (u := -x2) (v := -x1) (by omega) (by omega)
    refine ⟨?_, by omega⟩
    rw [and_iff_right hstep, ← hiff]
    omega

/-- **Order of the Vaisnav core's outputs.** -/
theorem sigmoide_monotone_except {x1 x2 : BitVec 16} (hmin : -32768 < x1.toInt)
    (hle : x1.toInt ≤ x2.toInt) :
    ((sigmoide x1).toInt ≤ (sigmoide x2).toInt ↔
      ¬ StepsDown x1.toInt x2.toInt ∧ ¬ StepsDown (-x2.toInt) (-x1.toInt)) ∧
    (sigmoide x1).toInt ≤ (sigmoide x2).toInt + 15 := by
  rw [sigmoide_toInt (by omega), sigmoide_toInt (by omega)]
  exact sigmoideInt_le_iff hle

theorem sigmoide_monotone_except_across :
    (sigmoide (BitVec.ofInt 16 (-4096))).toInt ≤ (sigmoide (10240#16)).toInt :=
  (sigmoide_monotone_except (by decide) (by decide)).1.mpr (by decide)

/-- The output falls by 15 at 2.375, and at -2.375. -/
theorem sigmoide_falls :
    -32768 < (9727#16).toInt ∧ (9727#16).toInt ≤ (9728#16).toInt ∧
    ¬ (sigmoide (9727#16)).toInt ≤ (sigmoide (9728#16)).toInt ∧
    (sigmoide (9728#16)).toInt + 15 = (sigmoide (9727#16)).toInt ∧
    (sigmoide (BitVec.ofInt 16 (-9727))).toInt + 15 =
      (sigmoide (BitVec.ofInt 16 (-9728))).toInt := by
  decide

end CimSigmoid.Sigmoid
