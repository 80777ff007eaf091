import CimSigmoid.Sigmoid.Exact

/-!
# The output range of the cores

Both cores are documented with outputs from 0 to 1, in Q4.12 from 0 to 4096.
`sigmoid_range_iff` and `sigmoide_range_iff` say on which inputs they keep to it:
the linear pieces of the Azevedo core run past 0 and past 4096 shortly before the
breakpoints `XINF` and `XSUP`, and the Vaisnav core leaves the range at the one
input that has no absolute value.
-/

namespace CimSigmoid.Sigmoid

def InRange (y : BitVec 16) : Prop := 0 ≤ y.toInt ∧ y.toInt ≤ 4096

instance (y : BitVec 16) : Decidable (InRange y) := inferInstanceAs (Decidable (_ ∧ _))

/-! ## Azevedo -/

/-- The parabola below zero has no root, so its piece stays above 0. -/
theorem quadratic_low_range {x : Int} (hx : -13312 < x) (hx' : x ≤ 0) :
    0 ≤ quadraticInt 165 1116 2057 x ∧ quadraticInt 165 1116 2057 x ≤ 4096 := by
  obtain ⟨ht, -⟩ := factor_low hx hx'
  have hfloor : 4096 * linearInt 165 1116 x ≤ 165 * x + 1116 * 4096 :=
    Int.mul_ediv_self_le (by decide)
  have hup : x * linearInt 165 1116 x ≤ 0 := mul_nonpos_of_nonpos_of_nonneg hx' (by omega)
  have hlo : 0 ≤ x * linearInt 165 1116 x + 2057 * 4096 := by
    have hmul := mul_le_mul_of_nonpos_left hfloor hx'
    nlinarith [sq_nonneg (330 * x + 1116 * 4096)]
  unfold quadraticInt
  omega

/-- The parabola above zero does not reach 4096. -/
theorem quadratic_high_range {x : Int} (hx : 0 < x) (hx' : x ≤ 13312) :
    0 ≤ quadraticInt (-165) 1116 2039 x ∧ quadraticInt (-165) 1116 2039 x ≤ 4096 := by
  obtain ⟨ht, -⟩ := factor_high hx hx'
  have hfloor : 4096 * linearInt (-165) 1116 x ≤ -165 * x + 1116 * 4096 :=
    Int.mul_ediv_self_le (by decide)
  have hlo : 0 ≤ x * linearInt (-165) 1116 x := mul_nonneg hx.le (by omega)
  have hup : x * linearInt (-165) 1116 x + 2039 * 4096 ≤ 4096 * 4096 := by
    have hmul := mul_le_mul_of_nonneg_left hfloor hx.le
    nlinarith [sq_nonneg (330 * x - 1116 * 4096)]
  unfold quadraticInt
  omega

/-- **Range of the Azevedo core.** The output leaves the range exactly on the last 107 inputs
before `XINF` and on the last 37 before `XSUP`. -/
theorem sigmoid_range_iff (x : BitVec 16) : InRange (sigmoid x) ↔
    ¬ (-22282 < x.toInt ∧ x.toInt ≤ -22175) ∧ ¬ (22246 ≤ x.toInt ∧ x.toInt ≤ 22282) := by
  rw [InRange, sigmoid_toInt]
  unfold sigmoidInt
  split
  · omega
  split
  · unfold linearInt
    omega
  split
  · have := quadratic_low_range (x := x.toInt) (by omega) ‹_›
    omega
  split
  · have := quadratic_high_range (x := x.toInt) (by omega) ‹_›
    omega
  split
  · unfold linearInt
    omega
  · omega

theorem sigmoid_out_of_range :
    (sigmoid (BitVec.ofInt 16 (-22281))).toInt = -2 ∧
    ¬ InRange (sigmoid (BitVec.ofInt 16 (-22281))) ∧
    (sigmoid (22282#16)).toInt = 4097 ∧ ¬ InRange (sigmoid (22282#16)) := by
  decide

/-! ## Vaisnav -/

/-- **Range of the Vaisnav core.** -/
theorem sigmoide_range_iff (x : BitVec 16) : InRange (sigmoide x) ↔ x.toInt ≠ -32768 := by
  refine ⟨?_, fun h => ?_⟩
  · rintro h hmin
    obtain rfl : x = BitVec.intMin 16 := BitVec.eq_of_toInt_eq hmin
    exact absurd h (by decide)
  · rw [InRange, sigmoide_toInt h]
    unfold sigmoideInt
    split
    · have := yTmpInt_bounds ‹0 ≤ x.toInt›
      omega
    · have := yTmpInt_bounds (u := -x.toInt) (by omega)
      omega

/-- The clamp value -8.0 gives 2.5. -/
theorem sigmoide_most_negative : (sigmoide (BitVec.ofInt 16 (-32768))).toInt = 10240 ∧
    ¬ InRange (sigmoide (BitVec.ofInt 16 (-32768))) := by
  decide

end CimSigmoid.Sigmoid
