import Mathlib.Data.List.Forall2
import CimSigmoid.F6.Pipeline

/-!
# Serial against parallel

The serial pipeline adds 120 to the whole 2N-bit product. The parallel one adds it
to the lower half and copies the upper half, so a carry out of bit N is lost. Nothing
else differs: the divisors are equal, and the clamps read the same bits.
-/

namespace CimSigmoid.F6

section

variable {N : Nat}

/-- Two rows agree: the same 2N-bit numerator, and the same output if both quotients fit. -/
def RowsAgree (s : SerialRow N) (p : ParallelRow N) : Prop :=
  s.numerator.toNat = wide p.numerator ∧
    (s.Fits → p.Fits → s.clamped = p.clamped)

theorem inner_mul (N x : Nat) : inner N x * x % 2 ^ N = (x ^ 3 + 12 * x ^ 2 + 60 * x) % 2 ^ N := by
  have h : inner N x * x ≡ (x ^ 2 + 12 * x + 60) * x [MOD 2 ^ N] := (Nat.mod_modEq _ _).mul_right x
  have e : (x ^ 2 + 12 * x + 60) * x = x ^ 3 + 12 * x ^ 2 + 60 * x := by ring
  exact h.trans (by rw [e])

/-- The halves hold the numerator exactly when adding 120 carries nothing out of the lower half. -/
theorem numerators_eq_iff (hN : 8 ≤ N) (S : SerialArithmetic N) (P : ParallelArithmetic N)
    (x : BitVec N) :
    (serialRow S x).numerator.toNat = wide (parallelRow P x).numerator ↔
      inner N x.toNat * x.toNat % 2 ^ N + 120 < 2 ^ N := by
  obtain ⟨hz, hw⟩ := parallel_numerator hN P x
  have hp : 2 ^ 8 ≤ 2 ^ N := Nat.pow_le_pow_right (by norm_num) hN
  have hm := Nat.mod_lt (inner N x.toNat * x.toNat) (show 2 ^ N > 0 by omega)
  have hdm := Nat.div_add_mod' (inner N x.toNat * x.toNat) (2 ^ N)
  simp only [serialRow, parallelRow, wide, serial_numerator hN, hz, hw]
  constructor
  · intro h
    by_contra hc
    rw [Nat.mod_eq_sub_mod (by omega), Nat.mod_eq_of_lt (by omega)] at h
    omega
  · intro hc
    rw [Nat.mod_eq_of_lt hc]
    omega

theorem rowsAgree_iff (hN : 8 ≤ N) (S : SerialArithmetic N) (P : ParallelArithmetic N)
    (x : BitVec N) :
    RowsAgree (serialRow S x) (parallelRow P x) ↔
      inner N x.toNat * x.toNat % 2 ^ N + 120 < 2 ^ N := by
  rw [← numerators_eq_iff hN S P]
  refine ⟨And.left, fun hn => ⟨hn, fun hs hp => BitVec.eq_of_toNat_eq ?_⟩⟩
  rw [serialRow_clamped hN S x hs, parallelRow_clamped hN P x hp, hn]

/-- **On every list of inputs the two pipelines agree row by row exactly when no row's numerator
carries out of the lower half on the last addition.** -/
theorem pipelines_agree_iff (hN : 8 ≤ N) (S : SerialArithmetic N) (P : ParallelArithmetic N)
    (xs : List (BitVec N)) :
    List.Forall₂ RowsAgree (runPipelineSerialFixed S xs) (runPipelineParallelFixed P xs) ↔
      ∀ x ∈ xs, (x.toNat ^ 3 + 12 * x.toNat ^ 2 + 60 * x.toNat) % 2 ^ N + 120 < 2 ^ N := by
  rw [runPipelineSerialFixed_eq, runPipelineParallelFixed_eq, List.forall₂_map_left_iff,
    List.forall₂_map_right_iff, List.forall₂_same]
  simp only [rowsAgree_iff hN, inner_mul]

end

theorem pipelines_agree_iff_one :
    List.Forall₂ RowsAgree (runPipelineSerialFixed (.exact 8) [1])
      (runPipelineParallelFixed (.exact 8) [1]) :=
  (pipelines_agree_iff (by decide) _ _ _).2 (by decide)

/-- At width 8 and `x = 2` the numerator is 296; the halves hold 40, and the outputs differ. -/
theorem pipelines_differ :
    ((runPipelineSerialFixed (.exact 8) [2]).map fun r =>
        (r.numerator.toNat, r.denominator.1.toNat, r.clamped.toNat)) = [(296, 80, 1)] ∧
      ((runPipelineParallelFixed (.exact 8) [2]).map fun r =>
        (wide r.numerator, r.denominator.1.toNat, r.clamped.toNat)) = [(40, 80, 0)] ∧
      ¬ List.Forall₂ RowsAgree (runPipelineSerialFixed (.exact 8) [2])
        (runPipelineParallelFixed (.exact 8) [2]) := by
  refine ⟨by decide, by decide, fun h => ?_⟩
  rcases h with _ | ⟨⟨hn, -⟩, -⟩
  exact absurd hn (by decide)

end CimSigmoid.F6
