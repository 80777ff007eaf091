import CimSigmoid.Adder.AddApprox

/-!
# The truncated adder on signed operands

The header of `ADD_APPROX.v` promises signed two's complement operands. Clearing
low bits rounds each operand down, so the adder computes `truncSum`, which is at
most the exact sum, modulo `2 ^ m`. If `truncSum` drops below the most negative
number although the exact sum does not, the output wraps to a large positive
number; `signed_error_iff` says that this is the only way to miss the error
bound.
-/

namespace CimSigmoid.Adder

open Bits

/-- The signed sum of the operands without their low `n` bits. -/
def truncSum {m : Nat} (n : Nat) (a b : BitVec m) : Int :=
  a.toInt + b.toInt - (a.toInt % 2 ^ n + b.toInt % 2 ^ n)

section

variable {m n : Nat} (a b : BitVec m)

theorem toInt_emod (hn : n ≤ m) : a.toInt % 2 ^ n = (a.toNat : Int) % 2 ^ n := by
  have hdvd : ((2 : Int) ^ n) ∣ ((2 ^ m : Nat) : Int) := by
    rw [Nat.cast_pow]
    exact pow_dvd_pow 2 hn
  rw [← Int.emod_emod_of_dvd _ hdvd, BitVec.toInt_eq_toNat_bmod, Int.bmod_emod,
    Int.emod_emod_of_dvd _ hdvd]

theorem value_no_carry (hn : n ≤ m) :
    value (addApprox n a b false) + (a.toNat % 2 ^ n + b.toNat % 2 ^ n) = a.toNat + b.toNat := by
  rcases Nat.eq_zero_or_pos n with rfl | h
  · rw [value_zero]
    simp [Nat.mod_one]
  · exact value_add_low a b false h hn

/-- The adder computes `truncSum` modulo `2 ^ m`. -/
theorem dvd_truncSum_sub (hn : n ≤ m) :
    ((2 ^ m : Nat) : Int) ∣ truncSum n a b - (addApprox n a b false).2.toNat := by
  have hv := value_no_carry a b hn
  have ha := Int.bmod_eq_self_sub_mul_bdiv a.toNat (2 ^ m)
  have hb := Int.bmod_eq_self_sub_mul_bdiv b.toNat (2 ^ m)
  rw [← BitVec.toInt_eq_toNat_bmod] at ha hb
  rw [truncSum, toInt_emod a hn, toInt_emod b hn, ha, hb]
  refine ⟨(addApprox n a b false).1.toNat - (a.toNat : Int).bdiv (2 ^ m) -
    (b.toNat : Int).bdiv (2 ^ m), ?_⟩
  rw [value] at hv
  zify at hv
  push_cast
  linarith

theorem toInt_eq_of_dvd {k : Nat} {s : BitVec (k + 1)} {c : Int} (hlo : -2 ^ k ≤ c)
    (hhi : c < 2 ^ k) (h : ((2 ^ (k + 1) : Nat) : Int) ∣ c - s.toNat) : s.toInt = c := by
  rw [BitVec.toInt_eq_toNat_bmod, Int.bmod_eq_iff (Nat.two_pow_pos _)]
  refine ⟨?_, ?_, h⟩
  · push_cast
    omega
  · push_cast
    omega

theorem truncSum_bounds : truncSum n a b ≤ a.toInt + b.toInt ∧
    a.toInt + b.toInt - truncSum n a b ≤ 2 * 2 ^ n - 2 := by
  have hpos : (0 : Int) < 2 ^ n := by positivity
  have ha := Int.emod_nonneg a.toInt (ne_of_gt hpos)
  have ha' := Int.emod_lt_of_pos a.toInt hpos
  have hb := Int.emod_nonneg b.toInt (ne_of_gt hpos)
  have hb' := Int.emod_lt_of_pos b.toInt hpos
  rw [truncSum]
  omega

theorem dvd_truncSum : (2 : Int) ^ n ∣ truncSum n a b := by
  have ha := Int.mul_ediv_add_emod a.toInt (2 ^ n)
  have hb := Int.mul_ediv_add_emod b.toInt (2 ^ n)
  refine ⟨a.toInt / 2 ^ n + b.toInt / 2 ^ n, ?_⟩
  rw [truncSum, mul_add]
  omega

end

/-! ## The signed reading of the sum -/

section

variable {k n : Nat} {a b : BitVec (k + 1)} (hn : n ≤ k + 1)

include hn

theorem sum_toInt (hhi : a.toInt + b.toInt < 2 ^ k) (h : -2 ^ k ≤ truncSum n a b) :
    (addApprox n a b false).2.toInt = truncSum n a b :=
  toInt_eq_of_dvd h (by have := (truncSum_bounds (n := n) a b).1; omega) (dvd_truncSum_sub a b hn)

/-- The truncated sum wraps once. -/
theorem sum_toInt_wrap (hlo : -3 * 2 ^ k ≤ truncSum n a b) (h : truncSum n a b < -2 ^ k) :
    (addApprox n a b false).2.toInt = truncSum n a b + 2 * 2 ^ k := by
  have hdvd := dvd_truncSum_sub a b hn
  have hpow : ((2 ^ (k + 1) : Nat) : Int) = 2 * 2 ^ k := by
    push_cast
    ring
  refine toInt_eq_of_dvd (by omega) (by omega) ?_
  rw [hpow] at hdvd ⊢
  rw [add_sub_right_comm]
  exact Int.dvd_add hdvd (Int.dvd_refl _)

theorem sum_toInt_top (hkn : k ≤ n) (hlo : -2 ^ k ≤ a.toInt + b.toInt)
    (h : truncSum n a b < -2 ^ k) : (addApprox n a b false).2.toInt = 0 := by
  rcases Nat.eq_or_lt_of_le hkn with rfl | hlt
  · obtain ⟨q, hq⟩ := dvd_truncSum (n := k) a b
    have hb := (truncSum_bounds (n := k) a b).2
    have hpos : (0 : Int) < 2 ^ k := by positivity
    have hq2 : q = -2 := by
      have h1 : 2 ^ k * q < 2 ^ k * -1 := by omega
      have h2 : 2 ^ k * -3 < 2 ^ k * q := by omega
      have := lt_of_mul_lt_mul_left h1 hpos.le
      have := lt_of_mul_lt_mul_left h2 hpos.le
      omega
    rw [sum_toInt_wrap hn (by omega) h, hq, hq2]
    ring
  · have := sum_all_approx a b false (show k + 1 ≤ n from hlt)
    rw [BitVec.toInt_eq_toNat_bmod, this]
    exact Int.zero_bmod

end

/-- The signed sum is off by what the truncation may drop, and a negative sum does not become
positive. -/
def SignedClose {m : Nat} (n : Nat) (a b : BitVec m) : Prop :=
  ((addApprox n a b false).2.toInt - (a.toInt + b.toInt)).natAbs ≤ 2 ^ (n + 1) - 2 ∧
  (a.toInt + b.toInt < 0 → (addApprox n a b false).2.toInt ≤ 0)

/-- **Signed error.** Where the exact sum is representable, the bound holds exactly if the
truncated sum is representable too, or at most one bit is accurate. -/
theorem signed_error_iff {m n : Nat} (hm : 1 ≤ m) (hn : n ≤ m) (a b : BitVec m)
    (hlo : -2 ^ (m - 1) ≤ a.toInt + b.toInt) (hhi : a.toInt + b.toInt ≤ 2 ^ (m - 1) - 1) :
    SignedClose n a b ↔
      m ≤ n + 1 ∨ -2 ^ (m - 1) ≤ a.toInt + b.toInt - (a.toInt % 2 ^ n + b.toInt % 2 ^ n) := by
  obtain ⟨k, rfl⟩ : ∃ k, m = k + 1 := ⟨m - 1, by omega⟩
  rw [Nat.add_sub_cancel] at *
  obtain ⟨hle, hdrop⟩ := truncSum_bounds (n := n) a b
  have hpow : (2 : Nat) ^ (n + 1) = 2 * 2 ^ n := by ring
  have hcast : ((2 ^ n : Nat) : Int) = 2 ^ n := by push_cast; rfl
  change _ ↔ k + 1 ≤ n + 1 ∨ -2 ^ k ≤ truncSum n a b
  unfold SignedClose
  rw [hpow]
  by_cases hT : -2 ^ k ≤ truncSum n a b
  · rw [sum_toInt hn (by omega) hT]
    omega
  by_cases hkn : k ≤ n
  · rw [sum_toInt_top hn hkn hlo (by omega)]
    have hkn2 : (2 : Int) ^ k ≤ 2 ^ n := pow_le_pow_right₀ (by decide) hkn
    omega
  · have hkn2 : (2 : Int) * 2 ^ n ≤ 2 ^ k := by
      rw [← pow_succ']
      exact pow_le_pow_right₀ (by decide) (by omega)
    rw [sum_toInt_wrap hn (by omega) (by omega)]
    omega

theorem signed_error_sixteen : SignedClose 4 (BitVec.ofInt 16 (-32768)) (32767#16) :=
  (signed_error_iff (by decide) (by decide) _ _ (by decide) (by decide)).2 (.inr (by decide))

/-- The sum of -16383 and -16385 is -32768; the adder gives 32752. -/
theorem signed_error_most_negative :
    (BitVec.ofInt 16 (-16383)).toInt + (BitVec.ofInt 16 (-16385)).toInt = -2 ^ 15 ∧
    (addApprox 4 (BitVec.ofInt 16 (-16383)) (BitVec.ofInt 16 (-16385)) false).2.toInt = 32752 ∧
    ¬ SignedClose 4 (BitVec.ofInt 16 (-16383)) (BitVec.ofInt 16 (-16385)) := by
  have hsum : (addApprox 4 (BitVec.ofInt 16 (-16383)) (BitVec.ofInt 16 (-16385)) false).2.toInt =
      32752 := by
    rw [sum_toInt_wrap (k := 15) (by decide) (by decide) (by decide)]
    decide
  refine ⟨by decide, hsum, fun h => ?_⟩
  have := h.2 (by decide)
  omega

end CimSigmoid.Adder
