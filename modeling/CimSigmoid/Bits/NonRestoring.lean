import CimSigmoid.Bits.Value

/-!
# Non-restoring division

A dividend of `2N` bits is divided by a divisor of `N` bits, one quotient bit at a time,
with a remainder of `N + 2` bits in two's complement. The remainder is never restored when
it turns negative: the next pass adds the divisor then, and subtracts it otherwise. A
quotient bit is the complement of the remainder's sign.

`nrQuotient_eq` and `nrRemainder_eq`: this is division, for a divisor that is not zero and
a quotient that fits in `N` bits. `nrQuotient_zero` and `nrRemainder_zero`: what the passes
give for the divisor zero.
-/

namespace CimSigmoid.Bits

/-- A pass: shift in the bit `b`, then add or subtract the divisor. -/
def nrStep (N d r b : Nat) : Nat :=
  (2 * r + b + if r < 2 ^ (N + 1) then 2 ^ (N + 2) - d else d) % 2 ^ (N + 2)

/-- The remainder after the first pass and `k` more. -/
def nrRem (N z d : Nat) : Nat → Nat
  | 0 => (z / 2 ^ (N - 1) + (2 ^ (N + 2) - d)) % 2 ^ (N + 2)
  | k + 1 => nrStep N d (nrRem N z d k) (z / 2 ^ (N - 2 - k) % 2)

def nrBit (N z d i : Nat) : Bool := decide (nrRem N z d (N - 1 - i) < 2 ^ (N + 1))

def nrQuotient (N z d : Nat) : Nat := bitsValue N (nrBit N z d)

/-- The last remainder, with the divisor added when it is negative. -/
def nrRemainder (N z d : Nat) : Nat :=
  (nrRem N z d (N - 1) + if nrBit N z d 0 then 0 else d) % 2 ^ N

section

variable {N z d : Nat}

/-- The remainder stands for `W - d`, where `W` is what the pass had to divide: the partial
dividend `Z` up to a multiple of the divisor. -/
structure Partial (N d Z r W : Nat) : Prop where
  lt : W < 2 * d
  eq : r = (W + (2 ^ (N + 2) - d)) % 2 ^ (N + 2)
  mod : W % d = Z % d
  bit : W / d = Z / d % 2

theorem Partial.eq_of_lt {Z r W : Nat} (h : Partial N d Z r W) (hd : d < 2 ^ N) (hW : W < d) :
    r = W + (4 * 2 ^ N - d) := by
  have e2 : 2 ^ (N + 2) = 4 * 2 ^ N := by ring
  rw [h.eq, e2, Nat.mod_eq_of_lt (by omega)]

theorem Partial.eq_of_le {Z r W : Nat} (h : Partial N d Z r W) (hd : d < 2 ^ N) (hW : d ≤ W) :
    r = W - d := by
  have hlt := h.lt
  have e2 : 2 ^ (N + 2) = 4 * 2 ^ N := by ring
  rw [h.eq, e2, show W + (4 * 2 ^ N - d) = W - d + 4 * 2 ^ N by omega, Nat.add_mod_right,
    Nat.mod_eq_of_lt (by omega)]

theorem Partial.nonneg_iff {Z r W : Nat} (h : Partial N d Z r W) (hd : d < 2 ^ N) :
    r < 2 ^ (N + 1) ↔ d ≤ W := by
  have hW := h.lt
  have e1 : 2 ^ (N + 1) = 2 * 2 ^ N := by ring
  rcases Nat.lt_or_ge W d with hlt | hge
  · rw [h.eq_of_lt hd hlt, e1]
    omega
  · rw [h.eq_of_le hd hge, e1]
    omega

theorem Partial.step {Z r W b : Nat} (h : Partial N d Z r W) (hd : d < 2 ^ N) (h0 : 0 < d)
    (hb : b < 2) : Partial N d (2 * Z + b) (nrStep N d r b) (2 * (W % d) + b) := by
  have hW := h.lt
  have hR := Nat.mod_lt W h0
  refine ⟨by omega, ?_, ?_, ?_⟩
  · -- the sign of `r` tells whether `W` still holds the divisor
    rw [nrStep]
    rcases Nat.lt_or_ge W d with hlt | hge
    · have e2 : 2 ^ (N + 2) = 4 * 2 ^ N := by ring
      rw [if_neg (by rw [h.nonneg_iff hd]; omega), h.eq_of_lt hd hlt, Nat.mod_eq_of_lt hlt, e2,
        show 2 * (W + (4 * 2 ^ N - d)) + b + d = 2 * W + b + (4 * 2 ^ N - d) + 4 * 2 ^ N by omega,
        Nat.add_mod_right]
    · have hWd : W % d = W - d := by
        rw [Nat.mod_eq_sub_mod hge, Nat.mod_eq_of_lt (by omega)]
      rw [if_pos ((h.nonneg_iff hd).mpr hge), h.eq_of_le hd hge, hWd]
  · rw [h.mod]
    conv_rhs => rw [← Nat.div_add_mod Z d]
    rw [show 2 * (d * (Z / d) + Z % d) + b = 2 * (Z % d) + b + d * (2 * (Z / d)) by ring,
      Nat.add_mul_mod_self_left]
  · rw [h.mod]
    have hdiv : (2 * Z + b) / d = (2 * (Z % d) + b) / d + 2 * (Z / d) := by
      conv_lhs => rw [← Nat.div_add_mod Z d]
      rw [show 2 * (d * (Z / d) + Z % d) + b = 2 * (Z % d) + b + d * (2 * (Z / d)) by ring,
        Nat.add_mul_div_left _ _ h0]
    have hlt : (2 * (Z % d) + b) / d < 2 := by
      have := Nat.mod_lt Z h0
      exact (Nat.div_lt_iff_lt_mul h0).mpr (by omega)
    rw [hdiv, Nat.add_mul_mod_self_left, Nat.mod_eq_of_lt hlt]

/-- **Every remainder is that of the dividend's leading bits.** -/
theorem partial_nrRem (h0 : 0 < d) (hd : d < 2 ^ N) (hz : z < 2 ^ N * d) :
    ∀ k < N, ∃ W, Partial N d (z / 2 ^ (N - 1 - k)) (nrRem N z d k) W := by
  intro k
  induction k with
  | zero =>
    intro hN
    have hlt : z / 2 ^ (N - 1) < 2 * d := by
      refine (Nat.div_lt_iff_lt_mul (Nat.two_pow_pos _)).mpr (hz.trans_eq ?_)
      conv_lhs => rw [show N = N - 1 + 1 by omega]
      ring
    refine ⟨z / 2 ^ (N - 1), hlt, rfl, rfl, ?_⟩
    rw [Nat.sub_zero, Nat.mod_eq_of_lt ((Nat.div_lt_iff_lt_mul h0).mpr hlt)]
  | succ k ih =>
    intro hk
    obtain ⟨W, hW⟩ := ih (by omega)
    have hb : z / 2 ^ (N - 2 - k) % 2 < 2 := Nat.mod_lt _ Nat.two_pos
    have hZ : 2 * (z / 2 ^ (N - 1 - k)) + z / 2 ^ (N - 2 - k) % 2 = z / 2 ^ (N - 1 - (k + 1)) := by
      rw [show N - 1 - k = N - 2 - k + 1 by omega, Nat.pow_succ, ← Nat.div_div_eq_div_mul,
        Nat.div_add_mod, show N - 1 - (k + 1) = N - 2 - k by omega]
    exact ⟨_, hZ ▸ hW.step hd h0 hb⟩

theorem nrBit_eq (h0 : 0 < d) (hd : d < 2 ^ N) (hz : z < 2 ^ N * d) {i : Nat} (hi : i < N) :
    nrBit N z d i = (z / d).testBit i := by
  obtain ⟨W, hW⟩ := partial_nrRem h0 hd hz (N - 1 - i) (by omega)
  rw [show N - 1 - (N - 1 - i) = i by omega] at hW
  have hbit := hW.bit
  rw [Nat.div_div_eq_div_mul, Nat.mul_comm, ← Nat.div_div_eq_div_mul] at hbit
  rw [nrBit, Nat.testBit_eq_decide_div_mod_eq, ← hbit]
  refine decide_eq_decide.mpr ((hW.nonneg_iff hd).trans ⟨fun h => ?_, fun h => ?_⟩)
  · exact Nat.div_eq_of_lt_le (by omega) (by have := hW.lt; omega)
  · rcases Nat.lt_or_ge W d with hlt | hge
    · rw [Nat.div_eq_of_lt hlt] at h
      omega
    · exact hge

theorem nrQuotient_eq (h0 : 0 < d) (hd : d < 2 ^ N) (hz : z / d < 2 ^ N) :
    nrQuotient N z d = z / d := by
  have hz' : z < 2 ^ N * d := (Nat.div_lt_iff_lt_mul h0).mp hz
  rw [nrQuotient, bitsValue_congr fun i hi => nrBit_eq h0 hd hz' hi, bitsValue_testBit,
    Nat.mod_eq_of_lt hz]

theorem nrRemainder_eq (hN : 0 < N) (h0 : 0 < d) (hd : d < 2 ^ N) (hz : z / d < 2 ^ N) :
    nrRemainder N z d = z % d := by
  have hz' : z < 2 ^ N * d := (Nat.div_lt_iff_lt_mul h0).mp hz
  obtain ⟨W, hW⟩ := partial_nrRem h0 hd hz' (N - 1) (by omega)
  rw [Nat.sub_self, Nat.pow_zero, Nat.div_one] at hW
  have hlt := hW.lt
  rw [nrRemainder, nrBit, Nat.sub_zero, ← hW.mod]
  rcases Nat.lt_or_ge W d with hneg | hge
  · have hneg' : ¬nrRem N z d (N - 1) < 2 ^ (N + 1) := by
      rw [hW.nonneg_iff hd]
      omega
    rw [decide_eq_false hneg', if_neg Bool.false_ne_true, hW.eq_of_lt hd hneg,
      show W + (4 * 2 ^ N - d) + d = W + 2 ^ N * 4 by omega, Nat.add_mul_mod_self_left,
      Nat.mod_eq_of_lt (by omega), Nat.mod_eq_of_lt hneg]
  · rw [decide_eq_true ((hW.nonneg_iff hd).mpr hge), if_pos rfl, Nat.add_zero, hW.eq_of_le hd hge,
      Nat.mod_eq_of_lt (by omega), Nat.mod_eq_sub_mod hge, Nat.mod_eq_of_lt (by omega)]

/-! ## The divisor zero -/

theorem nrRem_zero {k : Nat} (hk : k < N) :
    nrRem N z 0 k = z / 2 ^ (N - 1 - k) % 2 ^ (N + 2) := by
  induction k with
  | zero => rw [nrRem, Nat.sub_zero, Nat.sub_zero, Nat.add_mod_right]
  | succ k ih =>
    have hshift : 2 * (z / 2 ^ (N - 1 - k)) + z / 2 ^ (N - 2 - k) % 2 = z / 2 ^ (N - 2 - k) := by
      rw [show N - 1 - k = N - 2 - k + 1 by omega, Nat.pow_succ, ← Nat.div_div_eq_div_mul,
        Nat.div_add_mod]
    have hadd : ∀ v, (v + if nrRem N z 0 k < 2 ^ (N + 1) then 2 ^ (N + 2) - 0 else 0) % 2 ^ (N + 2) =
        v % 2 ^ (N + 2) := fun v => by
      split
      · rw [Nat.sub_zero, Nat.add_mod_right]
      · rfl
    rw [nrRem, nrStep, hadd, ih (by omega), ← Nat.mod_add_mod, Nat.mul_mod_mod, Nat.mod_add_mod,
      hshift, show N - 1 - (k + 1) = N - 2 - k by omega]

theorem nrBit_zero {i : Nat} (hi : i < N) : nrBit N z 0 i = !(z / 2 ^ (N + 1)).testBit i := by
  have htop := bitsValue_msb (N + 1) (z / 2 ^ i).testBit
  rw [bitsValue_testBit, Nat.testBit_div_two_pow] at htop
  rw [nrBit, nrRem_zero (by omega), show N - 1 - (N - 1 - i) = i by omega, Nat.testBit_div_two_pow,
    Nat.add_comm i, htop, ← decide_not]
  exact decide_eq_decide.mpr Nat.not_le.symm

theorem nrQuotient_zero (hz : z < 2 ^ (2 * N)) :
    nrQuotient N z 0 + z / 2 ^ (N + 1) + 1 = 2 ^ N := by
  have hlt : z / 2 ^ (N + 1) < 2 ^ N := by
    refine (Nat.div_lt_iff_lt_mul (Nat.two_pow_pos _)).mpr (hz.trans_le ?_)
    rw [← Nat.pow_add]
    exact Nat.pow_le_pow_right Nat.two_pos (by omega)
  have hnot := bitsValue_not N (z / 2 ^ (N + 1)).testBit
  rw [bitsValue_testBit, Nat.mod_eq_of_lt hlt] at hnot
  rw [nrQuotient, bitsValue_congr fun i hi => nrBit_zero hi, hnot]

theorem nrRemainder_zero (hN : 0 < N) : nrRemainder N z 0 = z % 2 ^ N := by
  rw [nrRemainder, ite_self, Nat.add_zero, nrRem_zero (by omega), Nat.sub_self, Nat.pow_zero,
    Nat.div_one, Nat.mod_mod_of_dvd _ (Nat.pow_dvd_pow 2 (by omega))]

end

end CimSigmoid.Bits
