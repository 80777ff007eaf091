import CimSigmoid.Bits.Value
import Mathlib.Algebra.BigOperators.Group.List.Basic

/-!
# Sweeps over an array

An array `Nat → M` over a monoid, in which position `j` is combined with a position below
it at a distance that is a power of two. `upSweep` doubles the stretch that a position
covers, level by level; `downSweep` hands down what the positions before have gathered.
Together they leave in every position the product of all positions up to it
(`downSweep_upSweep`).

`Carry` is the monoid of carry chains: whether a stretch of an addition generates a carry,
and whether it propagates the one that comes in. Its products are the carries of the sum
(`generate_block`), and with them the sum bits make up the sum (`bitsValue_sum`).
-/

namespace CimSigmoid.Bits

section

variable {M : Type}

/-- Level `i` upwards: position `j` takes in the one `2 ^ i` below, for the multiples `j` of
`2 ^ (i + 1)`. -/
def upStep [Mul M] (i : Nat) (b : Nat → M) (j : Nat) : M :=
  if j % 2 ^ (i + 1) = 0 ∧ 0 < j then b (j - 2 ^ i) * b j else b j

def upSweep [Mul M] (b : Nat → M) : Nat → Nat → M
  | 0 => b
  | n + 1 => upStep n (upSweep b n)

/-- Level `m` downwards: position `j` takes in the one `2 ^ m` below, for the odd multiples `j` of
`2 ^ m`. -/
def downStep (f : M → M → M) (m : Nat) (b : Nat → M) (j : Nat) : M :=
  if j % 2 ^ (m + 1) = 2 ^ m then f (b (j - 2 ^ m)) (b j) else b j

def downSweep (f : M → M → M) (L : Nat) (b : Nat → M) : Nat → Nat → M
  | 0 => b
  | n + 1 => downStep f (L - n - 1) (downSweep f L b n)

def block [Monoid M] (a : Nat → M) (lo n : Nat) : M := ((List.range n).map fun i => a (lo + i)).prod

end

/-! ## Levels by their positions -/

theorem odd_mul_mod (m k : Nat) : 2 ^ m * (2 * k + 1) % 2 ^ (m + 1) = 2 ^ m := by
  have e : 2 ^ m * (2 * k + 1) = 2 ^ m + 2 ^ (m + 1) * k := by ring
  have := Nat.two_pow_pos m
  rw [e, Nat.add_mul_mod_self_left, Nat.mod_eq_of_lt (by rw [Nat.pow_succ]; omega)]

theorem mul_mod_ne {v m : Nat} (h : v < m) (k : Nat) : 2 ^ v * (2 * k + 1) % 2 ^ m ≠ 0 := by
  intro h0
  have hd : 2 ^ v * 2 ∣ 2 ^ v * (2 * k + 1) :=
    (pow_succ 2 v ▸ Nat.pow_dvd_pow 2 h).trans (Nat.dvd_of_mod_eq_zero h0)
  have := Nat.dvd_of_mul_dvd_mul_left (Nat.two_pow_pos v) hd
  omega

section

variable {M : Type} (f : M → M → M) (b : Nat → M)

theorem downStep_odd (m k : Nat) : downStep f m b (2 ^ m * (2 * k + 1)) =
    f (b (2 ^ (m + 1) * k)) (b (2 ^ m * (2 * k + 1))) := by
  have e : 2 ^ m * (2 * k + 1) - 2 ^ m = 2 ^ (m + 1) * k := by
    rw [Nat.mul_add, Nat.mul_one, Nat.add_sub_cancel, pow_succ]
    ring
  rw [downStep, if_pos (odd_mul_mod m k), e]

theorem downStep_even (m k : Nat) : downStep f m b (2 ^ (m + 1) * k) = b (2 ^ (m + 1) * k) := by
  have := Nat.two_pow_pos m
  rw [downStep, if_neg (by rw [Nat.mul_mod_right]; omega)]

theorem downStep_lower {v m : Nat} (h : v < m) (k : Nat) :
    downStep f m b (2 ^ v * (2 * k + 1)) = b (2 ^ v * (2 * k + 1)) := by
  refine if_neg fun e => mul_mod_ne h k ?_
  rw [← Nat.mod_mod_of_dvd _ (Nat.pow_dvd_pow 2 (Nat.le_succ m)), e, Nat.mod_self]

/-- **The rule of the sweep downwards**: what holds of the first position and is handed down at every
level holds of all positions. -/
theorem downSweep_induction {L : Nat} (R : Nat → M → Prop) (h0 : R 0 (b 0))
    (hstep : ∀ v k x, v < L → R (2 ^ (v + 1) * k) x →
      R (2 ^ v * (2 * k + 1)) (f x (b (2 ^ v * (2 * k + 1)))))
    {j : Nat} (hj : j < 2 ^ L) : R j (downSweep f L b L j) := by
  -- after `n` levels the multiples of `2 ^ (L - n)` have it, and the others are as they were
  have key : ∀ n ≤ L, (∀ k, 2 ^ (L - n) * k < 2 ^ L → R (2 ^ (L - n) * k)
      (downSweep f L b n (2 ^ (L - n) * k))) ∧
      ∀ v < L - n, ∀ k, downSweep f L b n (2 ^ v * (2 * k + 1)) = b (2 ^ v * (2 * k + 1)) := by
    intro n hn
    induction n with
    | zero =>
      refine ⟨fun k hk => ?_, fun v _ k => rfl⟩
      obtain rfl : k = 0 := by
        rcases k with _ | k
        · rfl
        · rw [Nat.sub_zero, Nat.mul_succ] at hk
          omega
      simpa [downSweep] using h0
    | succ n ih =>
      obtain ⟨hm, hl⟩ := ih (by omega)
      obtain ⟨m, rfl⟩ : ∃ m, L = n + 1 + m := ⟨L - n - 1, by omega⟩
      rw [show n + 1 + m - n = m + 1 by omega] at hm hl
      simp only [show n + 1 + m - (n + 1) = m by omega, downSweep,
        show n + 1 + m - n - 1 = m by omega] at hm hl ⊢
      refine ⟨fun k hk => ?_, fun v hv k => ?_⟩
      · rcases Nat.even_or_odd' k with ⟨k, rfl | rfl⟩
        · rw [show 2 ^ m * (2 * k) = 2 ^ (m + 1) * k by ring] at hk ⊢
          rw [downStep_even]
          exact hm k hk
        · rw [downStep_odd, hl m (Nat.lt_succ_self m) k]
          refine hstep m k _ (by omega) (hm k (Nat.lt_of_le_of_lt ?_ hk))
          rw [show 2 ^ m * (2 * k + 1) = 2 ^ (m + 1) * k + 2 ^ m by ring]
          exact Nat.le_add_right ..
      · rw [downStep_lower f _ hv, hl v (by omega)]
  have := (key L (Nat.le_refl L)).1 j
  rw [Nat.sub_self, Nat.pow_zero, Nat.one_mul] at this
  exact this hj

end

/-! ## Products of stretches -/

section

variable {M : Type} [Monoid M] (a : Nat → M)

theorem block_one (lo : Nat) : block a lo 1 = a lo := by simp [block]

theorem block_add (lo m n : Nat) : block a lo (m + n) = block a lo m * block a (lo + m) n := by
  simp only [block, List.range_add, List.map_append, List.prod_append, List.map_map]
  congr 2
  refine List.map_congr_left fun i _ => ?_
  rw [Function.comp_apply, Nat.add_assoc]

theorem block_succ (lo n : Nat) : block a lo (n + 1) = block a lo n * a (lo + n) := by
  rw [block_add, block_one]

theorem upStep_multiple (b : Nat → M) (i k : Nat) : upStep i b (2 ^ (i + 1) * (k + 1)) =
    b (2 ^ i * (2 * k + 1)) * b (2 ^ i * (2 * k + 2)) := by
  have e : 2 ^ (i + 1) * (k + 1) - 2 ^ i = 2 ^ i * (2 * k + 1) := by
    rw [show 2 ^ (i + 1) * (k + 1) = 2 ^ i * (2 * k + 1) + 2 ^ i by ring, Nat.add_sub_cancel]
  rw [upStep, if_pos ⟨Nat.mul_mod_right .., by positivity⟩, e]
  congr 2
  ring

theorem upStep_odd (b : Nat → M) {v i : Nat} (h : v < i + 1) (k : Nat) :
    upStep i b (2 ^ v * (2 * k + 1)) = b (2 ^ v * (2 * k + 1)) :=
  if_neg fun e => mul_mod_ne h k e.1

/-- What the levels upwards leave: position `2 ^ v * (2 * k + 1)` covers the `2 ^ v` positions that end
with it. -/
theorem upSweep_odd {n v : Nat} (hv : v ≤ n) (k : Nat) :
    upSweep a n (2 ^ v * (2 * k + 1)) = block a (2 ^ v * (2 * k) + 1) (2 ^ v) := by
  have key : ∀ n, (∀ v < n, ∀ k, upSweep a n (2 ^ v * (2 * k + 1)) =
      block a (2 ^ v * (2 * k) + 1) (2 ^ v)) ∧
      ∀ k, upSweep a n (2 ^ n * (k + 1)) = block a (2 ^ n * k + 1) (2 ^ n) := by
    intro n
    induction n with
    | zero => exact ⟨fun v hv => absurd hv (Nat.not_lt_zero v), fun k => by simp [upSweep, block_one]⟩
    | succ n ih =>
      refine ⟨fun v hv k => ?_, fun k => ?_⟩
      · rw [upSweep, upStep_odd _ hv]
        rcases Nat.lt_or_eq_of_le (Nat.le_of_lt_succ hv) with h | rfl
        · exact ih.1 v h k
        · exact ih.2 (2 * k)
      · rw [upSweep, upStep_multiple, ih.2 (2 * k), ih.2 (2 * k + 1), show 2 ^ (n + 1) = 2 ^ n + 2 ^ n by ring,
          block_add]
        congr 2 <;> ring
  rcases Nat.lt_or_eq_of_le hv with h | rfl
  · exact (key n).1 v h k
  · exact (key v).2 (2 * k)

theorem upSweep_zero (n : Nat) : upSweep a n 0 = a 0 := by
  induction n with
  | zero => rfl
  | succ n ih => rw [upSweep, upStep, if_neg (by omega), ih]

/-- **Up and down**: every position gathers all positions up to it. -/
theorem downSweep_upSweep {L j : Nat} (hj : j < 2 ^ L) :
    downSweep (· * ·) L (upSweep a (L - 1)) L j = block a 0 (j + 1) := by
  refine downSweep_induction (· * ·) (upSweep a (L - 1)) (fun j x => x = block a 0 (j + 1)) ?_ ?_ hj
  · rw [upSweep_zero, block_one]
  · rintro v k x hv rfl
    rw [upSweep_odd a (by omega), show 2 ^ v * (2 * k) = 2 ^ (v + 1) * k by ring,
      show 2 ^ v * (2 * k + 1) + 1 = 2 ^ (v + 1) * k + 1 + 2 ^ v by ring,
      block_add a 0 (2 ^ (v + 1) * k + 1), Nat.zero_add]

end

/-! ## Carries -/

/-- What a stretch of an addition does with carries. -/
structure Carry where
  generate : Bool
  propagate : Bool

/-- The lower stretch comes first. -/
instance : Monoid Carry where
  mul l u := ⟨u.generate || u.propagate && l.generate, u.propagate && l.propagate⟩
  one := ⟨false, true⟩
  mul_assoc := by
    rintro ⟨g, p⟩ ⟨g', p'⟩ ⟨g'', p''⟩
    cases p'' <;> cases g'' <;> cases p' <;> rfl
  one_mul := by
    rintro ⟨g, p⟩
    cases g <;> cases p <;> rfl
  mul_one := by
    rintro ⟨g, p⟩
    cases p <;> cases g <;> rfl

@[simp] theorem Carry.generate_mul (l u : Carry) :
    (l * u).generate = (u.generate || u.propagate && l.generate) := rfl

@[simp] theorem Carry.propagate_mul (l u : Carry) :
    (l * u).propagate = (u.propagate && l.propagate) := rfl

def carryBit (x y : Nat → Bool) (c : Bool) : Nat → Bool
  | 0 => c
  | j + 1 => x j && y j || (x j || y j) && carryBit x y c j

/-- One position of a sum; the carry that comes into the lowest one is taken in there. -/
def carryOf (x y : Nat → Bool) (c : Bool) (j : Nat) : Carry :=
  ⟨x j && y j || (x j || y j) && (j == 0 && c), x j || y j⟩

variable {x y : Nat → Bool} {c : Bool}

theorem generate_block (j : Nat) : (block (carryOf x y c) 0 (j + 1)).generate = carryBit x y c (j + 1) := by
  induction j with
  | zero => simp [block_one, carryOf, carryBit]
  | succ j ih =>
    rw [block_succ, Carry.generate_mul, ih, Nat.zero_add]
    simp [carryOf, carryBit]

/-- **The sum bits and the last carry make up the sum.** -/
theorem bitsValue_sum (n : Nat) :
    (bitsValue n fun j => (x j ^^ y j) ^^ carryBit x y c j) + 2 ^ n * (carryBit x y c n).toNat =
      bitsValue n x + bitsValue n y + c.toNat := by
  induction n with
  | zero => simp [bitsValue, carryBit]
  | succ n ih =>
    have hbit : ((x n ^^ y n) ^^ carryBit x y c n).toNat + 2 * (carryBit x y c (n + 1)).toNat =
        (x n).toNat + (y n).toNat + (carryBit x y c n).toNat := by
      rw [carryBit]
      cases x n <;> cases y n <;> cases carryBit x y c n <;> rfl
    have h2 : 2 ^ (n + 1) = 2 ^ n * 2 := pow_succ 2 n
    have hmul := congrArg (2 ^ n * ·) hbit
    simp only [Nat.mul_add, bitsValue] at hmul ⊢
    rw [h2, Nat.mul_assoc]
    omega

/-- **Three words are a sum word and twice a carry word.** -/
theorem bitsValue_carrySave (n : Nat) (x y p : Nat → Bool) :
    (bitsValue n fun j => (x j ^^ y j) ^^ p j) +
      2 * (bitsValue n fun j => x j && y j || (x j || y j) && p j) =
        bitsValue n x + bitsValue n y + bitsValue n p := by
  induction n with
  | zero => rfl
  | succ n ih =>
    have hbit : ((x n ^^ y n) ^^ p n).toNat + 2 * (x n && y n || (x n || y n) && p n).toNat =
        (x n).toNat + (y n).toNat + (p n).toNat := by
      cases x n <;> cases y n <;> cases p n <;> rfl
    have hmul := congrArg (2 ^ n * ·) hbit
    simp only [Nat.mul_add, bitsValue, Nat.mul_left_comm (2 ^ n) 2] at hmul ⊢
    omega

theorem bitsValue_low (n : Nat) (b : Nat → Bool) :
    bitsValue (n + 1) b = (b 0).toNat + 2 * bitsValue n fun j => b (j + 1) := by
  rw [Nat.add_comm n 1, bitsValue_add]
  simp [bitsValue, Nat.add_comm 1]

end CimSigmoid.Bits
