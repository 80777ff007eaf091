import Mathlib.Algebra.BigOperators.Field
import Mathlib.Algebra.Order.BigOperators.Ring.Finset
import Mathlib.Algebra.Order.Field.Basic
import Mathlib.Tactic.FieldSimp
import Mathlib.Tactic.LinearCombination
import Mathlib.Tactic.Ring

/-!
# Counts and means kept one value at a time

`dictGet` and `dictSet` are the operations of a Python dictionary, in insertion order;
`total` is the sum of its counts.

`updateMean avg n x` takes a value into a mean of which `n` is the new number of values.
When the number lags behind by one (a stale value) the result is no mean in general. The
sum that it stands for is then off by `drift`: every stale value but the first adds what it
exceeds the mean of the earlier values by, with a positive weight that depends on the places
of the stale values alone.
-/

namespace CimSigmoid.Analysis

/-! ## Counts -/

section

variable {κ : Type} [DecidableEq κ]

/-- `d.get(k, 0)`. -/
def dictGet (k : κ) : List (κ × Nat) → Nat
  | [] => 0
  | (j, n) :: d => if j = k then n else dictGet k d

/-- `d[k] = v`. -/
def dictSet (k : κ) (v : Nat) : List (κ × Nat) → List (κ × Nat)
  | [] => [(k, v)]
  | (j, n) :: d => if j = k then (j, v) :: d else (j, n) :: dictSet k v d

def total (d : List (κ × Nat)) : Nat := (d.map Prod.snd).sum

theorem total_dictSet (k : κ) (v : Nat) (d : List (κ × Nat)) :
    total (dictSet k v d) + dictGet k d = total d + v := by
  induction d with
  | nil => simp [dictSet, dictGet, total]
  | cons e d ih =>
    obtain ⟨j, n⟩ := e
    rw [dictSet, dictGet]
    split
    · simp only [total, List.map_cons, List.sum_cons]
      omega
    · simp only [total, List.map_cons, List.sum_cons] at ih ⊢
      omega

theorem total_count (k : κ) (d : List (κ × Nat)) :
    total (dictSet k (dictGet k d + 1) d) = total d + 1 := by
  have := total_dictSet k (dictGet k d + 1) d
  omega

end

/-! ## Means -/

section

variable {K : Type} [Field K] (value : Nat → K) (stale : Nat → Bool)

def mean (n : Nat) : K := (∑ k ∈ Finset.range n, value k) / n

def updateMean (avg : K) (n : Nat) (x : K) : K :=
  if 0 < n then (avg * (n - 1) + x) / n else x

/-- The places of the stale values among the first `n`. At place 0 there is no mean to spoil. -/
def staleBefore (n : Nat) : Finset Nat := {k ∈ Finset.range n | 0 < k ∧ stale k = true}

def staleWeight (n k : Nat) : K :=
  (∏ m ∈ Finset.range n with k < m ∧ stale m = true, (1 - 1 / (m : K) ^ 2)) / k

def drift (n : Nat) : K :=
  ∑ k ∈ staleBefore stale n, staleWeight stale n k * (value k - mean value k)

variable {value stale} {n k : Nat}

theorem mem_staleBefore : k ∈ staleBefore stale n ↔ k < n ∧ 0 < k ∧ stale k = true := by
  rw [staleBefore, Finset.mem_filter, Finset.mem_range]

theorem staleBefore_mono {m : Nat} (h : m ≤ n) : staleBefore stale m ⊆ staleBefore stale n := by
  intro k hk
  rw [mem_staleBefore] at hk ⊢
  exact ⟨by omega, hk.2⟩

theorem staleBefore_succ_stale (h : 0 < n ∧ stale n = true) :
    staleBefore stale (n + 1) = insert n (staleBefore stale n) := by
  ext k
  rw [Finset.mem_insert, mem_staleBefore, mem_staleBefore]
  constructor
  · rintro ⟨hk, hs⟩
    rcases Nat.lt_succ_iff_lt_or_eq.1 hk with hk | rfl
    · exact .inr ⟨hk, hs⟩
    · exact .inl rfl
  · rintro (rfl | ⟨hk, hs⟩)
    · exact ⟨Nat.lt_succ_self _, h⟩
    · exact ⟨Nat.lt_succ_of_lt hk, hs⟩

theorem staleBefore_succ_fresh (h : ¬(0 < n ∧ stale n = true)) :
    staleBefore stale (n + 1) = staleBefore stale n := by
  ext k
  rw [mem_staleBefore, mem_staleBefore]
  refine ⟨fun hk => ⟨?_, hk.2⟩, fun hk => ⟨Nat.lt_succ_of_lt hk.1, hk.2⟩⟩
  rcases Nat.lt_succ_iff_lt_or_eq.1 hk.1 with hlt | rfl
  · exact hlt
  · exact absurd hk.2 h

theorem not_mem_staleBefore : n ∉ staleBefore stale n := fun h => (mem_staleBefore.1 h).1.false

theorem staleWeight_self : staleWeight (K := K) stale (n + 1) n = 1 / n := by
  rw [staleWeight, Finset.prod_eq_one]
  intro m hm
  rw [Finset.mem_filter, Finset.mem_range] at hm
  omega

theorem staleWeight_succ_stale (h : stale n = true) (hk : k < n) :
    staleWeight (K := K) stale (n + 1) k = staleWeight stale n k * (1 - 1 / (n : K) ^ 2) := by
  rw [staleWeight, staleWeight, Finset.range_add_one, Finset.filter_insert, if_pos ⟨hk, h⟩,
    Finset.prod_insert fun hm => Finset.notMem_range_self (Finset.mem_filter.1 hm).1]
  ring

theorem staleWeight_succ_fresh (h : ¬stale n = true) :
    staleWeight (K := K) stale (n + 1) k = staleWeight stale n k := by
  rw [staleWeight, staleWeight, Finset.range_add_one, Finset.filter_insert, if_neg fun hn => h hn.2]

theorem drift_succ_stale (h : 0 < n ∧ stale n = true) :
    drift value stale (n + 1) =
      drift value stale n * (1 - 1 / (n : K) ^ 2) + (value n - mean value n) / n := by
  have hearlier : ∀ k ∈ staleBefore stale n,
      staleWeight stale (n + 1) k * (value k - mean value k) =
        staleWeight stale n k * (value k - mean value k) * (1 - 1 / (n : K) ^ 2) := by
    intro k hk
    rw [staleWeight_succ_stale h.2 (mem_staleBefore.1 hk).1]
    ring
  rw [drift, staleBefore_succ_stale h, Finset.sum_insert not_mem_staleBefore,
    Finset.sum_congr rfl hearlier, ← Finset.sum_mul, staleWeight_self, drift]
  ring

theorem drift_succ_fresh (h : ¬(0 < n ∧ stale n = true)) :
    drift value stale (n + 1) = drift value stale n := by
  rw [drift, drift, staleBefore_succ_fresh h]
  refine Finset.sum_congr rfl fun k hk => ?_
  have hn : 0 < n := Nat.zero_lt_of_lt (mem_staleBefore.1 hk).1
  rw [staleWeight_succ_fresh fun hs => h ⟨hn, hs⟩]

theorem drift_eq_zero_of_mean (h : ∀ k ∈ staleBefore stale n, value k = mean value k) :
    drift value stale n = 0 :=
  Finset.sum_eq_zero fun k hk => by rw [h k hk, sub_self, mul_zero]

section

variable [CharZero K] {avg s e x : K}

theorem updateMean_fresh (h : avg * n = s) : updateMean avg (n + 1) x * (n + 1 : Nat) = s + x := by
  have hn : ((n + 1 : Nat) : K) ≠ 0 := Nat.cast_ne_zero.2 n.succ_ne_zero
  rw [updateMean, if_pos n.succ_pos, div_mul_cancel₀ _ hn, Nat.cast_succ]
  linear_combination h

theorem updateMean_stale (hn : n ≠ 0) (h : avg * n = s + e) :
    updateMean avg n x * (n + 1 : Nat) =
      s + x + (e * (1 - 1 / (n : K) ^ 2) + (x - s / n) / n) := by
  have hn' : (n : K) ≠ 0 := Nat.cast_ne_zero.2 hn
  have he : e = avg * n - s := by linear_combination -h
  rw [updateMean, if_pos (Nat.pos_of_ne_zero hn), Nat.cast_succ, he]
  field_simp
  ring

theorem mean_of_drift (hn : n ≠ 0) (h : avg * n = ∑ k ∈ Finset.range n, value k + e) :
    avg = mean value n ↔ e = 0 := by
  rw [mean, eq_div_iff (Nat.cast_ne_zero.2 hn), h, add_eq_left]

/-- There is no drift at any time exactly when every stale value but the first is the mean of
those before it. -/
theorem drift_eq_zero_upto :
    (∀ m ≤ n, drift value stale m = 0) ↔ ∀ k ∈ staleBefore stale n, value k = mean value k := by
  refine ⟨fun h k hk => ?_, fun h m hm => ?_⟩
  · obtain ⟨hlt, hs⟩ := mem_staleBefore.1 hk
    have hnext := h (k + 1) hlt
    rw [drift_succ_stale hs, h k hlt.le, zero_mul, zero_add,
      div_eq_zero_iff, or_iff_left (Nat.cast_ne_zero.2 hs.1.ne')] at hnext
    exact sub_eq_zero.1 hnext
  · exact drift_eq_zero_of_mean fun k hk => h k (staleBefore_mono hm hk)

end

section

variable [LinearOrder K] [IsStrictOrderedRing K]

theorem staleWeight_pos (hk : 0 < k) : 0 < staleWeight (K := K) stale n k := by
  refine div_pos (Finset.prod_pos fun m hm => ?_) (Nat.cast_pos.2 hk)
  have hm1 : (1 : K) < m := by
    have := (Finset.mem_filter.1 hm).2.1
    exact_mod_cast (show 1 < m by omega)
  rw [sub_pos, div_lt_one (by positivity)]
  exact one_lt_pow₀ hm1 two_ne_zero

/-- Stale values that are all too high, or all too low, do not cancel. -/
theorem drift_eq_zero_iff_of_one_sided
    (h : (∀ k ∈ staleBefore stale n, mean value k ≤ value k) ∨
      ∀ k ∈ staleBefore stale n, value k ≤ mean value k) :
    drift value stale n = 0 ↔ ∀ k ∈ staleBefore stale n, value k = mean value k := by
  refine ⟨fun h0 => ?_, drift_eq_zero_of_mean⟩
  have hzero : ∀ k ∈ staleBefore stale n,
      staleWeight stale n k * (value k - mean value k) = 0 := by
    rcases h with h | h
    · exact (Finset.sum_eq_zero_iff_of_nonneg fun k hk => mul_nonneg
        (staleWeight_pos (mem_staleBefore.1 hk).2.1).le (sub_nonneg.2 (h k hk))).1 h0
    · exact (Finset.sum_eq_zero_iff_of_nonpos fun k hk => mul_nonpos_of_nonneg_of_nonpos
        (staleWeight_pos (mem_staleBefore.1 hk).2.1).le (sub_nonpos.2 (h k hk))).1 h0
  intro k hk
  have hw : 0 < staleWeight (K := K) stale n k := staleWeight_pos (mem_staleBefore.1 hk).2.1
  exact sub_eq_zero.1 ((mul_eq_zero.1 (hzero k hk)).resolve_left hw.ne')

/-- A single one at the last stale place. -/
theorem drift_last_ne_zero {j : Nat} (hj : j ∈ staleBefore stale n)
    (hlast : ∀ k ∈ staleBefore stale n, k ≤ j) (hv : ∀ k, value k = if k = j then 1 else 0) :
    drift value stale n ≠ 0 := by
  have hmean : ∀ k ≤ j, mean value k = 0 := by
    intro k hk
    rw [mean, Finset.sum_eq_zero, zero_div]
    intro i hi
    rw [hv, if_neg (by have := Finset.mem_range.1 hi; omega)]
  have hside : ∀ k ∈ staleBefore stale n, mean value k ≤ value k := by
    intro k hk
    rw [hmean k (hlast k hk), hv]
    split
    · exact zero_le_one
    · exact le_refl 0
  intro h0
  have hval := (drift_eq_zero_iff_of_one_sided (.inl hside)).1 h0 j hj
  rw [hmean j le_rfl, hv, if_pos rfl] at hval
  exact one_ne_zero hval

end

end

end CimSigmoid.Analysis
