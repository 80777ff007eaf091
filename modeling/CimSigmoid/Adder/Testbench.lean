import CimSigmoid.Adder.Python
import Mathlib.Algebra.Field.Rat
import Mathlib.Algebra.Order.BigOperators.Group.List
import Mathlib.Tactic.FieldSimp

/-!
# The statistics of the testbench and of its Python twin

`Tb` is the stimulus process of `truncated_adder/tb_ADD_APPROX.v`: the task
`check_result` on the directed vectors, then the random sweep and the report.
Its counters are 32-bit integers; the 16-bit sums are zero-extended. `Simulate`
adds `run_tb_simulation` of `simulate_python.py`, on Python's integers. The
quotients of the report are taken as exact rationals, before formatting.

`averages_iff` says when both print the mean error of the random vectors.
-/

namespace CimSigmoid.Adder

open Bits

/-- A directed case; `cin` is 0 during the first phase. -/
structure Directed where
  a : BitVec 16
  b : BitVec 16
  expected : BitVec 16

structure Sample where
  a : BitVec 16
  b : BitVec 16
  cin : Bool

def Sample.sum (v : Sample) (n : Nat) : BitVec 16 := (addApprox n v.a v.b v.cin).2

structure Report where
  testCount : Int
  passN0Count : Int
  pass : Bool
  avgN4 : Option ℚ
  avgN6 : Option ℚ

/-! ## `tb_ADD_APPROX` -/

namespace Tb

structure Stats where
  testCount : BitVec 32
  passN0Count : BitVec 32
  errN4Total : BitVec 32
  errN6Total : BitVec 32

def init : Stats := ⟨0, 0, 0, 0⟩

def checkResult (s : Stats) (d : Directed) : Stats :=
  { s with
    testCount := s.testCount + 1
    passN0Count :=
      if (addApprox 0 d.a d.b false).2 = d.expected then s.passN0Count + 1 else s.passN0Count }

/-- A round of the random sweep. -/
def sweep (s : Stats) (v : Sample) : Stats :=
  let sumN0 := v.sum 0
  let sumN4 := v.sum 4
  let sumN6 := v.sum 6
  { testCount := s.testCount + 1
    passN0Count :=
      if sumN0 = v.a + v.b + (BitVec.ofBool v.cin).setWidth 16 then s.passN0Count + 1
      else s.passN0Count
    errN4Total :=
      if sumN0 > sumN4 then s.errN4Total + (sumN0.setWidth 32 - sumN4.setWidth 32)
      else s.errN4Total + (sumN4.setWidth 32 - sumN0.setWidth 32)
    errN6Total :=
      if sumN0 > sumN6 then s.errN6Total + (sumN6.setWidth 32 - sumN0.setWidth 32)
      else s.errN6Total + (sumN6.setWidth 32 - sumN0.setWidth 32) }

def run (directed : List Directed) (random : List Sample) : Stats :=
  random.foldl sweep (directed.foldl checkResult init)

/-- `total / (1.0 * test_count)`; a division by zero has no value. -/
def average (total testCount : BitVec 32) : Option ℚ :=
  if testCount = 0 then none else some ((total.toInt : ℚ) / testCount.toInt)

def report (directed : List Directed) (random : List Sample) : Report :=
  let s := run directed random
  { testCount := s.testCount.toInt
    passN0Count := s.passN0Count.toInt
    pass := s.passN0Count = s.testCount
    avgN4 := average s.errN4Total s.testCount
    avgN6 := average s.errN6Total s.testCount }

end Tb

/-! ## `run_tb_simulation` -/

namespace Simulate

structure Stats where
  testCount : Int
  passN0Count : Int
  errN4Total : Int
  errN6Total : Int

def init : Stats := ⟨0, 0, 0, 0⟩

/-- A round of the first loop. -/
def directedTest (s : Stats) (valA valB expected : Int) : Stats :=
  { s with
    testCount := s.testCount + 1
    passN0Count :=
      if (addApproxHw valA valB 0 16 0).1 = expected then s.passN0Count + 1 else s.passN0Count }

/-- A round of the second loop. -/
def randomTest (s : Stats) (valA valB cin : Int) : Stats :=
  let sumN0 := (addApproxHw valA valB cin 16 0).1
  let sumN4 := (addApproxHw valA valB cin 16 4).1
  let sumN6 := (addApproxHw valA valB cin 16 6).1
  let exactExpected := (valA + valB + cin).land 0xFFFF
  { testCount := s.testCount + 1
    passN0Count := if sumN0 = exactExpected then s.passN0Count + 1 else s.passN0Count
    errN4Total := s.errN4Total + |sumN0 - sumN4|
    errN6Total := s.errN6Total + |sumN0 - sumN6| }

def run (directed : List Directed) (random : List Sample) : Stats :=
  random.foldl (fun s v => randomTest s v.a.toNat v.b.toNat v.cin.toNat)
    (directed.foldl (fun s d => directedTest s d.a.toNat d.b.toNat d.expected.toNat) init)

/-- The report of `run_tb_simulation`; it divides by the literal 100. -/
def runTbSimulation (directed : List Directed) (random : List Sample) : Report :=
  let s := run directed random
  { testCount := s.testCount
    passN0Count := s.passN0Count
    pass := s.passN0Count = s.testCount
    avgN4 := some ((s.errN4Total : ℚ) / 100)
    avgN6 := some ((s.errN6Total : ℚ) / 100) }

end Simulate

/-! ## One vector -/

namespace Sample

variable (v : Sample) {n : Nat}

/-- What the truncation drops of the operands and the carry in. -/
def low (n : Nat) : Nat := v.a.toNat % 2 ^ n + v.b.toNat % 2 ^ n + v.cin.toNat

/-- The signed deviation of the truncated sum. -/
def dev (n : Nat) : Int := (v.sum n).toNat - (v.sum 0).toNat

theorem sum_zero : (v.sum 0).toNat = (v.a.toNat + v.b.toNat + v.cin.toNat) % 2 ^ 16 := by
  rw [sum, sum_toNat, value_zero]

theorem sum_add_low (h0 : 0 < n) (hn : n ≤ 16) :
    ((v.sum n).toNat + v.low n) % 2 ^ 16 = (v.sum 0).toNat := by
  have h : v.a.toNat + v.b.toNat + v.cin.toNat = value (addApprox n v.a v.b v.cin) + v.low n := by
    rw [← value_add_low v.a v.b v.cin h0 hn, low]
    omega
  rw [sum_zero, h, sum, sum_toNat, Nat.mod_add_mod]

theorem low_lt (hn : n < 16) : v.low n < 2 ^ 16 := by
  have h := low_le (n := n) v.cin v.a.toNat v.b.toNat
  have hpow : 2 ^ (n + 1) ≤ 2 ^ 16 := Nat.pow_le_pow_right (by decide) hn
  have := Nat.two_pow_pos (n + 1)
  unfold low
  omega

/-- The deviation is the dropped bits, or what is left of `2 ^ 16` when the truncated sum is on
the other side of it. -/
theorem dev_eq (h0 : 0 < n) (hn : n < 16) :
    v.dev n = if v.low n ≤ (v.sum 0).toNat then -(v.low n : Int) else 2 ^ 16 - v.low n := by
  have h := v.sum_add_low h0 hn.le
  have hlow := v.low_lt hn
  have hsum := (v.sum n).isLt
  rw [dev]
  split <;> omega

theorem dev_eq_zero_iff (h0 : 0 < n) (hn : n < 16) : v.dev n = 0 ↔ v.low n = 0 := by
  have hlow := v.low_lt hn
  rw [v.dev_eq h0 hn]
  split <;> omega

/-- The truncated sum is the larger one exactly if nothing was dropped or the exact sum has
passed `2 ^ 16` by less than what was. -/
theorem dev_nonneg_iff (h0 : 0 < n) (hn : n < 16) : 0 ≤ v.dev n ↔
    v.low n = 0 ∨ (v.a.toNat + v.b.toNat + v.cin.toNat) % 2 ^ 16 < v.low n := by
  have hlow := v.low_lt hn
  rw [v.dev_eq h0 hn, ← sum_zero]
  split <;> omega

theorem low_four (h : v.low 6 = 0) : v.low 4 = 0 := by
  unfold low at *
  omega

end Sample

/-! ## The accumulators -/

def totalDev (n : Nat) (random : List Sample) : Int := (random.map (·.dev n)).sum

def totalErr (n : Nat) (random : List Sample) : Int := (random.map fun v => |v.dev n|).sum

theorem setWidth_sub (x y : BitVec 16) :
    x.setWidth 32 - y.setWidth 32 = BitVec.ofInt 32 (x.toNat - y.toNat) := by
  rw [Int.sub_eq_add_neg, BitVec.ofInt_add, BitVec.ofInt_neg, BitVec.ofInt_natCast,
    BitVec.ofInt_natCast, BitVec.ofNat_toNat, BitVec.ofNat_toNat, BitVec.sub_eq_add_neg]

namespace Tb

theorem sweep_errN4Total (s : Stats) (v : Sample) :
    (sweep s v).errN4Total = s.errN4Total + BitVec.ofInt 32 |v.dev 4| := by
  simp only [sweep, setWidth_sub, gt_iff_lt, BitVec.lt_def, ← apply_ite (s.errN4Total + ·),
    ← apply_ite (BitVec.ofInt 32)]
  congr 2
  rw [Sample.dev]
  split
  · rw [abs_of_neg (by omega), neg_sub]
  · rw [abs_of_nonneg (by omega)]

/-- Both branches of the source add the deviation itself. -/
theorem sweep_errN6Total (s : Stats) (v : Sample) :
    (sweep s v).errN6Total = s.errN6Total + BitVec.ofInt 32 (v.dev 6) := by
  simp only [sweep, setWidth_sub, ite_self]
  rfl

theorem foldl_sweep (random : List Sample) (s : Stats) :
    (random.foldl sweep s).testCount = s.testCount + BitVec.ofNat 32 random.length ∧
    (random.foldl sweep s).errN4Total = s.errN4Total + BitVec.ofInt 32 (totalErr 4 random) ∧
    (random.foldl sweep s).errN6Total = s.errN6Total + BitVec.ofInt 32 (totalDev 6 random) := by
  induction random generalizing s with
  | nil => simp [totalErr, totalDev]
  | cons v random ih =>
    obtain ⟨hc, h4, h6⟩ := ih (sweep s v)
    simp only [List.foldl_cons, hc, h4, h6, sweep_errN4Total, sweep_errN6Total, totalErr, totalDev,
      List.map_cons, List.sum_cons, BitVec.ofInt_add, BitVec.add_assoc, List.length_cons,
      Nat.add_comm _ 1, BitVec.ofNat_add, and_self, and_true]
    exact BitVec.add_assoc _ _ _

theorem foldl_checkResult (directed : List Directed) (s : Stats) :
    (directed.foldl checkResult s).testCount = s.testCount + BitVec.ofNat 32 directed.length ∧
    (directed.foldl checkResult s).errN4Total = s.errN4Total ∧
    (directed.foldl checkResult s).errN6Total = s.errN6Total := by
  induction directed generalizing s with
  | nil => simp
  | cons d directed ih =>
    obtain ⟨hc, h4, h6⟩ := ih (checkResult s d)
    refine ⟨?_, h4, h6⟩
    rw [List.foldl_cons, hc, List.length_cons, Nat.add_comm, BitVec.ofNat_add, ← BitVec.add_assoc]
    rfl

theorem run_eq (directed : List Directed) (random : List Sample) :
    (run directed random).testCount = BitVec.ofNat 32 (directed.length + random.length) ∧
    (run directed random).errN4Total = BitVec.ofInt 32 (totalErr 4 random) ∧
    (run directed random).errN6Total = BitVec.ofInt 32 (totalDev 6 random) := by
  obtain ⟨hc, h4, h6⟩ := foldl_sweep random (directed.foldl checkResult init)
  obtain ⟨hdc, hd4, hd6⟩ := foldl_checkResult directed init
  rw [run, hc, h4, h6, hdc, hd4, hd6]
  simp [init, BitVec.ofNat_add]

end Tb

namespace Simulate

theorem addApproxHw_sample (v : Sample) (n : Nat) :
    (addApproxHw v.a.toNat v.b.toNat v.cin.toNat 16 n).1 = (v.sum n).toNat := by
  have hcin : Int.testBit v.cin.toNat 0 = v.cin := by cases v.cin <;> rfl
  rw [addApproxHw_eq, word, ofInt_toNat, ofInt_toNat, hcin]
  rfl

theorem randomTest_errTotal (s : Stats) (v : Sample) :
    (randomTest s v.a.toNat v.b.toNat v.cin.toNat).errN4Total = s.errN4Total + |v.dev 4| ∧
    (randomTest s v.a.toNat v.b.toNat v.cin.toNat).errN6Total = s.errN6Total + |v.dev 6| := by
  have h0 : (addApproxHw v.a.toNat v.b.toNat v.cin.toNat 16 0).1 = _ := addApproxHw_sample v 0
  have h4 : (addApproxHw v.a.toNat v.b.toNat v.cin.toNat 16 4).1 = _ := addApproxHw_sample v 4
  have h6 : (addApproxHw v.a.toNat v.b.toNat v.cin.toNat 16 6).1 = _ := addApproxHw_sample v 6
  simp only [randomTest, h0, h4, h6, Sample.dev, abs_sub_comm, and_self]

theorem foldl_randomTest (random : List Sample) (s : Stats) :
    (random.foldl (fun s v => randomTest s v.a.toNat v.b.toNat v.cin.toNat) s).errN4Total =
      s.errN4Total + totalErr 4 random ∧
    (random.foldl (fun s v => randomTest s v.a.toNat v.b.toNat v.cin.toNat) s).errN6Total =
      s.errN6Total + totalErr 6 random := by
  induction random generalizing s with
  | nil => simp [totalErr]
  | cons v random ih =>
    obtain ⟨h4, h6⟩ := ih (randomTest s v.a.toNat v.b.toNat v.cin.toNat)
    obtain ⟨hv4, hv6⟩ := randomTest_errTotal s v
    simp only [List.foldl_cons, h4, h6, hv4, hv6, totalErr, List.map_cons, List.sum_cons, add_assoc,
      and_self]

theorem foldl_directedTest (directed : List Directed) (s : Stats) :
    (directed.foldl (fun s d => directedTest s d.a.toNat d.b.toNat d.expected.toNat)
      s).errN4Total = s.errN4Total ∧
    (directed.foldl (fun s d => directedTest s d.a.toNat d.b.toNat d.expected.toNat)
      s).errN6Total = s.errN6Total := by
  induction directed generalizing s with
  | nil => exact ⟨rfl, rfl⟩
  | cons d directed ih => exact ih (directedTest s d.a.toNat d.b.toNat d.expected.toNat)

theorem run_eq (directed : List Directed) (random : List Sample) :
    (run directed random).errN4Total = totalErr 4 random ∧
    (run directed random).errN6Total = totalErr 6 random := by
  obtain ⟨hd4, hd6⟩ := foldl_directedTest directed init
  obtain ⟨h4, h6⟩ := foldl_randomTest random (directed.foldl (fun s d =>
    directedTest s d.a.toNat d.b.toNat d.expected.toNat) init)
  rw [run, h4, h6, hd4, hd6]
  simp [init]

end Simulate

/-! ## The averages -/

structure NoOverflow (directed : List Directed) (random : List Sample) : Prop where
  count : directed.length + random.length < 2 ^ 31
  errN4 : totalErr 4 random < 2 ^ 31
  errN6_lo : -2 ^ 31 ≤ totalDev 6 random
  errN6_hi : totalDev 6 random < 2 ^ 31

def meanErr (n : Nat) (random : List Sample) : ℚ := totalErr n random / random.length

/-- Both reports print the mean errors of the random vectors. -/
def AveragesAgree (directed : List Directed) (random : List Sample) : Prop :=
  (Tb.report directed random).avgN4 = (Simulate.runTbSimulation directed random).avgN4 ∧
  (Simulate.runTbSimulation directed random).avgN4 = some (meanErr 4 random) ∧
  (Tb.report directed random).avgN6 = (Simulate.runTbSimulation directed random).avgN6 ∧
  (Simulate.runTbSimulation directed random).avgN6 = some (meanErr 6 random)

/-! ### The sums over the vectors -/

section

variable {n : Nat} (random : List Sample)

theorem totalErr_eq_zero_iff (h0 : 0 < n) (hn : n < 16) :
    totalErr n random = 0 ↔ ∀ v ∈ random, v.low n = 0 := by
  refine ⟨fun h v hv => ?_, fun h => List.sum_eq_zero fun x hx => ?_⟩
  · have hpos : ∀ x ∈ random.map fun v => |v.dev n|, 0 ≤ x := by
      intro x hx
      obtain ⟨u, -, rfl⟩ := List.mem_map.1 hx
      exact abs_nonneg _
    have hzero := List.all_zero_of_le_zero_le_of_sum_eq_zero hpos h (List.mem_map_of_mem hv)
    exact (v.dev_eq_zero_iff h0 hn).1 (abs_eq_zero.1 hzero)
  · obtain ⟨v, hv, rfl⟩ := List.mem_map.1 hx
    exact abs_eq_zero.2 ((v.dev_eq_zero_iff h0 hn).2 (h v hv))

theorem abs_totalDev_le : |totalDev n random| ≤ totalErr n random := by
  induction random with
  | nil => rfl
  | cons v random ih =>
    simp only [totalDev, totalErr, List.map_cons, List.sum_cons] at ih ⊢
    exact (abs_add_le _ _).trans (by omega)

theorem totalDev_eq_iff : totalDev n random = totalErr n random ↔ ∀ v ∈ random, 0 ≤ v.dev n := by
  refine ⟨fun h v hv => ?_, fun h => ?_⟩
  · by_contra hneg
    have hlt : v.dev n < |v.dev n| := lt_abs.2 (.inr (by omega))
    have := List.sum_lt_sum (fun v : Sample => v.dev n) (fun v => |v.dev n|)
      (fun _ _ => le_abs_self _) ⟨v, hv, hlt⟩
    exact absurd h (ne_of_lt this)
  · exact congrArg List.sum (List.map_congr_left fun v hv => (abs_of_nonneg (h v hv)).symm)

/-- The truncation of six bits hides at least what the truncation of four does. -/
theorem totalErr_four (h : totalErr 6 random = 0) : totalErr 4 random = 0 := by
  rw [totalErr_eq_zero_iff _ (by decide) (by decide)] at h ⊢
  exact fun v hv => v.low_four (h v hv)

theorem totalErr_nonneg : 0 ≤ totalErr n random := by
  refine List.sum_nonneg fun x hx => ?_
  obtain ⟨v, -, rfl⟩ := List.mem_map.1 hx
  exact abs_nonneg _

end

/-- An error is below `2 ^ 16`, so short runs do not overflow; the scripts run 104 vectors. -/
theorem noOverflow_of_length {directed : List Directed} {random : List Sample}
    (h : directed.length + random.length ≤ 2 ^ 15) : NoOverflow directed random := by
  have hbound (n : Nat) (v : Sample) : |v.dev n| ≤ 2 ^ 16 - 1 := by
    have h0 := (v.sum 0).isLt
    have hn := (v.sum n).isLt
    rw [Sample.dev, abs_le]
    omega
  have herr (n : Nat) : totalErr n random ≤ random.length * (2 ^ 16 - 1) := by
    have := List.sum_le_card_nsmul (random.map fun v => |v.dev n|) (2 ^ 16 - 1) (by
      intro x hx
      obtain ⟨v, -, rfl⟩ := List.mem_map.1 hx
      exact hbound n v)
    simpa [totalErr] using this
  have h4 := herr 4
  have h6 := herr 6
  have hdev := abs_le.1 (abs_totalDev_le (n := 6) random)
  exact ⟨by omega, by omega, by omega, by omega⟩

/-! ### What is printed -/

section

variable (directed : List Directed) (random : List Sample)

theorem tb_averages (h : NoOverflow directed random) :
    (Tb.report directed random).avgN4 = (if directed.length + random.length = 0 then none
      else some ((totalErr 4 random : ℚ) / (directed.length + random.length : Nat))) ∧
    (Tb.report directed random).avgN6 = (if directed.length + random.length = 0 then none
      else some ((totalDev 6 random : ℚ) / (directed.length + random.length : Nat))) := by
  obtain ⟨hc, h4, h6⟩ := Tb.run_eq directed random
  have hcount := h.count
  have hzero : BitVec.ofNat 32 (directed.length + random.length) = 0 ↔
      directed.length + random.length = 0 := by
    rw [← BitVec.toNat_inj, BitVec.toNat_ofNat, Nat.mod_eq_of_lt (by omega)]
    rfl
  have htoInt : (BitVec.ofNat 32 (directed.length + random.length)).toInt =
      ((directed.length + random.length : Nat) : Int) := by
    rw [← BitVec.ofInt_natCast, BitVec.toInt_ofInt_eq_self (by decide) (by omega) (by omega)]
  have hn4 := totalErr_nonneg (n := 4) random
  have hmax := h.errN4
  have hlo := h.errN6_lo
  have hhi := h.errN6_hi
  simp only [Tb.report, Tb.average, hc, h4, h6, hzero, htoInt]
  rw [BitVec.toInt_ofInt_eq_self (by decide) (by omega) (by omega),
    BitVec.toInt_ofInt_eq_self (by decide) (by omega) (by omega)]
  exact ⟨rfl, rfl⟩

theorem simulate_averages :
    (Simulate.runTbSimulation directed random).avgN4 = some ((totalErr 4 random : ℚ) / 100) ∧
    (Simulate.runTbSimulation directed random).avgN6 = some ((totalErr 6 random : ℚ) / 100) := by
  obtain ⟨h4, h6⟩ := Simulate.run_eq directed random
  simp only [Simulate.runTbSimulation, h4, h6, and_self]

end

/-- Dividing a nonzero error sum by the literal 100 gives the mean only for 100 vectors. -/
theorem length_of_mean {e : Int} {r : Nat} (he : e ≠ 0) (h : (e : ℚ) / 100 = e / r) : r = 100 := by
  have he' : (e : ℚ) ≠ 0 := by exact_mod_cast he
  have hr : (r : ℚ) ≠ 0 := by
    intro h0
    rw [h0, div_zero] at h
    exact absurd h (div_ne_zero he' (by norm_num))
  rw [div_eq_div_iff (by norm_num) hr] at h
  exact_mod_cast mul_left_cancel₀ he' h

/-- A sum of deviations that is divided by more vectors reaches the mean error only if it is the
error sum and there are no more vectors. -/
theorem dev_of_mean {e s : Int} {d : Nat} (he : 0 < e) (hs : s ≤ e)
    (h : (s : ℚ) / (d + 100 : Nat) = e / 100) : d = 0 ∧ s = e := by
  rw [div_eq_div_iff (by positivity) (by norm_num)] at h
  have h' : s * 100 = e * (d + 100 : Nat) := by exact_mod_cast h
  push_cast at h'
  have hd : e * (d : Int) ≤ 0 := by linarith
  have hd0 : (d : Int) ≤ 0 := nonpos_of_mul_nonpos_right hd he
  obtain rfl : d = 0 := by omega
  refine ⟨rfl, ?_⟩
  push_cast at h'
  linarith

/-- **The printed averages.** Both reports print the mean errors exactly if no vector loses
anything in its low six bits, or no directed vector was counted, the sweep has the 100 vectors
of the literal, and every vector either loses nothing or has passed `2 ^ 16` by less than it
loses. -/
theorem averages_iff {directed : List Directed} {random : List Sample}
    (h : NoOverflow directed random) :
    AveragesAgree directed random ↔
      (directed.length + random.length ≠ 0 ∧
        ∀ v ∈ random, v.a.toNat % 2 ^ 6 + v.b.toNat % 2 ^ 6 + v.cin.toNat = 0) ∨
      (directed = [] ∧ random.length = 100 ∧
        ∀ v ∈ random, v.a.toNat % 2 ^ 6 + v.b.toNat % 2 ^ 6 + v.cin.toNat = 0 ∨
          (v.a.toNat + v.b.toNat + v.cin.toNat) % 2 ^ 16 <
            v.a.toNat % 2 ^ 6 + v.b.toNat % 2 ^ 6 + v.cin.toNat) := by
  have hzero := totalErr_eq_zero_iff (n := 6) random (by decide) (by decide)
  have hdev := totalDev_eq_iff (n := 6) random
  simp only [Sample.dev_nonneg_iff _ (show 0 < 6 by decide) (show 6 < 16 by decide)] at hdev
  simp only [Sample.low] at hzero hdev
  rw [← hzero, ← hdev]
  obtain ⟨ht4, ht6⟩ := tb_averages _ _ h
  obtain ⟨hs4, hs6⟩ := simulate_averages directed random
  unfold AveragesAgree
  rw [ht4, ht6, hs4, hs6, meanErr, meanErr]
  constructor
  · rintro ⟨h4, -, h6, hm⟩
    have hcount : directed.length + random.length ≠ 0 := by
      intro h0
      rw [if_pos h0] at h4
      cases h4
    rw [if_neg hcount, Option.some_inj] at h6
    rw [Option.some_inj] at hm
    by_cases he : totalErr 6 random = 0
    · exact .inl ⟨hcount, he⟩
    · have hr := length_of_mean he hm
      have hpos := totalErr_nonneg (n := 6) random
      rw [hr] at h6
      obtain ⟨hd, hs⟩ := dev_of_mean (by omega) (abs_le.1 (abs_totalDev_le random)).2 h6
      exact .inr ⟨List.eq_nil_of_length_eq_zero hd, hr, hs⟩
  · rintro (⟨hcount, he⟩ | ⟨rfl, hr, hs⟩)
    · have hs : totalDev 6 random = totalErr 6 random :=
        hdev.2 fun v hv => .inl (hzero.1 he v hv)
      rw [if_neg hcount, if_neg hcount, hs, he, totalErr_four random he]
      simp
    · rw [hs, hr]
      simp

def directedTests : List Directed :=
  [⟨0x0000, 0x0000, 0x0000⟩, ⟨0x1800, 0x2400, 0x3C00⟩, ⟨0xE000, 0xD000, 0xB000⟩,
   ⟨0x7FFF, 0x0001, 0x8000⟩]

theorem averages_iff_aligned : AveragesAgree directedTests [⟨0x1800, 0x2400, false⟩] :=
  (averages_iff (noOverflow_of_length (by decide))).2 (.inl (by decide))

/-- A hundred times the vector `1 + 0`. -/
def onesSweep : List Sample := List.replicate 100 ⟨1, 0, false⟩

theorem dev_one {n : Nat} (h0 : 0 < n) (hn : n < 16) : Sample.dev ⟨1, 0, false⟩ n = -1 := by
  have hlow : Sample.low ⟨1, 0, false⟩ n = 1 := by
    have : 1 % 2 ^ n = 1 := Nat.mod_eq_of_lt (Nat.one_lt_two_pow (by omega))
    simp [Sample.low, this]
  have hsum : (Sample.sum ⟨1, 0, false⟩ 0).toNat = 1 := by
    rw [Sample.sum_zero]
    rfl
  rw [Sample.dev_eq _ h0 hn, hlow, hsum]
  rfl

theorem total_onesSweep {n : Nat} (h0 : 0 < n) (hn : n < 16) :
    totalErr n onesSweep = 100 ∧ totalDev n onesSweep = -100 := by
  simp only [totalErr, totalDev, onesSweep, List.map_replicate, List.sum_replicate, dev_one h0 hn]
  decide

/-- With the four directed cases and `onesSweep` the mean errors are 1; the testbench prints 25/26
and -25/26. -/
theorem averages_differ :
    (Tb.report directedTests onesSweep).avgN4 = some (25 / 26) ∧
    (Simulate.runTbSimulation directedTests onesSweep).avgN4 = some 1 ∧
    (Tb.report directedTests onesSweep).avgN6 = some (-(25 / 26)) ∧
    (Simulate.runTbSimulation directedTests onesSweep).avgN6 = some 1 ∧
    NoOverflow directedTests onesSweep ∧ ¬ AveragesAgree directedTests onesSweep := by
  have hfit : NoOverflow directedTests onesSweep := noOverflow_of_length (by decide)
  have hcount : directedTests.length + onesSweep.length = 104 := rfl
  obtain ⟨ht4, ht6⟩ := tb_averages _ _ hfit
  obtain ⟨hs4, hs6⟩ := simulate_averages directedTests onesSweep
  obtain ⟨he4, -⟩ := total_onesSweep (n := 4) (by decide) (by decide)
  obtain ⟨he6, hd6⟩ := total_onesSweep (n := 6) (by decide) (by decide)
  rw [hcount, if_neg (by decide), he4] at ht4
  rw [hcount, if_neg (by decide), hd6] at ht6
  rw [he4] at hs4
  rw [he6] at hs6
  norm_num at ht4 ht6 hs4 hs6
  refine ⟨ht4, hs4, ht6, hs6, hfit, fun h => ?_⟩
  have := h.1
  rw [ht4, hs4, Option.some_inj] at this
  norm_num at this

end CimSigmoid.Adder
