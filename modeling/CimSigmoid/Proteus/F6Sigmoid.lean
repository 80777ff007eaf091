import CimSigmoid.Proteus.Bbop
import Mathlib.Algebra.Order.Floor.Semifield
import Mathlib.Data.Rat.Floor
import Mathlib.Tactic.IntervalCases
import Mathlib.Tactic.Linarith
import Mathlib.Tactic.Ring

/-!
# f6 as bbop operations

`f6_sigmoid_array_pim` decomposes `f6` into eleven bbop operations and a capping loop
on the CPU. All loops are element-wise, so the arrays at one index go through a
straight-line program of their own (`column_f6SigmoidArrayPim`); its last steps add
numerator and denominator where the formula divides them. The scalar function is read
in exact arithmetic.
-/

namespace CimSigmoid.Proteus

open Mem BbopOperation

inductive Buf where
  | input | output | x2 | x3 | term60x | term12x2 | term24x2 | numerator | denominator | temp
  | const60 | const12 | const24 | const120 | const240
  deriving DecidableEq, Repr

def loadConstants (v : Buf → Word) : Buf → Word
  | .const60 => 60
  | .const12 => 12
  | .const24 => 24
  | .const120 => 120
  | .const240 => 240
  | b => v b

def capAtOne (v : Buf → Word) : Buf → Word :=
  if v .output > 1 then Function.update v .output 1 else v

/-- `f6_sigmoid_array_pim`; `s` gives the schedule of each bbop by its id. -/
def f6SigmoidArrayPim (size : Nat) (s : Nat → Schedule size) (M : Buf → Nat → Word) :
    Buf → Nat → Word :=
  let M := loop loadConstants (.sequential size) M
  let M := bbopOp bbopMul .input .input .x2 (s 0) M
  let M := bbopOp bbopMul .x2 .input .x3 (s 1) M
  let M := bbopOp bbopMul .const60 .input .term60x (s 2) M
  let M := bbopOp bbopMul .const12 .x2 .term12x2 (s 3) M
  let M := bbopOp bbopAdd .const120 .term60x .numerator (s 4) M
  let M := bbopOp bbopAdd .numerator .term12x2 .temp (s 5) M
  let M := bbopOp bbopAdd .temp .x3 .numerator (s 6) M
  let M := bbopOp bbopMul .const24 .x2 .term24x2 (s 7) M
  let M := bbopOp bbopAdd .const240 .term24x2 .denominator (s 8) M
  let M := bbopOp bbopDiv .numerator .denominator .output (s 9) M
  let M := bbopOp bbopRelu .output .output .output (s 10) M
  loop capAtOne (.sequential size) M

/-- The same program on the values of all arrays at one index. -/
def f6Column (v : Buf → Word) : Buf → Word :=
  let v := loadConstants v
  let v := bbopMul.body .input .input .x2 v
  let v := bbopMul.body .x2 .input .x3 v
  let v := bbopMul.body .const60 .input .term60x v
  let v := bbopMul.body .const12 .x2 .term12x2 v
  let v := bbopAdd.body .const120 .term60x .numerator v
  let v := bbopAdd.body .numerator .term12x2 .temp v
  let v := bbopAdd.body .temp .x3 .numerator v
  let v := bbopMul.body .const24 .x2 .term24x2 v
  let v := bbopAdd.body .const240 .term24x2 .denominator v
  let v := bbopDiv.body .numerator .denominator .output v
  let v := bbopRelu.body .output .output .output v
  capAtOne v

/-- At every index below `size` the arrays run the straight-line program, whatever the schedules. -/
theorem column_f6SigmoidArrayPim (size : Nat) (s : Nat → Schedule size) (M : Buf → Nat → Word)
    {i : Nat} (hi : i < size) :
    column (f6SigmoidArrayPim size s M) i = f6Column (column M i) := by
  simp only [f6SigmoidArrayPim, f6Column, bbopOp, column_loop _ _ _ hi]

/-! ## The value at one index -/

/-- The word the division branch stores. -/
def quotientWord (x : Word) : Word :=
  let numerator := 120 + 60 * x + 12 * (x * x) + x * x * x
  let denominator := 240 + 24 * (x * x)
  if denominator > 0 then numerator + denominator else 0

theorem mmax_zero (a : Word) : mmax 0 a = a := by
  have : ¬ (0 : Word) > a := by simp
  rw [mmax, if_neg this]

theorem capAtOne_output (v : Buf → Word) :
    capAtOne v .output = if v .output > 1 then 1 else v .output := by
  unfold capAtOne
  split
  · exact Function.update_self ..
  · rfl

theorem f6Column_output (v : Buf → Word) :
    f6Column v .output = if quotientWord (v .input) > 1 then 1 else quotientWord (v .input) := by
  simp only [f6Column, capAtOne_output, body, element, Function.update_apply, reduceCtorEq,
    if_true, if_false, loadConstants, mmax_zero]
  rfl

/-- Numerator and denominator of f6 on integers. -/
def p6 (x : Nat) : Nat := 120 + 60 * x + 12 * x ^ 2 + x ^ 3

def q6 (x : Nat) : Nat := 240 + 24 * x ^ 2

/-- Neither exceeds `2 ^ 32 - 1`. -/
def InRange (x : Word) : Prop := p6 x.toNat ≤ 2 ^ 32 - 1 ∧ q6 x.toNat ≤ 2 ^ 32 - 1

instance (x : Word) : Decidable (InRange x) := inferInstanceAs (Decidable (_ ∧ _))

theorem InRange.le {x : Word} (h : InRange x) : x.toNat ≤ 1621 := by
  by_contra hx
  have h3 : 1622 ^ 3 ≤ x.toNat ^ 3 := Nat.pow_le_pow_left (by omega) 3
  have h2 : 1622 ^ 2 ≤ x.toNat ^ 2 := Nat.pow_le_pow_left (by omega) 2
  have := h.1
  unfold p6 at this
  omega

/-- The words of the program are the integers of the formula, modulo `2 ^ 32`. -/
theorem quotientWord_eq {x : Word} (h : InRange x) :
    quotientWord x = BitVec.ofNat 32 (p6 x.toNat + q6 x.toNat) := by
  obtain ⟨n, hn⟩ : ∃ n, n = x.toNat := ⟨_, rfl⟩
  have hx : x = BitVec.ofNat 32 n := by rw [hn, BitVec.ofNat_toNat, BitVec.setWidth_eq]
  have hd : 240 + 24 * (x * x) = BitVec.ofNat 32 (q6 n) := by
    rw [hx, q6, Nat.pow_two]
    simp only [BitVec.ofNat_add, BitVec.ofNat_mul]
    rfl
  have hp : 120 + 60 * x + 12 * (x * x) + x * x * x = BitVec.ofNat 32 (p6 n) := by
    rw [hx, p6, Nat.pow_two, Nat.pow_succ, Nat.pow_two]
    simp only [BitVec.ofNat_add, BitVec.ofNat_mul]
    rfl
  have hq : 240 ≤ q6 n := Nat.le_add_right ..
  have hr : q6 n ≤ 2 ^ 32 - 1 := hn ▸ h.2
  have hpos : BitVec.ofNat 32 (q6 n) > 0 := by
    rw [gt_iff_lt, BitVec.lt_def, BitVec.toNat_ofNat, Nat.mod_eq_of_lt (by omega)]
    exact Nat.lt_of_lt_of_le (by decide) hq
  simp only [quotientWord]
  rw [hd, hp, if_pos hpos, ← BitVec.ofNat_add, hn]

/-- Numerator plus denominator, even where the sum wraps, is above 1. -/
theorem two_le_sum_mod {n : Nat} (hn : n ≤ 1621) : 2 ≤ (p6 n + q6 n) % 2 ^ 32 := by
  by_cases h : n ≤ 1612
  · have h3 : n ^ 3 ≤ 1612 ^ 3 := Nat.pow_le_pow_left h 3
    have h2 : n ^ 2 ≤ 1612 ^ 2 := Nat.pow_le_pow_left h 2
    have hlt : p6 n + q6 n < 2 ^ 32 := by
      unfold p6 q6
      omega
    rw [Nat.mod_eq_of_lt hlt, p6]
    omega
  · interval_cases n <;> decide

/-- In range, the program outputs 1. -/
theorem f6Column_output_eq_one {v : Buf → Word} (h : InRange (v .input)) :
    f6Column v .output = 1 := by
  have hs := two_le_sum_mod h.le
  have hgt : quotientWord (v .input) > 1 := by
    rw [quotientWord_eq h, gt_iff_lt, BitVec.lt_def, BitVec.toNat_ofNat]
    exact hs
  rw [f6Column_output, if_pos hgt]

/-! ## The formula -/

/-- `f6_sigmoid_scalar`, in exact arithmetic. -/
def f6SigmoidScalar (x : ℚ) : ℚ :=
  let x2 := x * x
  let x3 := x2 * x
  let numerator := 120 + 60 * x + 12 * x2 + x3
  let denominator := 240 + 24 * x2
  let result := numerator / denominator
  if result < 0 then 0 else if result > 1 then 1 else result

def f6Floor (x : Nat) : Nat := min (p6 x / q6 x) 1

theorem q6_pos (x : Nat) : 0 < q6 x := Nat.lt_of_lt_of_le (by decide) (Nat.le_add_right 240 _)

/-- `f6Floor` is the integer part of the scalar function on natural numbers. -/
theorem floor_f6SigmoidScalar (x : Nat) : ⌊f6SigmoidScalar x⌋₊ = f6Floor x := by
  have hr : (120 + 60 * (x : ℚ) + 12 * (x * x) + x * x * x) / (240 + 24 * (x * x)) =
      (p6 x : ℚ) / (q6 x : ℚ) := by
    unfold p6 q6
    push_cast
    ring
  have hq : (0 : ℚ) < q6 x := by exact_mod_cast q6_pos x
  have h0 : ¬ (p6 x : ℚ) / (q6 x : ℚ) < 0 := by
    rw [not_lt]
    positivity
  simp only [f6SigmoidScalar]
  rw [hr, if_neg h0, f6Floor]
  split
  · rename_i h1
    have hle : 1 ≤ p6 x / q6 x := by
      rw [Nat.one_le_div_iff (q6_pos x)]
      exact_mod_cast (one_le_div hq).mp h1.le
    rw [Nat.floor_one, min_eq_right hle]
  · rename_i h1
    have hle : p6 x / q6 x ≤ 1 := by
      have h := Nat.floor_le_floor (not_lt.mp h1)
      rwa [Nat.floor_div_eq_div, Nat.floor_one] at h
    rw [Nat.floor_div_eq_div, min_eq_left hle]

theorem f6Floor_eq_one_iff (x : Nat) : f6Floor x = 1 ↔ 5 ≤ x := by
  have h1 : f6Floor x = 1 ↔ q6 x ≤ p6 x := by
    rw [← Nat.one_le_div_iff (q6_pos x), f6Floor]
    omega
  rw [h1]
  unfold p6 q6
  constructor
  · intro h
    by_contra hx
    have : x ≤ 4 := by omega
    interval_cases x <;> omega
  · intro hx
    nlinarith [Nat.mul_le_mul hx hx, mul_self_nonneg ((x : ℤ) - 6)]

/-- **On every array of in-range inputs, whatever the schedules and the contents of the other
arrays, the outputs are the integer parts of f6 exactly when every input is at least 5.** The
integer parts are those of the scalar function. -/
theorem outputs_iff (size : Nat) (s : Nat → Schedule size) (M : Buf → Nat → Word)
    (hr : ∀ i < size, InRange (M .input i)) :
    ((∀ i < size, (f6SigmoidArrayPim size s M .output i).toNat = f6Floor (M .input i).toNat) ↔
      ∀ i < size, 5 ≤ (M .input i).toNat) ∧
    ∀ i < size, f6Floor (M .input i).toNat = ⌊f6SigmoidScalar (M .input i).toNat⌋₊ := by
  refine ⟨forall₂_congr fun i hi => ?_, fun i _ => (floor_f6SigmoidScalar _).symm⟩
  have hc := congrFun (column_f6SigmoidArrayPim size s M hi) .output
  have ho : f6SigmoidArrayPim size s M .output i = 1 :=
    hc.trans (f6Column_output_eq_one (hr i hi))
  rw [ho, ← f6Floor_eq_one_iff]
  exact eq_comm

theorem outputs_iff_seven :
    InRange 7 ∧ ∀ i < 3,
      (f6SigmoidArrayPim 3 (fun _ => .sequential 3) (fun _ _ => 7) .output i).toNat =
        f6Floor (7 : Word).toNat :=
  ⟨by decide, (outputs_iff 3 (fun _ => .sequential 3) (fun _ _ => 7) (by decide)).1.2 (by decide)⟩

/-- At input 0 the formula is 120 / 240, with integer part 0; the program adds 120 and 240 and
outputs 1. -/
theorem output_of_zero :
    InRange 0 ∧ f6Floor (0 : Word).toNat = 0 ∧
      (f6SigmoidArrayPim 1 (fun _ => .sequential 1) (fun _ _ => 0) .output 0).toNat = 1 := by
  decide

end CimSigmoid.Proteus
