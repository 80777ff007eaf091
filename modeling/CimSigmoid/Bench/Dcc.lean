import CimSigmoid.Loops.While
import CimSigmoid.Text.Numeral
import Mathlib.Data.BitVec

/-!
# Numbers on the debug channel

`dcc_uint` and `dcc_int` of `fast_Vaisnav16/sigmoid_bench.c` print a number over the
debug communication channel: one loop puts the digits into a buffer of 12 bytes, least
significant first, another sends the buffer from its end. An access outside the buffer
has no result here, and neither has a loop that runs out of fuel. `char` is unsigned,
as on ARM, and `-val` wraps around.

The digit loop keeps the digits of the argument as what the buffer holds followed by
the digits of the rest (`DigitInv`), and the sending loop keeps the buffer in front of
what is sent (`SendInv`).
-/

namespace CimSigmoid.Bench

open Loops Text

/-! ## The program -/

/-- The local variables of the two functions and the words written to `DCC_TX`. -/
structure Printer where
  buf : Fin 12 → BitVec 8
  i : Nat
  v : BitVec 32
  tx : List (BitVec 32)

def txWord (c : BitVec 8) : BitVec 32 := c.setWidth 32

def dccOutchar (c : BitVec 8) (tx : List (BitVec 32)) : List (BitVec 32) := tx ++ [txWord c]

namespace Printer

/-- `buf[i++] = c`. -/
def push (c : BitVec 8) (s : Printer) : Option Printer :=
  if h : s.i < 12 then some { s with buf := Function.update s.buf ⟨s.i, h⟩ c, i := s.i + 1 }
  else none

/-- `buf[i++] = '0' + (v % 10); v /= 10`. -/
def pushDigit (s : Printer) : Option Printer :=
  (s.push ((0x30 + s.v % 10).setWidth 8)).map fun s => { s with v := s.v / 10 }

/-- `dcc_outchar(buf[--i])`. -/
def pop (s : Printer) : Option Printer :=
  if h : 0 < s.i ∧ s.i ≤ 12 then
    some { s with i := s.i - 1, tx := dccOutchar (s.buf ⟨s.i - 1, by omega⟩) s.tx }
  else none

def fill (fuel : Nat) (s : Printer) : Option Printer :=
  if s.v = 0 then s.push 0x30 else whileLoop (fun s => decide (0 < s.v)) pushDigit fuel s

def send (fuel : Nat) (s : Printer) : Option Printer :=
  whileLoop (fun s => decide (0 < s.i)) pop fuel s

end Printer

/-- `dcc_uint`; `buf` is what the uninitialised buffer holds. -/
def dccUint (fuel : Nat) (buf : Fin 12 → BitVec 8) (v : BitVec 32) (tx : List (BitVec 32)) :
    Option (List (BitVec 32)) :=
  (((⟨buf, 0, v, tx⟩ : Printer).fill fuel).bind fun s => s.send fuel).map (·.tx)

def dccInt (fuel : Nat) (buf : Fin 12 → BitVec 8) (val : BitVec 32) (tx : List (BitVec 32)) :
    Option (List (BitVec 32)) :=
  let neg := val.slt 0
  let v := if neg then -val else val
  (((⟨buf, 0, v, tx⟩ : Printer).fill fuel).bind fun s =>
    (if neg then { s with tx := dccOutchar 0x2D s.tx } else s).send fuel).map (·.tx)

/-! ## Decimal numerals -/

def digitChar (d : Nat) : BitVec 8 := BitVec.ofNat 8 (48 + d)

def digitOf (c : BitVec 8) : Option Nat :=
  if 48 ≤ c.toNat ∧ c.toNat ≤ 57 then some (c.toNat - 48) else none

def decimal (n : Nat) : List (BitVec 8) := numeral 10 digitChar n

def signedDecimal (z : Int) : List (BitVec 8) :=
  if z < 0 then 0x2D :: decimal z.natAbs else decimal z.natAbs

def readSigned : List (BitVec 8) → Option Int
  | [] => none
  | c :: cs =>
    if c = 0x2D then (readNat 10 digitOf cs).map fun n : Nat => -(n : Int)
    else (readNat 10 digitOf (c :: cs)).map Int.ofNat

theorem digitOf_digitChar : ∀ d < 10, digitOf (digitChar d) = some d := by decide

theorem readNat_decimal (n : Nat) : readNat 10 digitOf (decimal n) = some n :=
  readNat_numeral (by decide) digitOf_digitChar n

/-- No numeral but that of zero begins with a zero, and none with a minus sign. -/
theorem decimal_cons (n : Nat) : ∃ d cs, decimal n = digitChar d :: cs ∧ d < 10 ∧
    (d = 0 ↔ n = 0) := by
  by_cases hn : n = 0
  · exact ⟨0, [], by rw [decimal, numeral, if_pos hn], by decide, by simp [hn]⟩
  · obtain ⟨d, h0, hd, hh⟩ := numeral_head (b := 10) (by decide) hn
    obtain ⟨cs, hcs⟩ := List.head?_eq_some_iff.1 hh
    exact ⟨d, cs, hcs, hd, by omega⟩

theorem digitChar_ne_minus : ∀ d < 10, digitChar d ≠ 0x2D := by decide

theorem digitChar_eq_zero_iff : ∀ d < 10, (digitChar d = 0x30 ↔ d = 0) := by decide

theorem decimal_head_zero_iff (n : Nat) : (decimal n).head? = some 0x30 ↔ n = 0 := by
  obtain ⟨d, cs, hcs, hd, h0⟩ := decimal_cons n
  rw [hcs, List.head?_cons, Option.some_inj, digitChar_eq_zero_iff d hd, h0]

theorem readSigned_signedDecimal (z : Int) : readSigned (signedDecimal z) = some z := by
  unfold signedDecimal
  split
  · rw [readSigned, if_pos rfl, readNat_decimal, Option.map_some]
    congr 1
    omega
  · obtain ⟨d, cs, hcs, hd, -⟩ := decimal_cons z.natAbs
    have hr := readNat_decimal z.natAbs
    rw [hcs] at hr ⊢
    rw [readSigned, if_neg (digitChar_ne_minus d hd), hr, Option.map_some]
    congr 1
    exact Int.natAbs_of_nonneg (by omega)

/-! ## The buffer -/

namespace Printer

def Holds (s : Printer) (cs : List (BitVec 8)) : Prop :=
  cs.length = s.i ∧ ∀ j c, cs[j]? = some c → ∃ h : j < 12, s.buf ⟨j, h⟩ = c

theorem push_holds {s : Printer} {cs : List (BitVec 8)} (c : BitVec 8) (hs : s.Holds cs)
    (hi : s.i < 12) : ∃ s', s.push c = some s' ∧ s'.Holds (cs ++ [c]) ∧ s'.v = s.v ∧
      s'.tx = s.tx := by
  obtain ⟨hlen, hbuf⟩ := hs
  refine ⟨_, dif_pos hi, ⟨by simp [hlen], fun j c' hj => ?_⟩, rfl, rfl⟩
  rw [List.getElem?_append] at hj
  split at hj
  · rename_i hlt
    obtain ⟨h, hc⟩ := hbuf j c' hj
    have hne : (⟨j, h⟩ : Fin 12) ≠ ⟨s.i, hi⟩ := Fin.ne_of_val_ne (by show j ≠ s.i; omega)
    exact ⟨h, (Function.update_of_ne hne ..).trans hc⟩
  · have hj' : j = s.i := by
      have := List.getElem?_eq_some_iff.1 hj
      simp at this
      omega
    subst hj'
    refine ⟨hi, ?_⟩
    rw [hlen, Nat.sub_self] at hj
    cases hj
    exact Function.update_self ..

theorem pop_holds {s : Printer} {cs : List (BitVec 8)} {c : BitVec 8}
    (hs : s.Holds (cs ++ [c])) :
    ∃ s', s.pop = some s' ∧ s'.Holds cs ∧ s'.tx = s.tx ++ [txWord c] := by
  obtain ⟨hlen, hbuf⟩ := hs
  have hi : s.i = cs.length + 1 := by simpa using hlen.symm
  obtain ⟨h, hc⟩ := hbuf (s.i - 1) c (by simp [hi])
  have hin : 0 < s.i ∧ s.i ≤ 12 := by omega
  refine ⟨_, dif_pos hin, ⟨(Nat.sub_eq_of_eq_add hi).symm, fun j c' hj => hbuf j c' ?_⟩,
    by rw [hc]; rfl⟩
  have hlt := (List.getElem?_eq_some_iff.1 hj).1
  rwa [List.getElem?_append_left hlt]

/-! ## The digit loop -/

/-- The digits of `n` are the `ds` in the buffer and the digits of `v`. -/
def DigitInv (n : Nat) (tx : List (BitVec 32)) (s : Printer) : Prop :=
  ∃ ds, s.Holds (ds.map digitChar) ∧ Nat.digits 10 n = ds ++ Nat.digits 10 s.v.toNat ∧ s.tx = tx

theorem digit_toNat (v : BitVec 32) : (0x30 + v % 10).setWidth 8 = digitChar (v.toNat % 10) := by
  apply BitVec.eq_of_toNat_eq
  have h : (v % 10).toNat = v.toNat % 10 := BitVec.toNat_umod
  have hlt : v.toNat % 10 < 10 := Nat.mod_lt _ (by decide)
  rw [BitVec.toNat_setWidth, BitVec.toNat_add, h, digitChar, BitVec.toNat_ofNat]
  show (48 + v.toNat % 10) % 2 ^ 32 % 2 ^ 8 = _
  omega

theorem length_digits_le (v : BitVec 32) : (Nat.digits 10 v.toNat).length ≤ 10 := by
  have := v.isLt
  exact (Nat.digits_length_le_iff (by decide) _).2 (by omega)

theorem pushDigit_inv {n : Nat} (hn : (Nat.digits 10 n).length ≤ 10) {tx : List (BitVec 32)}
    {s : Printer} (hs : DigitInv n tx s) (hv : decide (0 < s.v) = true) :
    ∃ s', s.pushDigit = some s' ∧ DigitInv n tx s' ∧
      (Nat.digits 10 s'.v.toNat).length < (Nat.digits 10 s.v.toNat).length := by
  obtain ⟨ds, hh, hd, htx⟩ := hs
  have hpos : 0 < s.v.toNat := by simpa [BitVec.lt_def] using hv
  have hcons := Nat.digits_def' (b := 10) (by decide) hpos
  have hi : s.i < 12 := by
    have hlen := congrArg List.length hd
    rw [List.length_append] at hlen
    have := hh.1
    rw [List.length_map] at this
    omega
  obtain ⟨t, ht, hh', hv', htx'⟩ := push_holds (digitChar (s.v.toNat % 10)) hh hi
  have hq : (t.v / 10).toNat = s.v.toNat / 10 := by rw [hv']; exact BitVec.toNat_udiv
  refine ⟨{ t with v := t.v / 10 }, ?_, ⟨ds ++ [s.v.toNat % 10], ?_, ?_, ?_⟩, ?_⟩
  · rw [pushDigit, digit_toNat, ht]
    rfl
  · rw [List.map_append]
    exact hh'
  · show Nat.digits 10 n = _ ++ Nat.digits 10 (t.v / 10).toNat
    rw [hd, hcons, hq, List.append_assoc]
    rfl
  · exact htx'.trans htx
  · show (Nat.digits 10 (t.v / 10).toNat).length < _
    rw [hq, hcons, List.length_cons]
    exact Nat.lt_succ_self _

/-- The digit loop leaves the numeral in the buffer, backwards. -/
theorem fill_holds (fuel : Nat) (buf : Fin 12 → BitVec 8) (v : BitVec 32)
    (tx : List (BitVec 32)) :
    ∃ s, (⟨buf, 0, v, tx⟩ : Printer).fill (fuel + 11) = some s ∧
      s.Holds (decimal v.toNat).reverse ∧ s.tx = tx := by
  have hempty : (⟨buf, 0, v, tx⟩ : Printer).Holds [] := ⟨rfl, fun j c hj => by simp at hj⟩
  unfold fill decimal numeral
  by_cases hv : v = 0
  · obtain ⟨s, hs, hh, -, htx⟩ := push_holds 0x30 hempty (Nat.zero_lt_succ 11)
    refine ⟨s, ?_, ?_, htx⟩
    · rw [if_pos hv]
      exact hs
    · rw [if_pos (by simp [hv])]
      exact hh
  · have hlen := length_digits_le v
    obtain ⟨s, ⟨ds, hh, hd, htx⟩, hc, hrun⟩ := whileLoop_total
      (μ := fun s : Printer => (Nat.digits 10 s.v.toNat).length)
      (fun s hs hc => pushDigit_inv hlen hs hc) (s := ⟨buf, 0, v, tx⟩) ⟨[], hempty, rfl, rfl⟩
    have hz : s.v.toNat = 0 := by simpa [BitVec.lt_def] using hc
    rw [hz, Nat.digits_zero, List.append_nil] at hd
    refine ⟨s, ?_, ?_, htx⟩
    · rw [if_neg hv]
      exact hrun _ (by show (Nat.digits 10 v.toNat).length < _; omega)
    · rw [if_neg (by simpa [← BitVec.toNat_inj] using hv), List.reverse_reverse, hd]
      exact hh

/-! ## The sending loop -/

def SendInv (cs : List (BitVec 8)) (tx : List (BitVec 32)) (s : Printer) : Prop :=
  ∃ front back, cs = front ++ back ∧ s.Holds front ∧ s.tx = tx ++ back.reverse.map txWord

theorem pop_inv {cs : List (BitVec 8)} {tx : List (BitVec 32)} {s : Printer}
    (hs : SendInv cs tx s) (hi : decide (0 < s.i) = true) :
    ∃ s', s.pop = some s' ∧ SendInv cs tx s' ∧ s'.i < s.i := by
  obtain ⟨front, back, rfl, hh, htx⟩ := hs
  rcases List.eq_nil_or_concat front with rfl | ⟨front, c, hf⟩
  · have := hh.1
    simp at this hi
    omega
  · rw [List.concat_eq_append] at hf
    subst hf
    obtain ⟨s', hp, hh', htx'⟩ := pop_holds hh
    refine ⟨s', hp, ⟨front, c :: back, by simp, hh', ?_⟩, ?_⟩
    · rw [htx', htx]
      simp
    · have h1 := hh.1
      have h2 := hh'.1
      simp at h1
      omega

/-- The sending loop sends the buffer backwards. -/
theorem send_holds (fuel : Nat) {s : Printer} {cs : List (BitVec 8)} (hs : s.Holds cs)
    (hlen : cs.length ≤ 10) :
    ∃ s', s.send (fuel + 11) = some s' ∧ s'.tx = s.tx ++ cs.reverse.map txWord := by
  obtain ⟨s', ⟨front, back, hcs, hh, htx⟩, hc, hrun⟩ := whileLoop_total
    (μ := fun s : Printer => s.i) (fun t ht hc => pop_inv ht hc)
    (show SendInv cs s.tx s from ⟨cs, [], by simp, hs, by simp⟩)
  have hnil : front = [] := by
    have := hh.1
    simp at hc
    exact List.length_eq_zero_iff.1 (by omega)
  refine ⟨s', hrun _ (by have := hs.1; show s.i < _; omega), ?_⟩
  rw [htx, hcs, hnil, List.nil_append]

end Printer

/-! ## Both functions -/

theorem length_decimal_le (v : BitVec 32) : (decimal v.toNat).length ≤ 10 := by
  have h := Printer.length_digits_le v
  unfold decimal numeral
  split
  · simp
  · simpa using h

theorem dccUint_eq (fuel : Nat) (buf : Fin 12 → BitVec 8) (v : BitVec 32)
    (tx : List (BitVec 32)) :
    dccUint (fuel + 11) buf v tx = some (tx ++ (decimal v.toNat).map txWord) := by
  obtain ⟨s, hs, hh, htx⟩ := Printer.fill_holds fuel buf v tx
  obtain ⟨s', hs', htx'⟩ := Printer.send_holds fuel hh (by simpa using length_decimal_le v)
  rw [dccUint, hs, Option.bind_some, hs', Option.map_some, htx', htx, List.reverse_reverse]

/-- The magnitude `dcc_int` prints, that of the most negative number included. -/
theorem magnitude_toNat (val : BitVec 32) :
    (if val.slt 0 then -val else val).toNat = val.toInt.natAbs := by
  have hlt := val.isLt
  have hz : (0 : BitVec 32).toInt = 0 := rfl
  have hi := BitVec.toInt_eq_toNat_cond val
  cases hs : val.slt 0 with
  | true =>
    have hneg : val.toInt < 0 := by simpa [BitVec.slt, hz] using hs
    rw [if_pos rfl, BitVec.toNat_neg]
    split at hi <;> omega
  | false =>
    have hpos : ¬ val.toInt < 0 := by simpa [BitVec.slt, hz] using hs
    rw [if_neg Bool.false_ne_true]
    split at hi <;> omega

theorem dccInt_eq (fuel : Nat) (buf : Fin 12 → BitVec 8) (val : BitVec 32)
    (tx : List (BitVec 32)) :
    dccInt (fuel + 11) buf val tx = some (tx ++ (signedDecimal val.toInt).map txWord) := by
  obtain ⟨s, hs, hh, htx⟩ :=
    Printer.fill_holds fuel buf (if val.slt 0 then -val else val) tx
  have hlen := length_decimal_le (if val.slt 0 then -val else val)
  have hneg : (val.slt 0 = true) ↔ val.toInt < 0 := by simp [BitVec.slt]
  rw [dccInt, hs, Option.bind_some]
  rw [magnitude_toNat] at hh hlen
  by_cases h : val.slt 0 = true
  · obtain ⟨s', hs', htx'⟩ := Printer.send_holds fuel
      (s := { s with tx := dccOutchar 0x2D s.tx }) hh (by simpa using hlen)
    rw [if_pos h, hs', Option.map_some, htx', signedDecimal, if_pos (hneg.1 h), htx,
      List.reverse_reverse, dccOutchar]
    simp
  · obtain ⟨s', hs', htx'⟩ := Printer.send_holds fuel hh (by simpa using hlen)
    rw [if_neg h, hs', Option.map_some, htx', signedDecimal, if_neg (fun h' => h (hneg.2 h')), htx,
      List.reverse_reverse]

/-- **Numbers on the channel.** Whatever the buffer held, both functions finish without an access
outside it and send the canonical numeral of their argument, which reads back as the argument. -/
theorem dcc_numerals (fuel : Nat) (buf : Fin 12 → BitVec 8) (tx : List (BitVec 32)) :
    (∀ v : BitVec 32,
      dccUint (fuel + 11) buf v tx = some (tx ++ (decimal v.toNat).map txWord) ∧
      readNat 10 digitOf (decimal v.toNat) = some v.toNat ∧
      ((decimal v.toNat).head? = some 0x30 ↔ v.toNat = 0)) ∧
    ∀ val : BitVec 32,
      dccInt (fuel + 11) buf val tx = some (tx ++ (signedDecimal val.toInt).map txWord) ∧
      readSigned (signedDecimal val.toInt) = some val.toInt :=
  ⟨fun v => ⟨dccUint_eq fuel buf v tx, readNat_decimal _, decimal_head_zero_iff _⟩,
    fun val => ⟨dccInt_eq fuel buf val tx, readSigned_signedDecimal _⟩⟩

end CimSigmoid.Bench
