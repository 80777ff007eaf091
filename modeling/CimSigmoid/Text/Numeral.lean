import Mathlib.Data.Nat.Digits.Lemmas

/-!
# Positional numerals

Numerals over any alphabet and in any base, most significant digit first. `numeral` is
the canonical one, without leading zeros; `readNat` reads any nonempty list of digits.
-/

namespace CimSigmoid.Text

variable {α : Type} {b : Nat} {char : Nat → α} {digit : α → Option Nat}

def numeral (b : Nat) (char : Nat → α) (n : Nat) : List α :=
  if n = 0 then [char 0] else ((Nat.digits b n).map char).reverse

/-- The number written with digits most significant first. -/
def readNat (b : Nat) (digit : α → Option Nat) (cs : List α) : Option Nat :=
  if cs.isEmpty then none else (cs.mapM digit).map fun ds => Nat.ofDigits b ds.reverse

theorem mapM_digit_map (h : ∀ d < b, digit (char d) = some d) {ds : List Nat}
    (hds : ∀ d ∈ ds, d < b) : (ds.map char).mapM digit = some ds := by
  induction ds with
  | nil => rfl
  | cons d ds ih =>
    rw [List.map_cons, List.mapM_cons, h d (hds d List.mem_cons_self),
      ih fun e he => hds e (List.mem_cons_of_mem d he)]
    rfl

theorem readNat_map (h : ∀ d < b, digit (char d) = some d) {ds : List Nat} (hne : ds ≠ [])
    (hds : ∀ d ∈ ds, d < b) : readNat b digit (ds.map char) = some (Nat.ofDigits b ds.reverse) := by
  rw [readNat, if_neg (by simpa using hne), mapM_digit_map h hds, Option.map_some]

theorem readNat_numeral (hb : 1 < b) (h : ∀ d < b, digit (char d) = some d) (n : Nat) :
    readNat b digit (numeral b char n) = some n := by
  unfold numeral
  split
  · rename_i h0
    have hr : readNat b digit ([0].map char) = some (Nat.ofDigits b [0]) :=
      readNat_map h (by simp) (by simp; omega)
    simpa [h0] using hr
  · rename_i h0
    have hne : (Nat.digits b n).reverse ≠ [] := by
      simpa using Nat.digits_ne_nil_iff_ne_zero.2 h0
    rw [← List.map_reverse, readNat_map h hne, List.reverse_reverse, Nat.ofDigits_digits]
    intro d hd
    exact Nat.digits_lt_base hb (List.mem_reverse.1 hd)

theorem numeral_head (hb : 1 < b) {n : Nat} (hn : n ≠ 0) :
    ∃ d, 0 < d ∧ d < b ∧ (numeral b char n).head? = some (char d) := by
  have hne := Nat.digits_ne_nil_iff_ne_zero (b := b).2 hn
  refine ⟨(Nat.digits b n).getLast hne, Nat.pos_of_ne_zero (Nat.getLast_digit_ne_zero b hn),
    Nat.digits_lt_base hb (List.getLast_mem hne), ?_⟩
  rw [numeral, if_neg hn, List.head?_reverse, List.getLast?_map, List.getLast?_eq_some_getLast hne]
  rfl

end CimSigmoid.Text
