import Mathlib.Data.List.DropRight
import CimSigmoid.Text.Numeral

/-!
# Python's text operations

Text is a list of characters. `split` and `splitlines` cut it as the methods of `str`
do, `strip` removes spaces at both ends, and `pyIntHex` is `int(s, 16)` on ASCII text,
with sign, prefix and underscores.

`Spaced toks line` says that `line` shows the tokens `toks` with blanks between them,
and `split_spaced` that `split` gets them back. `lines_append_break` is how a line and
the text behind it come apart: a carriage return in front of a newline makes one break
of the two, so it is about a function of the lines that gives nothing for an empty one.
-/

namespace CimSigmoid.Text

/-! ## Characters -/

def isLineBreak (c : Char) : Bool :=
  c.toNat ∈ [0x0a, 0x0b, 0x0c, 0x0d, 0x1c, 0x1d, 0x1e, 0x85, 0x2028, 0x2029]

/-- `str.isspace` of one character. -/
def isSpace (c : Char) : Bool :=
  isLineBreak c || c.toNat ∈ [0x09, 0x1f, 0x20, 0xa0, 0x1680, 0x202f, 0x205f, 0x3000] ||
    decide (0x2000 ≤ c.toNat ∧ c.toNat ≤ 0x200a)

/-- A space within a line. -/
def isBlank (c : Char) : Bool := isSpace c && !isLineBreak c

/-! ## Tokens -/

/-- `split` with the token read so far, backwards. -/
def splitFrom (cur : List Char) : List Char → List (List Char)
  | [] => if cur.isEmpty then [] else [cur.reverse]
  | c :: cs =>
    if isSpace c then
      if cur.isEmpty then splitFrom [] cs else cur.reverse :: splitFrom [] cs
    else splitFrom (c :: cur) cs

/-- The maximal runs of characters that are no spaces. -/
def split (cs : List Char) : List (List Char) := splitFrom [] cs

def strip (cs : List Char) : List Char := (cs.dropWhile isSpace).rdropWhile isSpace

def IsToken (t : List Char) : Prop := t ≠ [] ∧ ∀ c ∈ t, isSpace c = false

theorem splitFrom_append {t : List Char} (ht : ∀ c ∈ t, isSpace c = false) (cur cs : List Char) :
    splitFrom cur (t ++ cs) = splitFrom (t.reverse ++ cur) cs := by
  induction t generalizing cur with
  | nil => rfl
  | cons c t ih =>
    rw [List.cons_append, splitFrom, ht c List.mem_cons_self, if_neg Bool.false_ne_true,
      ih fun d hd => ht d (List.mem_cons_of_mem c hd)]
    simp

theorem split_spaces_append {b : List Char} (hb : ∀ c ∈ b, isSpace c = true) (cs : List Char) :
    split (b ++ cs) = split cs := by
  induction b with
  | nil => rfl
  | cons c b ih =>
    rw [List.cons_append, split, splitFrom, if_pos (hb c List.mem_cons_self)]
    exact ih fun d hd => hb d (List.mem_cons_of_mem c hd)

theorem split_token_append {t cs : List Char} (ht : IsToken t)
    (hcs : cs = [] ∨ ∃ c cs', cs = c :: cs' ∧ isSpace c = true) :
    split (t ++ cs) = t :: split cs := by
  have hne : t.reverse.isEmpty = false := by simpa using ht.1
  rw [split, splitFrom_append ht.2, List.append_nil]
  rcases hcs with rfl | ⟨c, cs', rfl, hc⟩
  · simp [splitFrom, split, hne]
  · simp [splitFrom, split, hc, ht.1]

theorem splitFrom_append_spaces {b : List Char} (hb : ∀ c ∈ b, isSpace c = true)
    (cur cs : List Char) : splitFrom cur (cs ++ b) = splitFrom cur cs := by
  induction cs generalizing cur with
  | nil =>
    cases b with
    | nil => rfl
    | cons c b =>
      have hsp : split b = [] := by
        have := split_spaces_append (fun d hd => hb d (List.mem_cons_of_mem c hd)) []
        rwa [List.append_nil] at this
      have hstep : splitFrom cur (c :: b) =
          if cur.isEmpty then split b else cur.reverse :: split b := by
        rw [splitFrom, if_pos (hb c List.mem_cons_self)]
        rfl
      rw [List.nil_append, hstep, hsp]
      rfl
  | cons c cs ih =>
    rw [List.cons_append, splitFrom, splitFrom, ih, ih]

theorem split_strip (cs : List Char) : split (strip cs) = split cs := by
  have hleft : split (cs.dropWhile isSpace) = split cs := by
    conv_rhs => rw [← List.takeWhile_append_dropWhile (p := isSpace) (l := cs)]
    exact (split_spaces_append (fun c hc => List.mem_takeWhile_imp hc) _).symm
  have hright := splitFrom_append_spaces
    (fun c hc => List.mem_rtakeWhile_imp (p := isSpace) (l := cs.dropWhile isSpace) hc) []
    ((cs.dropWhile isSpace).rdropWhile isSpace)
  rw [List.rdropWhile_append_rtakeWhile] at hright
  exact hright.symm.trans hleft

/-- `line` is the tokens with blanks before, between and behind them. -/
inductive Spaced : List (List Char) → List Char → Prop where
  | nil {b : List Char} : (∀ c ∈ b, isBlank c = true) → Spaced [] b
  | cons {b t line : List Char} {toks : List (List Char)} : (∀ c ∈ b, isBlank c = true) →
      IsToken t → Spaced toks line →
      (line = [] ∨ ∃ c cs, line = c :: cs ∧ isBlank c = true) →
      Spaced (t :: toks) (b ++ (t ++ line))

theorem isSpace_of_isBlank {c : Char} (h : isBlank c = true) : isSpace c = true :=
  (Bool.and_eq_true_iff.1 h).1

theorem split_spaced {toks : List (List Char)} {line : List Char} (h : Spaced toks line) :
    split line = toks := by
  induction h with
  | nil hb =>
    have := split_spaces_append (fun c hc => isSpace_of_isBlank (hb c hc)) []
    rwa [List.append_nil] at this
  | cons hb ht _ hline ih =>
    rw [split_spaces_append fun c hc => isSpace_of_isBlank (hb c hc), split_token_append ht, ih]
    exact hline.imp id fun ⟨c, cs, he, hc⟩ => ⟨c, cs, he, isSpace_of_isBlank hc⟩

theorem Spaced.mem {toks : List (List Char)} {line t : List Char} {c : Char}
    (h : Spaced toks line) (ht : t ∈ toks) (hc : c ∈ t) : c ∈ line := by
  induction h with
  | nil => cases ht
  | cons _ _ _ _ ih =>
    rcases List.mem_cons.1 ht with rfl | ht
    · exact List.mem_append_right _ (List.mem_append_left _ hc)
    · exact List.mem_append_right _ (List.mem_append_right _ (ih ht))

theorem Spaced.no_break {toks : List (List Char)} {line : List Char} (h : Spaced toks line) :
    ∀ c ∈ line, isLineBreak c = false := by
  induction h with
  | nil hb =>
    intro c hc
    simpa using (Bool.and_eq_true_iff.1 (hb c hc)).2
  | cons hb ht _ _ ih =>
    intro c hc
    rcases List.mem_append.1 hc with hc | hc
    · simpa using (Bool.and_eq_true_iff.1 (hb c hc)).2
    · rcases List.mem_append.1 hc with hc | hc
      · have := ht.2 c hc
        simp only [isSpace, Bool.or_eq_false_iff] at this
        exact this.1.1
      · exact ih c hc

theorem Spaced.blank_cons {toks : List (List Char)} {line : List Char} {c : Char}
    (hc : isBlank c = true) (h : Spaced toks line) : Spaced toks (c :: line) := by
  cases h with
  | nil hb => exact .nil (List.forall_mem_cons.2 ⟨hc, hb⟩)
  | cons hb ht hs hline =>
    rw [← List.cons_append]
    exact .cons (List.forall_mem_cons.2 ⟨hc, hb⟩) ht hs hline

theorem Spaced.flush {toks : List (List Char)} {cur line : List Char} (h : Spaced toks line)
    (hcur : ∀ c ∈ cur, isSpace c = false)
    (hline : line = [] ∨ ∃ c cs, line = c :: cs ∧ isBlank c = true) :
    Spaced (if cur.isEmpty then toks else cur.reverse :: toks) (cur.reverse ++ line) := by
  split
  · rename_i hnil
    rw [List.isEmpty_iff.1 hnil]
    exact h
  · rename_i hne
    have htok : IsToken cur.reverse := ⟨by simpa using hne, by simpa using hcur⟩
    exact .cons (b := []) (by simp) htok h hline

theorem spaced_splitFrom {cs : List Char} (hcs : ∀ c ∈ cs, isLineBreak c = false)
    (cur : List Char) (hcur : ∀ c ∈ cur, isSpace c = false) :
    Spaced (splitFrom cur cs) (cur.reverse ++ cs) := by
  induction cs generalizing cur with
  | nil =>
    have hend : Spaced [] [] := .nil (by simp)
    exact hend.flush hcur (.inl rfl)
  | cons c cs ih =>
    have htail := ih fun d hd => hcs d (List.mem_cons_of_mem c hd)
    rw [splitFrom]
    split
    · rename_i hsp
      have hblank : isBlank c = true := by simp [isBlank, hsp, hcs c List.mem_cons_self]
      have hrest : Spaced (splitFrom [] cs) (c :: cs) := (htail [] (by simp)).blank_cons hblank
      exact hrest.flush hcur (.inr ⟨c, cs, rfl, hblank⟩)
    · rename_i hsp
      have := htail (c :: cur) (List.forall_mem_cons.2 ⟨by simpa using hsp, hcur⟩)
      rwa [List.reverse_cons, List.append_assoc] at this

theorem spaced_iff {toks : List (List Char)} {line : List Char} :
    Spaced toks line ↔ split line = toks ∧ line.any isLineBreak = false := by
  simp only [List.any_eq_false, Bool.not_eq_true]
  refine ⟨fun h => ⟨split_spaced h, h.no_break⟩, ?_⟩
  rintro ⟨rfl, hl⟩
  exact spaced_splitFrom hl [] (by simp)

/-! ## Lines -/

/-- `splitlines` with the line read so far, backwards. -/
def linesFrom (cur : List Char) : List Char → List (List Char)
  | [] => if cur.isEmpty then [] else [cur.reverse]
  | '\r' :: '\n' :: cs => cur.reverse :: linesFrom [] cs
  | c :: cs => if isLineBreak c then cur.reverse :: linesFrom [] cs else linesFrom (c :: cur) cs

def splitlines (cs : List Char) : List (List Char) := linesFrom [] cs

theorem linesFrom_cons {c : Char} (hc : isLineBreak c = false) (cur cs : List Char) :
    linesFrom cur (c :: cs) = linesFrom (c :: cur) cs := by
  have hr : c ≠ '\r' := by rintro rfl; exact absurd hc (by decide)
  rw [linesFrom.eq_def]
  split
  · simp_all
  · simp_all
  · rename_i h
    cases h
    simp [hc]

theorem linesFrom_append {l : List Char} (hl : ∀ c ∈ l, isLineBreak c = false)
    (cur cs : List Char) : linesFrom cur (l ++ cs) = linesFrom (l.reverse ++ cur) cs := by
  induction l generalizing cur with
  | nil => rfl
  | cons c l ih =>
    rw [List.cons_append, linesFrom_cons (hl c List.mem_cons_self),
      ih fun d hd => hl d (List.mem_cons_of_mem c hd)]
    simp

variable {β : Type} {f : List Char → List β}

theorem lines_append_break (hf : f [] = []) {line : List Char} {c : Char} (cs : List Char)
    (hl : ∀ d ∈ line, isLineBreak d = false) (hc : isLineBreak c = true) :
    (splitlines (line ++ c :: cs)).flatMap f = f line ++ (splitlines cs).flatMap f := by
  rw [splitlines, linesFrom_append hl, List.append_nil]
  by_cases hr : c = '\r' ∧ ∃ cs', cs = '\n' :: cs'
  · obtain ⟨rfl, cs', rfl⟩ := hr
    have hn : splitlines ('\n' :: cs') = [] :: splitlines cs' := rfl
    rw [linesFrom, hn]
    simp [hf, splitlines]
  · have : linesFrom line.reverse (c :: cs) = line :: splitlines cs := by
      rw [linesFrom.eq_def]
      split
      · simp_all
      · simp_all
      · rename_i h
        cases h
        simp [hc, splitlines]
    rw [this, List.flatMap_cons]

theorem lines_last (hf : f [] = []) {line : List Char}
    (hl : ∀ d ∈ line, isLineBreak d = false) : (splitlines line).flatMap f = f line := by
  have h := linesFrom_append hl [] []
  rw [List.append_nil, List.append_nil] at h
  rw [splitlines, h, linesFrom]
  cases line with
  | nil => simp [hf]
  | cons c line => simp

/-! ## Integers -/

/-- The digits of an integer literal: underscores may stand between two of them. -/
def literalDigits (digit : Char → Option Nat) : List Char → Option (List Nat)
  | [] => none
  | [c] => (digit c).map ([·])
  | c :: '_' :: cs => do return (← digit c) :: (← literalDigits digit cs)
  | c :: cs => do return (← digit c) :: (← literalDigits digit cs)

def hexDigit (c : Char) : Option Nat :=
  if 48 ≤ c.toNat ∧ c.toNat ≤ 57 then some (c.toNat - 48)
  else if 97 ≤ c.toNat ∧ c.toNat ≤ 102 then some (c.toNat - 87)
  else if 65 ≤ c.toNat ∧ c.toNat ≤ 70 then some (c.toNat - 55)
  else none

/-- What follows the prefix `0x`, if there is one; an underscore may follow it. -/
def dropZeroX : List Char → List Char
  | '0' :: 'x' :: '_' :: cs | '0' :: 'X' :: '_' :: cs => cs
  | '0' :: 'x' :: cs | '0' :: 'X' :: cs => cs
  | cs => cs

def hexMagnitude (cs : List Char) : Option Nat :=
  (literalDigits hexDigit (dropZeroX cs)).map fun ds => Nat.ofDigits 16 ds.reverse

/-- `int(s, 16)`. -/
def pyIntHex (s : List Char) : Option Int :=
  match strip s with
  | '-' :: cs => (hexMagnitude cs).map fun n : Nat => -(n : Int)
  | '+' :: cs => (hexMagnitude cs).map Int.ofNat
  | cs => (hexMagnitude cs).map Int.ofNat

theorem strip_eq_self {s : List Char} (h : ∀ c ∈ s, isSpace c = false) : strip s = s := by
  have hd : s.dropWhile isSpace = s := by
    cases s with
    | nil => rfl
    | cons c s => exact List.dropWhile_cons_of_neg (by simp [h c List.mem_cons_self])
  rw [strip, hd, List.rdropWhile_eq_self_iff]
  intro hne
  simp [h _ (List.getLast_mem hne)]

theorem literalDigits_cons {digit : Char → Option Nat} (c : Char) {d : Char} (hd : d ≠ '_')
    (s : List Char) : literalDigits digit (c :: d :: s) =
      do return (← digit c) :: (← literalDigits digit (d :: s)) := by
  rw [literalDigits]
  · simp
  · rintro cs h
    simp_all

theorem literalDigits_eq_mapM {digit : Char → Option Nat} {s : List Char} (hne : s ≠ [])
    (h : ∀ c ∈ s, c ≠ '_') : literalDigits digit s = s.mapM digit := by
  induction s with
  | nil => exact absurd rfl hne
  | cons c s ih =>
    rw [List.mapM_cons]
    cases s with
    | nil =>
      rw [literalDigits]
      cases digit c <;> rfl
    | cons d s =>
      rw [← ih (by simp) fun e he => h e (List.mem_cons_of_mem c he)]
      exact literalDigits_cons c (h d (by simp)) s

theorem toNat_of_hexDigit {c : Char} (h : (hexDigit c).isSome = true) :
    48 ≤ c.toNat ∧ c.toNat ≤ 57 ∨ 97 ≤ c.toNat ∧ c.toNat ≤ 102 ∨
      65 ≤ c.toNat ∧ c.toNat ≤ 70 := by
  unfold hexDigit at h
  split at h
  · omega
  · split at h
    · omega
    · split at h
      · omega
      · simp at h

theorem isSpace_of_hexDigit {c : Char} (h : (hexDigit c).isSome = true) : isSpace c = false := by
  have := toNat_of_hexDigit h
  simp only [isSpace, isLineBreak, List.mem_cons, List.not_mem_nil, or_false, Bool.or_eq_false_iff,
    decide_eq_false_iff_not]
  omega

theorem isSome_of_mapM {s : List Char} {digit : Char → Option Nat} {ds : List Nat}
    (h : s.mapM digit = some ds) : ∀ c ∈ s, (digit c).isSome = true := by
  induction s generalizing ds with
  | nil => simp
  | cons c s ih =>
    rw [List.mapM_cons] at h
    simp only [Option.bind_eq_bind, Option.bind_eq_some_iff] at h
    obtain ⟨d, hd, es, hes, -⟩ := h
    rintro e (_ | ⟨_, he⟩)
    · rw [hd]
      rfl
    · exact ih hes e he

theorem dropZeroX_eq_self {s : List Char} (h : ∀ c ∈ s, c ≠ 'x' ∧ c ≠ 'X') : dropZeroX s = s := by
  unfold dropZeroX
  split <;> simp_all

theorem pyIntHex_of_readNat {s : List Char} {n : Nat} (h : readNat 16 hexDigit s = some n) :
    pyIntHex s = some (n : Int) := by
  unfold readNat at h
  split at h
  · cases h
  · rename_i hne
    obtain ⟨ds, hds, hn⟩ := Option.map_eq_some_iff.1 h
    have hhex := isSome_of_mapM hds
    have hnot : ∀ c ∈ s, c ≠ '-' ∧ c ≠ '+' ∧ c ≠ '_' ∧ c ≠ 'x' ∧ c ≠ 'X' := by
      intro c hc
      refine ⟨?_, ?_, ?_, ?_, ?_⟩ <;> rintro rfl <;> exact absurd (hhex _ hc) (by decide)
    have hlit : literalDigits hexDigit (dropZeroX s) = some ds := by
      rw [dropZeroX_eq_self fun c hc => (hnot c hc).2.2.2,
        literalDigits_eq_mapM (by simpa using hne) fun c hc => (hnot c hc).2.2.1, hds]
    rw [pyIntHex, strip_eq_self fun c hc => isSpace_of_hexDigit (hhex c hc)]
    split
    · exact absurd rfl (hnot '-' (by simp)).1
    · exact absurd rfl (hnot '+' (by simp)).2.1
    · rw [hexMagnitude, hlit, Option.map_some, hn]
      rfl

end CimSigmoid.Text
