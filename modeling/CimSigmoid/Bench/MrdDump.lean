import CimSigmoid.Bench.Image
import CimSigmoid.Text.Split

/-!
# Reading the memory dump back

The debugger answers `mrd` with lines `ADDR: w1 w2 ...`, and its prompt, the commands it
echoes and its status text come through the same pipe. `parse_mrd_values`
(`run_benchmark.py`, the same text in both benchmarks) finds the words by the shape of
the tokens: what follows the first token of hexadecimal digits and a colon.

`Dump ws text` says that `text` shows the words `ws`, in any grouping into lines and with
any other lines between them. A carriage return and a newline are two breaks here, with
an empty line between them. `parseMrdValues_inverts` is the inverse.
-/

namespace CimSigmoid.Bench

open Text

/-! ## The script -/

/-- `re.match(r'^[0-9A-Fa-f]+:$', p)`. -/
def isAddr (p : List Char) : Bool :=
  match p.reverse with
  | ':' :: ds => !ds.isEmpty && ds.all fun c => (hexDigit c).isSome
  | _ => false

def lineValues (line : List Char) : List Int :=
  if ':' ∉ line then []
  else
    let parts := split (strip line)
    if parts.length < 2 then []
    else
      match parts.findIdx? isAddr with
      | none => []
      | some addrIdx => (parts.drop (addrIdx + 1)).filterMap pyIntHex

def parseMrdValues (text : List Char) : List Int := (splitlines text).flatMap lineValues

/-! ## The dump -/

/-- The value the script has for a word. -/
def wordValue (w : BitVec 32) : Int := (w.toNat : Int)

/-- `text` is `w` in hexadecimal, in either case and with any leading zeros. -/
def WordText (text : List Char) (w : BitVec 32) : Prop := readNat 16 hexDigit text = some w.toNat

/-- One line of the debugger's output, and the words it shows. -/
inductive LineShows : List (BitVec 32) → List Char → Prop where
  | data (prompt : List (List Char)) (addr : List Char) (texts : List (List Char))
      {line : List Char} {ws : List (BitVec 32)} :
      (∀ t ∈ prompt, isAddr t = false) → isAddr addr = true → List.Forall₂ WordText texts ws →
      Spaced (prompt ++ addr :: texts) line → LineShows ws line
  | noise {toks : List (List Char)} {line : List Char} :
      (∀ t ∈ toks, isAddr t = false) → Spaced toks line → LineShows [] line

inductive Dump : List (BitVec 32) → List Char → Prop where
  | last {ws : List (BitVec 32)} {line : List Char} : LineShows ws line → Dump ws line
  | cons {ws vs : List (BitVec 32)} {line text : List Char} {c : Char} : LineShows ws line →
      isLineBreak c = true → Dump vs text → Dump (ws ++ vs) (line ++ c :: text)

/-! ## The inverse -/

theorem colon_mem_of_isAddr {p : List Char} (h : isAddr p = true) : ':' ∈ p := by
  unfold isAddr at h
  split at h
  · rename_i ds hp
    rw [← List.mem_reverse, hp]
    exact List.mem_cons_self
  · cases h

theorem filterMap_wordText {texts : List (List Char)} {ws : List (BitVec 32)}
    (h : List.Forall₂ WordText texts ws) : texts.filterMap pyIntHex = ws.map wordValue := by
  induction h with
  | nil => rfl
  | cons hw _ ih => rw [List.filterMap_cons_some (pyIntHex_of_readNat hw), ih, List.map_cons]; rfl

theorem findIdx?_addr {prompt texts : List (List Char)} {addr : List Char}
    (hp : ∀ t ∈ prompt, isAddr t = false) (ha : isAddr addr = true) :
    (prompt ++ addr :: texts).findIdx? isAddr = some prompt.length := by
  rw [List.findIdx?_append, List.findIdx?_eq_none_iff.2 hp, List.findIdx?_cons, ha]
  simp

/-- **A line gives the words it shows.** -/
theorem lineValues_of_shows {ws : List (BitVec 32)} {line : List Char} (h : LineShows ws line) :
    lineValues line = ws.map wordValue := by
  cases h with
  | data prompt addr texts hp ha hw hs =>
    have hcolon : ':' ∈ line := hs.mem (by simp) (colon_mem_of_isAddr ha)
    have hdrop : (prompt ++ addr :: texts).drop (prompt.length + 1) = texts := by simp
    simp only [lineValues, not_not.2 hcolon, if_false, split_strip, split_spaced hs,
      findIdx?_addr hp ha, hdrop, filterMap_wordText hw]
    split
    · -- the address alone: no words
      rename_i hlen
      have : texts = [] := List.eq_nil_of_length_eq_zero (by simp at hlen; omega)
      subst this
      rw [List.forall₂_nil_left_iff.1 hw]
      rfl
    · rfl
  | noise hn hs =>
    simp only [lineValues, split_strip, split_spaced hs, List.findIdx?_eq_none_iff.2 hn, ite_self,
      List.map_nil]

theorem LineShows.no_break {ws : List (BitVec 32)} {line : List Char} (h : LineShows ws line) :
    ∀ c ∈ line, isLineBreak c = false := by
  cases h with
  | data _ _ _ _ _ _ hs => exact hs.no_break
  | noise _ hs => exact hs.no_break

theorem parseMrdValues_dump {ws : List (BitVec 32)} {text : List Char} (h : Dump ws text) :
    parseMrdValues text = ws.map wordValue := by
  have hempty : lineValues [] = [] := rfl
  induction h with
  | last hl => rw [parseMrdValues, lines_last hempty hl.no_break, lineValues_of_shows hl]
  | cons hl hc _ ih =>
    rw [parseMrdValues, lines_append_break hempty _ hl.no_break hc, lineValues_of_shows hl,
      List.map_append, ← ih]
    rfl

theorem ofInt_wordValue (ws : List (BitVec 32)) :
    (ws.map wordValue).map (BitVec.ofInt 32) = ws := by
  have hid : BitVec.ofInt 32 ∘ wordValue = id := by
    funext w
    simp [wordValue]
  rw [List.map_map, hid, List.map_id]

/-- **`parse_mrd_values` inverts the dump**: it returns the words shown, so the rows of the
table do not depend on how the debugger lays the words out. -/
theorem parseMrdValues_inverts {ws : List (BitVec 32)} {text : List Char} (h : Dump ws text) :
    parseMrdValues text = ws.map wordValue ∧
      ∀ xRaw, decode ((parseMrdValues text).map (BitVec.ofInt 32)) xRaw = decode ws xRaw := by
  have hp := parseMrdValues_dump h
  refine ⟨hp, fun xRaw => ?_⟩
  rw [hp, ofInt_wordValue]

/-- An echoed command, and three words in two lines, the second behind a prompt. -/
def session : List Char :=
  "xsdb% mrd 0x10E640 3".toList ++ '\n' :: ("10E640: 0005F94b ".toList ++ '\r' ::
    ([] ++ '\n' :: "xsdb%\t10E644:  45EB ffffffff".toList))

theorem parseMrdValues_session :
    Dump [0x5F94B, 0x45EB, 0xFFFFFFFF] session ∧
      parseMrdValues session = [0x5F94B, 0x45EB, 0xFFFFFFFF] := by
  have echo : LineShows [] "xsdb% mrd 0x10E640 3".toList :=
    .noise (by decide) (spaced_iff.2 ⟨rfl, by decide⟩)
  have first : LineShows [0x5F94B] "10E640: 0005F94b ".toList :=
    .data [] "10E640:".toList ["0005F94b".toList] (by decide) (by decide)
      (.cons (by unfold WordText; decide) .nil) (spaced_iff.2 ⟨rfl, by decide⟩)
  have empty : LineShows [] [] := .noise (by decide) (spaced_iff.2 ⟨rfl, by decide⟩)
  have second : LineShows [0x45EB, 0xFFFFFFFF] "xsdb%\t10E644:  45EB ffffffff".toList :=
    .data ["xsdb%".toList] "10E644:".toList ["45EB".toList, "ffffffff".toList] (by decide)
      (by decide) (.cons (by unfold WordText; decide) (.cons (by unfold WordText; decide) .nil))
      (spaced_iff.2 ⟨rfl, by decide⟩)
  have hdump : Dump [0x5F94B, 0x45EB, 0xFFFFFFFF] session :=
    .cons echo (by decide) (.cons first (by decide) (.cons empty (by decide) (.last second)))
  exact ⟨hdump, (parseMrdValues_inverts hdump).1⟩

end CimSigmoid.Bench
