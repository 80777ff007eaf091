import Mathlib.Data.Rat.Cast.CharZero
import CimSigmoid.Analysis.Tally
import CimSigmoid.Text.Numeral
import CimSigmoid.Text.Pattern

/-!
# The statistics of a gem5 log

`Gem5StatsParser.parse_stderr` (`daftpum_results.py`) goes through the lines of a log
once. A line that reports a completed bbop counts it; a line that reports subarrays
takes their number into `avg_parallelism`, with the count of bbops as the weight.

The count and the distribution of bit precisions come out right in every log. The
average is a mean only where the count already has the bbop whose subarrays are
reported: with the two lines the other way round the count lags behind by one, and the
first number is lost when the second arrives (`parseStderr_late`). `parseStderr_iff`
says for every log what the numbers must be like for the average to be the mean.

Floats are rationals here, and `int` has no limit on the number of digits. What a digit is and
what a letter is depends on the Unicode tables of the Python version: `CharData` stands for any
that agree with ASCII.
-/

namespace CimSigmoid.Gem5

open Text Analysis

/-! ## The parser -/

/-- `DaftpumStats`, without the circuit counts, which `parse_stderr` leaves alone. -/
structure DaftpumStats where
  totalBbops : Nat := 0
  totalLatencyNs : ℚ := 0
  totalEnergyNj : ℚ := 0
  avgParallelism : ℚ := 0
  bitPrecisionDist : List (Nat × Nat) := []
  deriving DecidableEq, Repr

def asciiDigit (c : Char) : Option Nat :=
  if 48 ≤ c.toNat ∧ c.toNat ≤ 57 then some (c.toNat - 48) else none

def asciiWord (c : Char) : Bool := c.isAlphanum || c == '_'

/-- The decimal digits with their values, as `\d`, `int` and `float` know them, and the characters
of `\w`. -/
structure CharData where
  decimal : Char → Option Nat
  word : Char → Bool
  decimal_ascii : ∀ c, c.toNat < 128 → decimal c = asciiDigit c
  word_ascii : ∀ c, c.toNat < 128 → word c = asciiWord c

namespace CharData

variable (U : CharData)

/-- `\d`. -/
def isDigit (c : Char) : Bool := (U.decimal c).isSome

/-- `[\d.]`. -/
def isDecimal (c : Char) : Bool := U.isDigit c || c == '.'

def bbopPattern : List Item :=
  [.lit "bbop_".toList, .run U.isDigit, .lit " completed: ".toList, .run U.word,
    .lit ", dynamicBP=".toList, .run U.isDigit, .lit ", latency=".toList, .run U.isDecimal,
    .lit " ns, energy=".toList, .run U.isDecimal, .lit " nJ".toList]

def parallelPattern : List Item :=
  [.lit "subarrays=".toList, .run U.isDigit, .lit ", repFactor=".toList, .run U.isDigit]

def pyInt (s : List Char) : Option Nat := readNat 10 U.decimal s

/-- `float(s)` on digits and dots; a second dot is an error, and so is a dot alone. -/
def pyFloat (s : List Char) : Option ℚ :=
  let whole := s.takeWhile (· != '.')
  let frac := (s.dropWhile (· != '.')).drop 1
  if whole.isEmpty && frac.isEmpty then none
  else do
    let w ← whole.mapM U.decimal
    let f ← frac.mapM U.decimal
    return Nat.ofDigits 10 w.reverse + Nat.ofDigits 10 f.reverse / 10 ^ frac.length

end CharData

/-- `m.group(k)`. -/
def group (m : List (List Char)) (k : Nat) : List Char := m.getD (k - 1) []

namespace DaftpumStats

def complete (s : DaftpumStats) (bp : Nat) (latency energy : ℚ) : DaftpumStats :=
  { s with
    totalBbops := s.totalBbops + 1
    totalLatencyNs := s.totalLatencyNs + latency
    totalEnergyNj := s.totalEnergyNj + energy
    bitPrecisionDist := dictSet bp (dictGet bp s.bitPrecisionDist + 1) s.bitPrecisionDist }

def parallel (s : DaftpumStats) (subs : Nat) : DaftpumStats :=
  { s with
    avgParallelism :=
      if 0 < s.totalBbops then (s.avgParallelism * (s.totalBbops - 1) + subs) / s.totalBbops
      else subs }

end DaftpumStats

section

variable (U : CharData)

def parseCompleted (s : DaftpumStats) (line : List Char) : Option DaftpumStats :=
  match search U.bbopPattern line with
  | none => some s
  | some m => do
    let latency ← U.pyFloat (group m 4)
    let energy ← U.pyFloat (group m 5)
    let bp ← U.pyInt (group m 3)
    return s.complete bp latency energy

def parseParallel (s : DaftpumStats) (line : List Char) : Option DaftpumStats :=
  match search U.parallelPattern line with
  | none => some s
  | some m => do
    let subs ← U.pyInt (group m 1)
    return s.parallel subs

def parseLine (s : DaftpumStats) (line : List Char) : Option DaftpumStats := do
  parseParallel U (← parseCompleted U s line) line

/-- `parse_stderr`, from the lines of the file; `none` is a `ValueError`. -/
def parseStderr (lines : List (List Char)) : Option DaftpumStats := lines.foldlM (parseLine U) {}

/-! ## The log -/

inductive Report where
  | completed (bp : Nat) (latency energy : ℚ)
  | parallel (subs : Nat)

/-- The line `bbop_N completed: ...`, or the line `subarrays=S, repFactor=R`. -/
inductive Report.In : Report → List Char → Prop where
  | completed {n name bpText latencyText energyText line : List Char} {bp : Nat}
      {latency energy : ℚ} :
      First U.bbopPattern [n, name, bpText, latencyText, energyText] line →
      U.pyInt bpText = some bp → U.pyFloat latencyText = some latency →
      U.pyFloat energyText = some energy → Absent U.parallelPattern line →
      In (.completed bp latency energy) line
  | parallel {subsText repFactor line : List Char} {subs : Nat} :
      First U.parallelPattern [subsText, repFactor] line → U.pyInt subsText = some subs →
      Absent U.bbopPattern line → In (.parallel subs) line

/-- Lines that make these reports, in order, among lines that make none. -/
inductive Reported : List Report → List (List Char) → Prop where
  | nil : Reported [] []
  | other {rs : List Report} {line : List Char} {lines : List (List Char)} :
      Absent U.bbopPattern line → Absent U.parallelPattern line → Reported rs lines →
      Reported rs (line :: lines)
  | cons {r : Report} {rs : List Report} {line : List Char} {lines : List (List Char)} :
      r.In U line → Reported rs lines → Reported (r :: rs) (line :: lines)

end

/-- A completed bbop; `late` when the log has its subarrays before its completion. -/
structure Bbop where
  bp : Nat
  latency : ℚ
  energy : ℚ
  subarrays : Nat
  late : Bool

def Bbop.reports (b : Bbop) : List Report :=
  if b.late then [.parallel b.subarrays, .completed b.bp b.latency b.energy]
  else [.completed b.bp b.latency b.energy, .parallel b.subarrays]

section

variable (b : Nat → Bbop) (n : Nat)

/-- A log of the first `n` of these bbops, in the order of their completion. -/
def Log (U : CharData) (lines : List (List Char)) : Prop :=
  Reported U ((List.range n).flatMap fun k => (b k).reports) lines

def subs (k : Nat) : ℚ := (b k).subarrays

def late (k : Nat) : Bool := (b k).late

end

/-! ## Lines -/

def DaftpumStats.tell (s : DaftpumStats) : Report → DaftpumStats
  | .completed bp latency energy => s.complete bp latency energy
  | .parallel subs => s.parallel subs

section

variable {U : CharData} {line : List Char}

theorem parseCompleted_absent (h : Absent U.bbopPattern line) (s : DaftpumStats) :
    parseCompleted U s line = some s := by
  rw [parseCompleted, search_eq_none.2 h]

theorem parseParallel_absent (h : Absent U.parallelPattern line) (s : DaftpumStats) :
    parseParallel U s line = some s := by
  rw [parseParallel, search_eq_none.2 h]

/-- One line: the loop body does what the line reports. -/
theorem parseLine_report {r : Report} (h : r.In U line) (s : DaftpumStats) :
    parseLine U s line = some (s.tell r) := by
  cases h with
  | @completed _ _ _ _ _ _ bp latency energy hfirst hbp hlat hen hab =>
    have hc : parseCompleted U s line = some (s.complete bp latency energy) := by
      simp [parseCompleted, search_of_first hfirst, group, hlat, hen, hbp]
    rw [parseLine, hc]
    exact parseParallel_absent hab _
  | @parallel _ _ _ subs hfirst hs hab =>
    have hp : parseParallel U s line = some (s.parallel subs) := by
      simp [parseParallel, search_of_first hfirst, group, hs]
    rw [parseLine, parseCompleted_absent hab]
    exact hp

theorem foldlM_reported {rs : List Report} {lines : List (List Char)} (h : Reported U rs lines)
    (s : DaftpumStats) : lines.foldlM (parseLine U) s = some (rs.foldl DaftpumStats.tell s) := by
  induction h generalizing s with
  | nil => rfl
  | @other rs line lines hb hp _ ih =>
    have hline : parseLine U s line = some s := by
      rw [parseLine, parseCompleted_absent hb]
      exact parseParallel_absent hp s
    rw [List.foldlM_cons, hline]
    exact ih s
  | cons hr _ ih =>
    rw [List.foldlM_cons, parseLine_report hr]
    exact ih _

theorem Reported.map {rs : List Report} {text : Report → List Char} (h : ∀ r ∈ rs, r.In U (text r)) :
    Reported U rs (rs.map text) := by
  induction rs with
  | nil => exact .nil
  | cons r rs ih =>
    exact .cons (h r List.mem_cons_self) (ih fun r' hr => h r' (List.mem_cons_of_mem r hr))

theorem Reported.split {rs rs' : List Report} {lines : List (List Char)}
    (h : Reported U (rs ++ rs') lines) :
    ∃ first rest, lines = first ++ rest ∧ Reported U rs first ∧ Reported U rs' rest := by
  induction lines generalizing rs with
  | nil =>
    cases rs with
    | nil => exact ⟨[], [], rfl, .nil, h⟩
    | cons r rs => cases h
  | cons line lines ih =>
    cases rs with
    | nil => exact ⟨[], line :: lines, rfl, .nil, h⟩
    | cons r rs =>
      cases h with
      | other hb hp h =>
        obtain ⟨first, rest, rfl, hfirst, hrest⟩ := ih h
        exact ⟨line :: first, rest, rfl, .other hb hp hfirst, hrest⟩
      | cons hr h =>
        obtain ⟨first, rest, rfl, hfirst, hrest⟩ := ih h
        exact ⟨line :: first, rest, rfl, .cons hr hfirst, hrest⟩

/-- A log begins with a log of its first bbops. -/
theorem Log.first {b : Nat → Bbop} {n m : Nat} {lines : List (List Char)} (h : Log b n U lines)
    (hm : m ≤ n) : ∃ first, first <+: lines ∧ Log b m U first := by
  obtain ⟨d, rfl⟩ := Nat.exists_eq_add_of_le hm
  rw [Log, List.range_add, List.flatMap_append] at h
  obtain ⟨first, rest, rfl, hfirst, -⟩ := Reported.split h
  exact ⟨first, List.prefix_append first rest, hfirst⟩

end

/-! ## The texts of the two lines -/

def parallelText (subs repFactor : List Char) : List Char :=
  "subarrays=".toList ++ (subs ++ (", repFactor=".toList ++ (repFactor ++ [])))

def completedText (n name bp latency energy : List Char) : List Char :=
  "bbop_".toList ++ (n ++ (" completed: ".toList ++ (name ++ (", dynamicBP=".toList ++ (bp ++
    (", latency=".toList ++ (latency ++ (" ns, energy=".toList ++ (energy ++
      (" nJ".toList ++ []))))))))))

section

variable {U : CharData}

theorem asciiDigit_range {c : Char} {k : Nat} (h : asciiDigit c = some k) :
    48 ≤ c.toNat ∧ c.toNat ≤ 57 := by
  unfold asciiDigit at h
  split at h
  · assumption
  · cases h

theorem isDigit_ascii {c : Char} (hc : c.toNat < 128) : U.isDigit c = (asciiDigit c).isSome := by
  rw [CharData.isDigit, U.decimal_ascii c hc]

theorem all_isDigit {cs : List Char} (h : cs.all fun c => (asciiDigit c).isSome) :
    ∀ c ∈ cs, U.isDigit c = true := by
  intro c hc
  obtain ⟨k, hk⟩ := Option.isSome_iff_exists.1 (List.all_eq_true.1 h c hc)
  have hrange := asciiDigit_range hk
  rw [isDigit_ascii (by omega), hk, Option.isSome_some]

theorem pyInt_ascii {cs : List Char} (h : cs.all fun c => c.toNat < 128) :
    U.pyInt cs = readNat 10 asciiDigit cs := by
  have hmap : ∀ l : List Char, (∀ c ∈ l, c.toNat < 128) → l.mapM U.decimal = l.mapM asciiDigit := by
    intro l hl
    induction l with
    | nil => rfl
    | cons c l ih =>
      rw [List.mapM_cons, List.mapM_cons, U.decimal_ascii c (hl c List.mem_cons_self),
        ih fun d hd => hl d (List.mem_cons_of_mem c hd)]
  rw [CharData.pyInt, readNat, readNat, hmap cs fun c hc => by
    simpa using List.all_eq_true.1 h c hc]

theorem pyFloat_digit {c : Char} {k : Nat} (hc : asciiDigit c = some k) : U.pyFloat [c] = some (k : ℚ) := by
  have hrange := asciiDigit_range hc
  have hdot : (c != '.') = true := by
    rw [bne_iff_ne]
    rintro rfl
    exact absurd hrange.1 (by decide)
  simp [CharData.pyFloat, hdot, U.decimal_ascii c (by omega), hc, Nat.ofDigits]

theorem in_parallel {d : Char} {k : Nat} (hd : asciiDigit d = some k)
    (hb : ((parallelText [d] ['1']).tails.any fun s => "bbop_".toList.isPrefixOf s) = false) :
    Report.In U (.parallel k) (parallelText [d] ['1']) := by
  have hrange := asciiDigit_range hd
  have hlt : d.toNat < 128 := by omega
  have hfit : FitsWhole U.parallelPattern [[d], ['1']] (parallelText [d] ['1']) := by
    refine .lit (.run (by simp) (all_isDigit (by simp [hd])) ?_ (.lit (.run (by simp)
      (all_isDigit (by decide)) ?_ .nil)))
    · rintro _ ⟨⟩
      exact isDigit_ascii (by decide)
    · rintro _ ⟨⟩
  refine .parallel (.of_fitsWhole hfit) ?_ (absent_of_lit hb)
  rw [pyInt_ascii (by simpa using hlt)]
  simp [readNat, hd]

theorem in_completed {d : Char} {k : Nat} (hd : asciiDigit d = some k)
    (hp : ((completedText [d] ['A'] ['8'] ['5'] ['2']).tails.any fun s =>
      "subarrays=".toList.isPrefixOf s) = false) :
    Report.In U (.completed 8 5 2) (completedText [d] ['A'] ['8'] ['5'] ['2']) := by
  have hdec : ∀ c, c ∈ ['5'] ∨ c ∈ ['2'] → U.isDecimal c = true := by
    intro c hc
    rw [CharData.isDecimal, isDigit_ascii]
    · rcases hc with hc | hc <;> rw [List.mem_singleton.1 hc] <;> decide
    · rcases hc with hc | hc <;> rw [List.mem_singleton.1 hc] <;> decide
  have hword : ∀ c ∈ ['A'], U.word c = true := by
    intro c hc
    rw [List.mem_singleton.1 hc, U.word_ascii 'A' (by decide)]
    decide
  have hfit : FitsWhole U.bbopPattern [[d], ['A'], ['8'], ['5'], ['2']]
      (completedText [d] ['A'] ['8'] ['5'] ['2']) := by
    refine .lit (.run (by simp) (all_isDigit (by simp [hd])) ?_ (.lit (.run (by simp) hword ?_
      (.lit (.run (by simp) (all_isDigit (by decide)) ?_ (.lit (.run (by simp)
        (fun c hc => hdec c (.inl hc)) ?_ (.lit (.run (by simp) (fun c hc => hdec c (.inr hc)) ?_
          (.lit .nil))))))))))
    all_goals rintro _ ⟨⟩
    · exact isDigit_ascii (by decide)
    · exact U.word_ascii ',' (by decide)
    · exact isDigit_ascii (by decide)
    all_goals
      rw [CharData.isDecimal, isDigit_ascii (by decide)]
      decide
  refine .completed (.of_fitsWhole hfit) ?_ (pyFloat_digit (k := 5) (by decide))
    (pyFloat_digit (k := 2) (by decide)) (absent_of_lit hp)
  rw [pyInt_ascii (by decide)]
  decide

end

/-! ## The statistics -/

structure LogInv (b : Nat → Bbop) (n : Nat) (s : DaftpumStats) : Prop where
  bbops : s.totalBbops = n
  dist : total s.bitPrecisionDist = s.totalBbops
  avg : s.avgParallelism * n = ∑ k ∈ Finset.range n, subs b k + drift (subs b) (late b) n

section

variable {b : Nat → Bbop} {n : Nat} {s : DaftpumStats}

theorem LogInv.init : LogInv b 0 {} where
  bbops := rfl
  dist := rfl
  avg := by simp [drift, staleBefore]

/-- The bbop is counted when its subarrays arrive. -/
theorem LogInv.avg_fresh (h : LogInv b n s) (hb : late b n = false) :
    updateMean s.avgParallelism (s.totalBbops + 1) (subs b n) * (n + 1 : Nat) =
      ∑ k ∈ Finset.range (n + 1), subs b k + drift (subs b) (late b) (n + 1) := by
  rw [h.bbops, updateMean_fresh h.avg, drift_succ_fresh fun hs => by simp [hb] at hs,
    Finset.sum_range_succ]
  ring

/-- The subarrays arrive before the bbop is counted. -/
theorem LogInv.avg_late (h : LogInv b n s) (hb : late b n = true) :
    updateMean s.avgParallelism s.totalBbops (subs b n) * (n + 1 : Nat) =
      ∑ k ∈ Finset.range (n + 1), subs b k + drift (subs b) (late b) (n + 1) := by
  rw [h.bbops]
  rcases Nat.eq_zero_or_pos n with rfl | hn
  · rw [drift_succ_fresh fun hs => hs.1.false]
    simp [updateMean, drift, staleBefore]
  · rw [updateMean_stale hn.ne' h.avg, drift_succ_stale ⟨hn, hb⟩, mean, Finset.sum_range_succ]

theorem LogInv.step (h : LogInv b n s) : LogInv b (n + 1) ((b n).reports.foldl DaftpumStats.tell s) := by
  have hcount : total (dictSet (b n).bp (dictGet (b n).bp s.bitPrecisionDist + 1) s.bitPrecisionDist) =
      s.totalBbops + 1 := by
    rw [total_count, h.dist]
  have hbbops : s.totalBbops + 1 = n + 1 := by rw [h.bbops]
  cases hlate : (b n).late with
  | false =>
    have hst : (b n).reports.foldl DaftpumStats.tell s =
        (s.complete (b n).bp (b n).latency (b n).energy).parallel (b n).subarrays := by
      simp [Bbop.reports, hlate, DaftpumStats.tell]
    rw [hst]
    exact ⟨hbbops, hcount, h.avg_fresh hlate⟩
  | true =>
    have hst : (b n).reports.foldl DaftpumStats.tell s =
        (s.parallel (b n).subarrays).complete (b n).bp (b n).latency (b n).energy := by
      simp [Bbop.reports, hlate, DaftpumStats.tell]
    rw [hst]
    exact ⟨hbbops, hcount, h.avg_late hlate⟩

theorem LogInv.run (b : Nat → Bbop) (n : Nat) :
    LogInv b n (((List.range n).flatMap fun k => (b k).reports).foldl DaftpumStats.tell {}) := by
  induction n with
  | zero => exact .init
  | succ n ih =>
    rw [List.range_succ, List.flatMap_append, List.foldl_append, List.flatMap_singleton]
    exact ih.step

theorem parseStderr_log {U : CharData} {lines : List (List Char)} (h : Log b n U lines) :
    ∃ s, parseStderr U lines = some s ∧ s.totalBbops = n ∧ total s.bitPrecisionDist = s.totalBbops ∧
      (s.avgParallelism = mean (subs b) n ↔ drift (subs b) (late b) n = 0) := by
  have hinv := LogInv.run b n
  refine ⟨_, foldlM_reported h {}, hinv.bbops, hinv.dist, ?_⟩
  rcases Nat.eq_zero_or_pos n with rfl | hn
  · simp [mean, drift, staleBefore]
  · exact mean_of_drift hn.ne' hinv.avg

end

/-! ## The order of the lines alone -/

def unitBbop (late one : Bool) : Bbop := ⟨8, 5, 2, one.toNat, late⟩

def unitText : Report → List Char
  | .completed .. => completedText ['0'] ['A'] ['8'] ['5'] ['2']
  | .parallel k => parallelText [if k = 0 then '0' else '1'] ['1']

theorem log_unit (U : CharData) (late one : Nat → Bool) (n : Nat) :
    Log (fun k => unitBbop (late k) (one k)) n U
      (((List.range n).flatMap fun k => (unitBbop (late k) (one k)).reports).map unitText) := by
  refine Reported.map fun r hr => ?_
  obtain ⟨k, -, hk⟩ := List.mem_flatMap.1 hr
  have hr : r = .completed 8 5 2 ∨ r = .parallel (one k).toNat := by
    rw [Bbop.reports] at hk
    split at hk
    all_goals
      simp only [List.mem_cons, List.not_mem_nil, or_false] at hk
      rcases hk with rfl | rfl
      all_goals simp [unitBbop]
  rcases hr with rfl | rfl
  · exact in_completed (k := 0) (by decide) (by decide)
  · cases one k with
    | false => exact in_parallel (d := '0') (by decide) (by decide)
    | true => exact in_parallel (d := '1') (by decide) (by decide)

/-- An order of the lines is safe for all values exactly when no bbop but the first is late. -/
theorem order_iff {U : CharData} {n : Nat} {order : Nat → Bool} :
    (∀ b lines, (∀ k < n, late b k = order k) → Log b n U lines →
      (parseStderr U lines).map DaftpumStats.avgParallelism = some (mean (subs b) n)) ↔
    ∀ k, 0 < k → k < n → order k = false := by
  constructor
  · intro h
    by_contra hlate
    push Not at hlate
    obtain ⟨k, hk0, hkn, hk⟩ := hlate
    have hmem : k ∈ staleBefore order n := mem_staleBefore.2 ⟨hkn, hk0, by simpa using hk⟩
    -- one subarray for the last late bbop, none for the others
    obtain ⟨j, hj, hlast⟩ := (staleBefore order n).exists_max_image id ⟨k, hmem⟩
    have hlog := log_unit U order (fun k => decide (k = j)) n
    obtain ⟨s, hs, -, -, hiff⟩ := parseStderr_log hlog
    have hright := h _ _ (fun _ _ => rfl) hlog
    rw [hs, Option.map_some, Option.some.injEq, hiff] at hright
    refine drift_last_ne_zero hj hlast (fun i => ?_) hright
    by_cases hi : i = j <;> simp [subs, unitBbop, hi]
  · intro h b lines horder hlog
    obtain ⟨s, hs, -, -, hiff⟩ := parseStderr_log hlog
    rw [hs, Option.map_some, hiff.2]
    refine drift_eq_zero_of_mean fun k hk => ?_
    obtain ⟨hkn, hk0, hk⟩ := mem_staleBefore.1 hk
    rw [horder k hkn, h k hk0 hkn] at hk
    cases hk

theorem forall_staleBefore {order : Nat → Bool} {n : Nat} {p : Nat → Prop} :
    (∀ k ∈ staleBefore order n, p k) ↔ ∀ k < n, 0 < k → order k = true → p k := by
  simp only [mem_staleBefore, and_imp]

/-- The average is right after every bbop of a log exactly when every late one but the first has the
mean of those before it. -/
theorem right_upto_iff {U : CharData} {b : Nat → Bbop} {n : Nat} {lines : List (List Char)}
    (h : Log b n U lines) :
    (∀ m ≤ n, ∀ first, first <+: lines → Log b m U first →
      (parseStderr U first).map DaftpumStats.avgParallelism = some (mean (subs b) m)) ↔
    ∀ k ∈ staleBefore (late b) n, subs b k = mean (subs b) k := by
  rw [← drift_eq_zero_upto]
  constructor
  · intro hall m hm
    obtain ⟨first, hpre, hfirst⟩ := h.first hm
    obtain ⟨s, hs, -, -, hiff⟩ := parseStderr_log hfirst
    have hright := hall m hm first hpre hfirst
    rwa [hs, Option.map_some, Option.some.injEq, hiff] at hright
  · intro hzero m hm first _ hfirst
    obtain ⟨s, hs, -, -, hiff⟩ := parseStderr_log hfirst
    rw [hs, Option.map_some, hiff.2 (hzero m hm)]

/-- **The statistics of a log.** The bbops are counted and their precisions add up in every log. The
average is the mean exactly when the late bbops after the first exceed the means of the bbops before
them by amounts that cancel, where bbop `k` has the weight `1 / k` times `1 - 1 / m ^ 2` for every
later one `m`. If all of them are too high, or all too low, then none may be off at all, and neither
may any if the average is to be right after each bbop. Only the orders without late bbops after the
first are right for all values. -/
theorem parseStderr_iff (U : CharData) (b : Nat → Bbop) (n : Nat) :
    (∀ lines, Log b n U lines → ∃ s, parseStderr U lines = some s ∧ s.totalBbops = n ∧
      total s.bitPrecisionDist = s.totalBbops ∧
      (s.avgParallelism = mean (subs b) n ↔
        ∑ k ∈ Finset.range n with 0 < k ∧ late b k = true,
          (∏ m ∈ Finset.range n with k < m ∧ late b m = true, (1 - 1 / (m : ℚ) ^ 2)) / k *
            (subs b k - mean (subs b) k) = 0) ∧
      ((∀ k < n, 0 < k → late b k = true → mean (subs b) k ≤ subs b k) ∨
          (∀ k < n, 0 < k → late b k = true → subs b k ≤ mean (subs b) k) →
        (s.avgParallelism = mean (subs b) n ↔
          ∀ k < n, 0 < k → late b k = true → subs b k = mean (subs b) k)) ∧
      ((∀ m ≤ n, ∀ first, first <+: lines → Log b m U first →
          (parseStderr U first).map DaftpumStats.avgParallelism = some (mean (subs b) m)) ↔
        ∀ k < n, 0 < k → late b k = true → subs b k = mean (subs b) k)) ∧
    ((∀ b' lines, (∀ k < n, late b' k = late b k) → Log b' n U lines →
        (parseStderr U lines).map DaftpumStats.avgParallelism = some (mean (subs b') n)) ↔
      ∀ k, 0 < k → k < n → late b k = false) := by
  simp only [← forall_staleBefore]
  refine ⟨fun lines h => ?_, order_iff⟩
  obtain ⟨s, hs, hn, hdist, hiff⟩ := parseStderr_log h
  exact ⟨s, hs, hn, hdist, hiff, fun hside => hiff.trans (drift_eq_zero_iff_of_one_sided hside),
    right_upto_iff h⟩

/-- Two bbops with one and three subarrays, each reported before its completion. -/
def lateLog : List (List Char) :=
  [parallelText ['1'] ['1'], completedText ['0'] ['A'] ['8'] ['5'] ['2'],
    parallelText ['3'] ['1'], completedText ['1'] ['A'] ['8'] ['5'] ['2']]

def lateBbop (k : Nat) : Bbop := ⟨8, 5, 2, 2 * k + 1, true⟩

theorem parseStderr_late :
    mean (subs lateBbop) 2 = 2 ∧ ∀ U : CharData, Log lateBbop 2 U lateLog ∧
      (parseStderr U lateLog).map DaftpumStats.avgParallelism = some 3 := by
  refine ⟨by norm_num [mean, subs, lateBbop, Finset.sum_range_succ], fun U => ?_⟩
  have hlog : Log lateBbop 2 U lateLog :=
    .cons (in_parallel (by decide) (by decide)) <|
      .cons (in_completed (k := 0) (by decide) (by decide)) <|
      .cons (in_parallel (by decide) (by decide)) <|
      .cons (in_completed (k := 1) (by decide) (by decide)) .nil
  refine ⟨hlog, ?_⟩
  rw [parseStderr, foldlM_reported hlog {}]
  decide +kernel

end CimSigmoid.Gem5
