import CimSigmoid.Mem.Store
import Mathlib.Data.BitVec
import Mathlib.Data.List.FinRange

/-!
# The benchmark's memory image

`benchmark_main` (`vaisnav_benchmark/sigmoid_bench_ddr.c`, and the same text in
`azevodo_benchmark/azevodo_bench_ddr.c`) leaves its results in memory from
`RESULTS_BASE` on: four words per point, then five summary words. It also
stores a marker at `MARKER_ADDR`, at the start and at the end. The host script
`run_benchmark.py` reads 410 words back and decodes a row per point.

`MARKER_ADDR` is `RESULTS_BASE + 32`, which is the first word of point 2. The
completion marker takes the place of that point's cycle count, and the decoder
reads it as no count at all (`image_decodes_iff`).

Floats are their bit patterns here: the program stores them and the script
reads them by reinterpreting the word.
-/

namespace CimSigmoid.Bench

open Mem

def resultsBase : Nat := 0x10E000
def markerAddr : Nat := 0x10E020

/-! ## The program -/

/-- What is measured for one point: the cycle count and the bits of `y_f`, `ideal` and `e`. -/
structure Point where
  cycles : BitVec 32
  yF : BitVec 32
  ideal : BitVec 32
  e : BitVec 32
  cycles_lt : cycles.toNat < 0xFFFF0000

def results (k : Nat) : Nat := resultsBase + 4 * k

def pointStores (i : Nat) (p : Point) : List (Nat × BitVec 32) :=
  [(results (i * 4 + 0), p.cycles), (results (i * 4 + 1), p.yF),
    (results (i * 4 + 2), p.ideal), (results (i * 4 + 3), p.e)]

def resultStores (pts : Fin 100 → Point) : List (Nat × BitVec 32) :=
  (List.finRange 100).flatMap fun i : Fin 100 => pointStores i (pts i)

def summaryStores (summary : Fin 5 → BitVec 32) : List (Nat × BitVec 32) :=
  (List.finRange 5).map fun j : Fin 5 => (results (400 + j), summary j)

def benchmarkMain (pts : Fin 100 → Point) (summary : Fin 5 → BitVec 32) :
    List (Nat × BitVec 32) :=
  (markerAddr, 0xDEADBEEF) :: (resultStores pts ++ summaryStores summary) ++
    [(markerAddr, 0xFFFFFFFF)]

/-- Memory when `benchmark_main` is done. -/
def image (pts : Fin 100 → Point) (summary : Fin 5 → BitVec 32) (M : Nat → BitVec 32) :
    Nat → BitVec 32 :=
  stores (benchmarkMain pts summary) M

/-! ## The script -/

/-- `mrd 0x10E000 410`. -/
def dump (M : Nat → BitVec 32) : List (BitVec 32) := (List.range 410).map fun k => M (results k)

/-- A row of the table. A float is kept as its word, and a NaN with its payload, which the script's
floats need not keep. -/
structure Row where
  point : Nat
  xRaw : Int
  cycles : Nat
  yMeasured : BitVec 32
  yIdeal : BitVec 32
  absError : BitVec 32
  deriving DecidableEq, Repr

/-- `raw_cycles if raw_cycles < 0xFFFF0000 else None`. -/
def cyclesOf (raw : BitVec 32) : Option Nat :=
  if raw.toNat < 0xFFFF0000 then some raw.toNat else none

def row (values : List (BitVec 32)) (xRaw : List Int) (i : Nat) : Row where
  point := i
  xRaw := xRaw.getD i 0
  cycles := (cyclesOf (values.getD (i * 4 + 0) 0)).getD 0
  yMeasured := values.getD (i * 4 + 1) 0
  yIdeal := values.getD (i * 4 + 2) 0
  absError := values.getD (i * 4 + 3) 0

def nPoints (values : List (BitVec 32)) (xRaw : List Int) : Nat :=
  min 100 (min (values.length / 4) (if xRaw.isEmpty then 100 else xRaw.length))

/-- The rows `main` builds; with fewer than 400 words it gives up. -/
def decode (values : List (BitVec 32)) (xRaw : List Int) : Option (List Row) :=
  if values.length < 400 then none
  else some ((List.range (nPoints values xRaw)).map (row values xRaw))

def Row.Shows (r : Row) (p : Point) : Prop :=
  r.cycles = p.cycles.toNat ∧ r.yMeasured = p.yF ∧ r.yIdeal = p.ideal ∧ r.absError = p.e

/-! ## The image word by word -/

section

variable {pts : Fin 100 → Point} {summary : Fin 5 → BitVec 32} {M : Nat → BitVec 32}

theorem results_inj {j k : Nat} (h : results j = results k) : j = k := by
  unfold results at h; omega

theorem image_marker : image pts summary M (results 8) = 0xFFFFFFFF := by
  rw [image, benchmarkMain, stores_concat]
  exact Function.update_self ..

def Point.word (p : Point) : Nat → BitVec 32
  | 0 => p.cycles
  | 1 => p.yF
  | 2 => p.ideal
  | _ => p.e

theorem mem_pointStores {i : Nat} {p : Point} {q : Nat × BitVec 32} :
    q ∈ pointStores i p ↔ ∃ c, c < 4 ∧ q = (results (i * 4 + c), p.word c) := by
  simp only [pointStores, List.mem_cons, List.not_mem_nil, or_false]
  constructor
  · rintro (rfl | rfl | rfl | rfl)
    · exact ⟨0, by omega, rfl⟩
    · exact ⟨1, by omega, rfl⟩
    · exact ⟨2, by omega, rfl⟩
    · exact ⟨3, by omega, rfl⟩
  · rintro ⟨c, hc, rfl⟩
    rcases (by omega : c = 0 ∨ c = 1 ∨ c = 2 ∨ c = 3) with rfl | rfl | rfl | rfl <;>
      simp [Point.word]

theorem mem_resultStores {q : Nat × BitVec 32} : q ∈ resultStores pts ↔
    ∃ (i : Fin 100) (c : Nat), c < 4 ∧ q = (results (i * 4 + c), (pts i).word c) := by
  simp only [resultStores, List.mem_flatMap, List.mem_finRange, true_and, mem_pointStores]

/-- The result loop stores to each of its words once. -/
theorem stores_results (i : Fin 100) {c : Nat} (hc : c < 4) :
    stores (resultStores pts) M (results (i * 4 + c)) = (pts i).word c := by
  refine stores_of_forall_eq (mem_resultStores.2 ⟨i, c, hc, rfl⟩) fun q hq ha => ?_
  obtain ⟨j, d, hd, rfl⟩ := mem_resultStores.1 hq
  have hk := results_inj ha
  obtain rfl : d = c := by omega
  obtain rfl : j = i := Fin.ext (by omega)
  rfl

/-- **The result words.** The image has every word of the result loop but the one under the
marker. -/
theorem image_result (i : Fin 100) {c : Nat} (hc : c < 4) (hm : i.val * 4 + c ≠ 8) :
    image pts summary M (results (i * 4 + c)) = (pts i).word c := by
  have hne : results (i * 4 + c) ≠ markerAddr := fun h => hm (results_inj h)
  have hsum : ∀ q ∈ summaryStores summary, q.1 ≠ results (i * 4 + c) := by
    intro q hq ha
    obtain ⟨j, -, rfl⟩ := List.mem_map.1 hq
    have hk := results_inj ha
    omega
  rw [image, benchmarkMain, stores_concat, Function.update_of_ne hne, stores_cons, stores_append,
    stores_of_forall_ne hsum, stores_results i hc]

/-! ## What the script reads -/

theorem length_dump : (dump M).length = 410 := by simp [dump]

theorem dump_getD {k : Nat} (hk : k < 410) : (dump M).getD k 0 = M (results k) := by
  simp [dump, hk]

/-- Every point but point 2 is read as it was measured. -/
theorem row_of_ne_two (xRaw : List Int) {i : Fin 100} (hi : i ≠ 2) :
    (row (dump (image pts summary M)) xRaw i).Shows (pts i) := by
  have hi' : i.val ≠ 2 := fun h => hi (Fin.ext h)
  have hw : ∀ c, c < 4 → (dump (image pts summary M)).getD (i * 4 + c) 0 = (pts i).word c :=
    fun c hc => by rw [dump_getD (by omega), image_result i hc (by omega)]
  unfold row Row.Shows
  rw [hw 0 (by omega), hw 1 (by omega), hw 2 (by omega), hw 3 (by omega)]
  refine ⟨?_, rfl, rfl, rfl⟩
  simp [cyclesOf, Point.word, (pts i).cycles_lt]

/-- Point 2 is read with the cycle count 0. -/
theorem row_two (xRaw : List Int) :
    (row (dump (image pts summary M)) xRaw 2).Shows (pts 2) ↔ (pts 2).cycles = 0 := by
  have hw : ∀ c, c < 4 → c ≠ 0 →
      (dump (image pts summary M)).getD (2 * 4 + c) 0 = (pts 2).word c :=
    fun c hc h0 => by
      rw [dump_getD (by omega)]
      exact image_result 2 hc (by rw [show (2 : Fin 100).val = 2 from rfl]; omega)
  unfold row Row.Shows
  rw [hw 1 (by omega) (by omega), hw 2 (by omega) (by omega), hw 3 (by omega) (by omega),
    dump_getD (by omega), image_marker]
  have h0 : (cyclesOf 0xFFFFFFFF).getD 0 = 0 := by decide
  have hz : (pts 2).cycles.toNat = 0 ↔ (pts 2).cycles = 0 := by rw [← BitVec.toNat_inj]; rfl
  rw [h0, eq_comm, hz]
  exact ⟨fun h => h.1, fun h => ⟨h, rfl, rfl, rfl⟩⟩

theorem decode_dump (xRaw : List Int) : decode (dump M) xRaw = some
    ((List.range (min 100 (if xRaw.isEmpty then 100 else xRaw.length))).map
      (row (dump M) xRaw)) := by
  have hmin : ∀ k, min 100 (min (410 / 4) k) = min 100 k := by omega
  rw [decode, nPoints, length_dump, if_neg (by omega), hmin]

theorem decode_lookup {xRaw : List Int} {rows : List Row}
    (h : decode (dump M) xRaw = some rows) {i : Nat} {r : Row} : rows[i]? = some r ↔
      i < min 100 (if xRaw.isEmpty then 100 else xRaw.length) ∧ r = row (dump M) xRaw i := by
  rw [decode_dump, Option.some.injEq] at h
  rw [← h, List.getElem?_map, Option.map_eq_some_iff]
  constructor
  · rintro ⟨j, hj, rfl⟩
    obtain ⟨hlt, rfl⟩ := List.getElem?_eq_some_iff.1 hj
    rw [List.length_range] at hlt
    exact ⟨hlt, by rw [List.getElem_range]⟩
  · rintro ⟨hlt, rfl⟩
    exact ⟨i, List.getElem?_range hlt, rfl⟩

end

/-- **When the script shows what was measured.** Whatever was in memory before, the rows decoded
from the image are the measured ones exactly when point 2 took no cycles, the marker's word being
its count, and the list of inputs (if there is one) reaches all points. -/
theorem image_decodes_iff (pts : Fin 100 → Point) (summary : Fin 5 → BitVec 32)
    (M : Nat → BitVec 32) (xRaw : List Int) :
    (∃ rows, decode (dump (image pts summary M)) xRaw = some rows ∧
      ∀ i : Fin 100, ∃ r, rows[i.val]? = some r ∧ r.point = i ∧ r.Shows (pts i)) ↔
    (pts 2).cycles = 0 ∧ (xRaw = [] ∨ 100 ≤ xRaw.length) := by
  have hlen : min 100 (if xRaw.isEmpty then 100 else xRaw.length) = 100 ↔
      xRaw = [] ∨ 100 ≤ xRaw.length := by
    cases xRaw <;> simp
  constructor
  · rintro ⟨rows, hrows, h⟩
    obtain ⟨r, hr, -, hs⟩ := h 2
    obtain ⟨-, rfl⟩ := (decode_lookup hrows).1 hr
    refine ⟨(row_two xRaw).1 hs, hlen.1 ?_⟩
    obtain ⟨r, hr, -⟩ := h 99
    have h99 := ((decode_lookup hrows).1 hr).1
    rw [show (99 : Fin 100).val = 99 from rfl] at h99
    omega
  · rintro ⟨h2, hx⟩
    refine ⟨_, decode_dump xRaw, fun i => ⟨row (dump (image pts summary M)) xRaw i, ?_, rfl, ?_⟩⟩
    · exact (decode_lookup (decode_dump xRaw)).2 ⟨by rw [hlen.2 hx]; exact i.isLt, rfl⟩
    · by_cases hi : i = 2
      · subst hi; exact (row_two xRaw).2 h2
      · exact row_of_ne_two xRaw hi

def Point.oneCycle : Point := ⟨1, 0, 0, 0, by decide⟩

/-- When every point took one cycle, the row of point 2 says 0. -/
theorem image_loses_two : ¬ ∃ rows,
    decode (dump (image (fun _ => .oneCycle) (fun _ => 0) fun _ => 0)) (List.replicate 100 0) =
        some rows ∧
      ∀ i : Fin 100, ∃ r, rows[i.val]? = some r ∧ r.point = i ∧ r.Shows .oneCycle := by
  rintro ⟨rows, hrows, h⟩
  obtain ⟨r, hr, -, hs⟩ := h 2
  obtain ⟨-, rfl⟩ := (decode_lookup hrows).1 hr
  exact absurd ((row_two _).1 hs) (by decide)

end CimSigmoid.Bench
