import Mathlib.Data.Nat.Bitwise

/-!
# The BRAM wrapper

`BRAMWrapper` of `gem5-stable/src/mem/bram_wrapper.cc`: a queue of transactions
that count down their latency and are dropped when it has run out. Sizes are
32-bit unsigned in the source, addresses 64-bit. The clock period and the
statistics texts have no effect on the queue and are left out.

`setCallbacks` ignores its arguments and `tick` reports nothing to anyone: a
completed transaction is only erased.
-/

namespace CimSigmoid.Gem5

/-- The parameters of `BRAM.py` that the queue depends on. -/
structure Params where
  sizeKB : Nat
  widthBytes : Nat
  latencyCycles : Nat

structure BRAMTransaction where
  addr : Nat
  isWrite : Bool
  cyclesRemaining : Nat
  deriving DecidableEq

structure Access where
  addr : Nat
  isWrite : Bool
  deriving DecidableEq

def BRAMTransaction.access (t : BRAMTransaction) : Access := ⟨t.addr, t.isWrite⟩

structure BRAMWrapper where
  widthBytes : Nat
  depth : Nat
  latency : Nat
  queueSize : Nat
  pendingTransactions : List BRAMTransaction
  deriving DecidableEq

namespace BRAMWrapper

/-- The constructor; `none` where it ends in `fatal`. A width of zero does not get that far: `_depth`
divides by it before the check. -/
def new (p : Params) : Option BRAMWrapper :=
  let sizeBytes := p.sizeKB * 1024 % 2 ^ 32
  if sizeBytes = 0 then none
  else if p.widthBytes = 0 ∨ p.widthBytes &&& (p.widthBytes - 1) ≠ 0 then none
  else some
    { widthBytes := p.widthBytes
      depth := sizeBytes / p.widthBytes
      latency := p.latencyCycles
      queueSize := 16
      pendingTransactions := [] }

def resetStats (w : BRAMWrapper) : BRAMWrapper := { w with pendingTransactions := [] }

/-- `canAccept` does not look at the kind of access. -/
def canAccept (w : BRAMWrapper) (addr : Nat) (_isWrite : Bool) : Bool :=
  w.pendingTransactions.length < w.queueSize && addr / w.widthBytes < w.depth

/-- The body of `enqueue` after its assertion. -/
def enqueue (w : BRAMWrapper) (addr : Nat) (isWrite : Bool) : BRAMWrapper :=
  { w with
    pendingTransactions := w.pendingTransactions ++ [⟨addr, isWrite, w.latency⟩] }

def countDown (t : BRAMTransaction) : BRAMTransaction :=
  if t.cyclesRemaining > 0 then { t with cyclesRemaining := t.cyclesRemaining - 1 } else t

/-- The loop of `tick`: count down, erase at zero. -/
def tickAll : List BRAMTransaction → List BRAMTransaction
  | [] => []
  | t :: ts =>
    if (countDown t).cyclesRemaining = 0 then tickAll ts else countDown t :: tickAll ts

def tick (w : BRAMWrapper) : BRAMWrapper :=
  { w with pendingTransactions := tickAll w.pendingTransactions }

/-- The transactions that the loop erases, in the order in which it does. -/
def completed : List BRAMTransaction → List Access
  | [] => []
  | t :: ts =>
    if (countDown t).cyclesRemaining = 0 then t.access :: completed ts else completed ts

theorem new_pendingTransactions {p : Params} {w : BRAMWrapper} (h : new p = some w) :
    w.pendingTransactions = [] := by
  simp only [new] at h
  split at h
  · cases h
  split at h
  · cases h
  · cases h
    rfl

def Completes (w : BRAMWrapper) : Prop := ∃ t ∈ w.pendingTransactions, t.cyclesRemaining ≤ 1

theorem countDown_cyclesRemaining (t : BRAMTransaction) :
    (countDown t).cyclesRemaining = t.cyclesRemaining - 1 := by
  unfold countDown
  split
  · rfl
  · omega

theorem tickAll_length_le (ts : List BRAMTransaction) : (tickAll ts).length ≤ ts.length := by
  induction ts with
  | nil => exact Nat.le_refl _
  | cons t ts ih =>
    rw [tickAll]
    split
    · exact Nat.le_succ_of_le ih
    · exact Nat.succ_le_succ ih

/-- A tick keeps the length exactly if it completes no transaction. -/
theorem tickAll_length_eq_iff (ts : List BRAMTransaction) :
    (tickAll ts).length = ts.length ↔ ∀ t ∈ ts, 1 < t.cyclesRemaining := by
  induction ts with
  | nil => simp [tickAll]
  | cons t ts ih =>
    have hle := tickAll_length_le ts
    rw [List.forall_mem_cons, ← ih, tickAll, countDown_cyclesRemaining]
    split
    · rw [List.length_cons]
      omega
    · rw [List.length_cons, List.length_cons]
      omega

theorem tick_length_eq_iff (w : BRAMWrapper) :
    w.tick.pendingTransactions.length = w.pendingTransactions.length ↔ ¬ w.Completes := by
  rw [tick, tickAll_length_eq_iff, Completes]
  simp only [not_exists, not_and, Nat.not_le]

end BRAMWrapper

/-- The wrapper that the defaults of `BRAM.py` build. -/
def defaultWrapper : BRAMWrapper := ⟨4, 16384, 1, 16, []⟩

example : BRAMWrapper.new ⟨64, 4, 1⟩ = some defaultWrapper := by decide

end CimSigmoid.Gem5
