import Mathlib.Data.BitVec
import Mathlib.Data.List.Perm.Basic
import Mathlib.Data.List.Nodup
import CimSigmoid.Mem.Sweep

/-!
# The bbop operations

`bbop_op` of `bbop_manager.c` runs one element-wise loop over two source arrays and a
destination of `unsigned int`. The loops are OpenMP `for` loops: each iteration runs once,
in an order the threads decide (`Schedule`). Latency and energy statistics and the
largest inputs, which only they use, are left out.
-/

namespace CimSigmoid.Proteus

open Mem

/-- `DATATYPE_BBOP`. -/
abbrev Word := BitVec 32

inductive BbopOperation where
  | bbopAdd | bbopAdd8 | bbopAdd16 | bbopAdd32 | bbopAdd64
  | bbopSub | bbopSub8 | bbopSub16 | bbopSub32 | bbopSub64
  | bbopMul | bbopMul8 | bbopMul16 | bbopMul32 | bbopMul64
  | bbopDiv | bbopDiv8 | bbopDiv16 | bbopDiv32 | bbopDiv64
  | bbopCpy | bbopRed | cpuCpy
  | mulSslSklansky24 | mulSslRb39 | mulSslRb35 | mulSslSklansky20 | mulSslSklansky22
  | mulSslSklansky15 | mulSslSklansky19 | mulSslRb34 | mulSslRb37 | mulSslDiv12 | mulSslDiv8
  | subSslFa11 | mulSslSklansky18 | subSslFa7 | mulSslCs14 | subSslFa9
  | bbopRelu | bbopCount
  deriving DecidableEq, Repr

/-- The macro `mmax`, on unsigned operands. -/
def mmax (x y : Word) : Word := if x > y then x else y

namespace BbopOperation

/-- What `bbop_op` stores for a pair of source elements; `none` where it reports an operation that
is not recognized. The division branch adds. -/
def element : BbopOperation → Option (Word → Word → Word)
  | bbopAdd | bbopAdd8 | bbopAdd16 | bbopAdd32 | bbopAdd64 => some fun a b => a + b
  | bbopSub | bbopSub8 | bbopSub16 | bbopSub32 | bbopSub64 => some fun a b => a - b
  | bbopMul | bbopMul8 | bbopMul16 | bbopMul32 | bbopMul64 => some fun a b => a * b
  | bbopDiv | bbopDiv8 | bbopDiv16 | bbopDiv32 | bbopDiv64 =>
    some fun a b => if b > 0 then a + b else 0
  | bbopCpy | cpuCpy => some fun a _ => a
  | bbopRelu => some fun a _ => mmax 0 a
  | _ => none

variable {B : Type} [DecidableEq B]

/-- One iteration on the values of all arrays at its index. -/
def body (op : BbopOperation) (A₁ A₂ C : B) (v : B → Word) : B → Word :=
  match op.element with
  | some f => Function.update v C (f (v A₁) (v A₂))
  | none => v

end BbopOperation

/-- An order in which the iterations of a loop over `size` elements run. -/
structure Schedule (size : Nat) where
  order : List Nat
  perm : order.Perm (List.range size)

def Schedule.sequential (size : Nat) : Schedule size := ⟨List.range size, .refl _⟩

section

variable {B : Type} {size : Nat}

def loop (body : (B → Word) → B → Word) (s : Schedule size) (M : B → Nat → Word) :
    B → Nat → Word :=
  sweep body s.order M

def bbopOp [DecidableEq B] (op : BbopOperation) (A₁ A₂ C : B) (s : Schedule size)
    (M : B → Nat → Word) : B → Nat → Word :=
  loop (op.body A₁ A₂ C) s M

theorem column_loop (body : (B → Word) → B → Word) (s : Schedule size) (M : B → Nat → Word)
    {i : Nat} (hi : i < size) : column (loop body s M) i = body (column M i) :=
  column_sweep body (s.perm.nodup_iff.mpr List.nodup_range)
    (s.perm.mem_iff.mpr (List.mem_range.mpr hi)) M

end

end CimSigmoid.Proteus
