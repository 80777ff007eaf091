import Mathlib.Logic.Function.Basic
import Mathlib.Data.List.Basic

/-!
# Element-wise loops

A memory of arrays is a function from arrays and indices to values. A loop is
element-wise if its iteration `i` reads and writes the arrays at `i` only: its body
acts on the column at `i`, one value an array. The iterations may then run in any
order, each once: every column is the body's result on the column before the loop
(`column_sweep`), also where the loop writes an array that it reads.
-/

namespace CimSigmoid.Mem

variable {B I V : Type} [DecidableEq I]

/-- The values of all arrays at one index. -/
def column (M : B → I → V) (i : I) : B → V := fun b => M b i

def visit (body : (B → V) → B → V) (M : B → I → V) (i : I) : B → I → V :=
  fun b => Function.update (M b) i (body (column M i) b)

def sweep (body : (B → V) → B → V) (order : List I) (M : B → I → V) : B → I → V :=
  order.foldl (visit body) M

theorem column_visit_self (body : (B → V) → B → V) (M : B → I → V) (i : I) :
    column (visit body M i) i = body (column M i) :=
  funext fun _ => Function.update_self ..

theorem column_visit_of_ne (body : (B → V) → B → V) (M : B → I → V) {i j : I} (h : j ≠ i) :
    column (visit body M i) j = column M j :=
  funext fun _ => Function.update_of_ne h _ _

/-- **Frame**: indices the loop does not visit keep their columns. -/
theorem column_sweep_of_notMem (body : (B → V) → B → V) {order : List I} {i : I}
    (h : i ∉ order) (M : B → I → V) : column (sweep body order M) i = column M i := by
  induction order generalizing M with
  | nil => rfl
  | cons j order ih =>
    obtain ⟨hj, ho⟩ := not_or.mp (mt List.mem_cons.mpr h)
    exact (ih ho _).trans (column_visit_of_ne body M hj)

/-- A visited column is the body's result, whatever the order of the others. -/
theorem column_sweep (body : (B → V) → B → V) {order : List I} (hn : order.Nodup) {i : I}
    (h : i ∈ order) (M : B → I → V) : column (sweep body order M) i = body (column M i) := by
  induction order generalizing M with
  | nil => cases h
  | cons j order ih =>
    obtain ⟨hj, ho⟩ := List.nodup_cons.mp hn
    by_cases he : i = j
    · subst he
      exact (column_sweep_of_notMem body hj _).trans (column_visit_self body M i)
    · have hi : i ∈ order := (List.mem_cons.mp h).resolve_left he
      exact (ih ho hi _).trans (congrArg body (column_visit_of_ne body M he))

end CimSigmoid.Mem
