import Mathlib.Data.Nat.Bitwise
import Mathlib.Logic.Function.Basic

/-!
# Activation-literal status of IC3 clauses

`src/ic3/clause.ml:147-271` keeps, for each SMT solver instance, an array of flags indexed
by clause identifiers: bits 0 to 3 record which activation literals of the clause are
declared in that solver, bit 4 that the clause was deactivated. The array is created on the
first access of a solver instance and grown on an access past its end; a new solver
instance starts with no array, while clause identifiers keep growing globally.

The model keeps the hash table `solver_actlit_status` as a function from solver ids to an
optional array, and an out-of-bounds array access of OCaml as an `Except` error with the
runtime's message. The SMT assertions that `deactivate_clause` makes are side effects on
the solver, not on the table, and are left out.

`getActlitStatusArray_size` computes the length of the array returned for a request, and
`getActlitStatusOfClause_fresh` follows from it: on a fresh solver instance every clause
id from `actlit_array_size` on is out of bounds, since the first array is created with
`min (clause_id + 1) actlit_array_size` elements where its comment asks for an array large
enough to hold the clause.
-/

namespace Kind2

namespace Clause

/-! ## The table of status arrays -/

/-- `actlit_status_default` (`src/ic3/clause.ml:152`). -/
def actlitStatusDefault : Nat := 0

/-- `actlit_array_size` (`src/ic3/clause.ml:156`). -/
def actlitArraySize : Nat := 256

/-- `actlit_p0_bit` (`src/ic3/clause.ml:160`). -/
def actlitP0Bit : Nat := 1
/-- `actlit_p1_bit` (`src/ic3/clause.ml:161`). -/
def actlitP1Bit : Nat := 2
/-- `actlit_n0_bit` (`src/ic3/clause.ml:162`). -/
def actlitN0Bit : Nat := 4
/-- `actlit_n1_bit` (`src/ic3/clause.ml:163`). -/
def actlitN1Bit : Nat := 8
/-- `actlit_dead_bit` (`src/ic3/clause.ml:164`). -/
def actlitDeadBit : Nat := 16

/-- `solver_actlit_status` (`src/ic3/clause.ml:148`): the status array of each solver
instance, by the instance's identifier. -/
def ActlitTable := Int → Option (Array Nat)

namespace ActlitTable

/-- The table before any access. -/
def empty : ActlitTable := fun _ => none

/-- `IntegerHashtbl.replace` (and `add` on a missing key). -/
def replace (t : ActlitTable) (solverId : Int) (a : Array Nat) : ActlitTable :=
  Function.update t solverId (some a)

@[simp] theorem empty_apply (solverId : Int) : empty solverId = none := rfl

@[simp] theorem replace_same (t : ActlitTable) (solverId : Int) (a : Array Nat) :
    t.replace solverId a solverId = some a := Function.update_self ..

@[simp] theorem replace_ne (t : ActlitTable) {solverId solverId' : Int} (a : Array Nat)
    (h : solverId' ≠ solverId) : t.replace solverId a solverId' = t solverId' :=
  Function.update_of_ne h ..

end ActlitTable

/-- `Array.blit src 0 dst 0 (Array.length src)`: the first elements of `dst` replaced by
those of `src`. -/
def blit (src dst : Array Nat) : Array Nat :=
  Array.ofFn fun i : Fin dst.size => if h : i.1 < src.size then src[i.1] else dst[i.1]

@[simp] theorem size_blit (src dst : Array Nat) : (blit src dst).size = dst.size := by
  simp [blit]

/-- `get_actlit_status_array` (`src/ic3/clause.ml:172`): the status array of a solver
instance, grown to twice its length when it does not contain the clause, and created with
`min (clause_id + 1) actlit_array_size` elements on the first access. -/
def getActlitStatusArray (t : ActlitTable) (solverId : Int) (clauseId : Nat) :
    ActlitTable × Array Nat :=
  match t solverId with
  | some actlitStatus =>
    if actlitStatus.size > clauseId then (t, actlitStatus)
    else
      let actlitStatus' :=
        blit actlitStatus (Array.replicate (actlitStatus.size * 2) actlitStatusDefault)
      (t.replace solverId actlitStatus', actlitStatus')
  | none =>
    let actlitStatus :=
      Array.replicate (min (clauseId + 1) actlitArraySize) actlitStatusDefault
    (t.replace solverId actlitStatus, actlitStatus)

/-- OCaml's bounds-checked `a.(i)`. -/
def arrayGet (a : Array Nat) (i : Nat) : Except String Nat :=
  match a[i]? with
  | some x => .ok x
  | none => .error "index out of bounds"

/-- `get_actlit_status_of_clause` (`src/ic3/clause.ml:235`). -/
def getActlitStatusOfClause (t : ActlitTable) (solverId : Int) (clauseId : Nat) :
    Except String (ActlitTable × Nat) :=
  let (t', a) := getActlitStatusArray t solverId clauseId
  (arrayGet a clauseId).map fun x => (t', x)

/-- `set_actlit_status_of_clause` (`src/ic3/clause.ml:240`): or the bit into the status of
the clause, in the array stored for the solver instance. -/
def setActlitStatusOfClause (t : ActlitTable) (solverId : Int) (actlitBit clauseId : Nat) :
    Except String ActlitTable :=
  let (t', a) := getActlitStatusArray t solverId clauseId
  (arrayGet a clauseId).map fun x => t'.replace solverId (a.set! clauseId (actlitBit ||| x))

/-- `actlit_undefined` (`src/ic3/clause.ml:256`): whether the activation literal of the bit
is not yet declared, failing on a deactivated clause. -/
def actlitUndefined (t : ActlitTable) (solverId : Int) (actlitBit clauseId : Nat) :
    Except String (ActlitTable × Bool) := do
  let (t', actlitStatus) ← getActlitStatusOfClause t solverId clauseId
  if actlitStatus &&& actlitDeadBit ≠ 0 then
    throw "actlit_of_clause: Clause is dead"
  pure (t', actlitStatus &&& actlitBit = 0)

/-- `deactivate_clause` (`src/ic3/clause.ml:490`): query the four activation literals of the
clause, then mark it dead. -/
def deactivateClause (t : ActlitTable) (solverId : Int) (clauseId : Nat) :
    Except String ActlitTable := do
  let (t, _) ← actlitUndefined t solverId actlitP0Bit clauseId
  let (t, _) ← actlitUndefined t solverId actlitP1Bit clauseId
  let (t, _) ← actlitUndefined t solverId actlitN0Bit clauseId
  let (t, _) ← actlitUndefined t solverId actlitN1Bit clauseId
  setActlitStatusOfClause t solverId actlitDeadBit clauseId

/-! ## The length of the status array -/

/-- The array returned for a request has the old length when it holds the clause, twice
the old length when it does not, and `min (clause_id + 1) actlit_array_size` on the first
access of the solver instance. -/
theorem getActlitStatusArray_size (t : ActlitTable) (solverId : Int) (clauseId : Nat) :
    (getActlitStatusArray t solverId clauseId).2.size =
      match t solverId with
      | some a => if clauseId < a.size then a.size else a.size * 2
      | none => min (clauseId + 1) actlitArraySize := by
  unfold getActlitStatusArray
  cases t solverId with
  | none => simp
  | some a =>
    by_cases h : clauseId < a.size
    · simp [h]
    · simp [h]

/-- On a solver instance with no array yet, every clause id from `actlit_array_size` on is
out of bounds: the array is created with `actlit_array_size` elements. -/
theorem getActlitStatusOfClause_fresh {t : ActlitTable} {solverId : Int}
    (ht : t solverId = none) {clauseId : Nat} (hc : actlitArraySize ≤ clauseId) :
    getActlitStatusOfClause t solverId clauseId = .error "index out of bounds" := by
  have hsize : (getActlitStatusArray t solverId clauseId).2.size =
      min (clauseId + 1) actlitArraySize := by
    rw [getActlitStatusArray_size, ht]
  have hnone : (getActlitStatusArray t solverId clauseId).2[clauseId]? = none :=
    Array.getElem?_eq_none (by rw [hsize]; omega)
  simp only [getActlitStatusOfClause, arrayGet, hnone]
  rfl

/-- Clause 256 on a fresh solver instance, the first id past the initial array. -/
theorem getActlitStatusOfClause_empty_256 :
    (getActlitStatusArray ActlitTable.empty 0 256).2.size = 256 ∧
      getActlitStatusOfClause ActlitTable.empty 0 256 = .error "index out of bounds" :=
  ⟨by simp [getActlitStatusArray_size, actlitArraySize],
    getActlitStatusOfClause_fresh rfl (by decide)⟩

end Clause

end Kind2
