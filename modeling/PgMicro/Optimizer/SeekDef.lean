import PgMicro.BTree.Cursor
import PgMicro.Optimizer.SeekExpr

/-!
# Seek definitions

`usable_constraints_for_lhs_mask` merges the constraints of one column,
`build_seek_def_from_constraints` turns them into the start and the end of a range of an index or of
the rowids, and `mark_seek_constraints_consumed` says which WHERE terms are not evaluated again.
-/

namespace PgMicro.Optimizer.Seek

open Types (SortOrder)
open BTree (IterationDirection SeekOp)

inductive Operator where
  | equals
  | greater
  | greaterEquals
  | less
  | lessEquals
  /-- The operators that no range is made of. -/
  | other
  deriving DecidableEq, Repr

structure Constraint where
  operator : Operator
  tableColPos : Option Nat
  /-- The side of the comparison that is not the column. -/
  expr : Expr
  /-- The tables that side reads. -/
  lhsMask : List Nat
  fromOuterJoin : Bool

structure ConstraintRef where
  constraintVecPos : Nat
  indexColPos : Nat
  sortOrder : SortOrder

structure RangeConstraintRef where
  tableColPos : Option Nat
  indexColPos : Nat
  sortOrder : SortOrder
  eq : Option Nat
  lowerBound : Option Nat
  upperBound : Option Nat

def RangeConstraintRef.merge (group : RangeConstraintRef) (operator : Operator) (pos : Nat) :
    RangeConstraintRef :=
  if group.eq.isSome then group
  else
    match operator with
    | .greater | .greaterEquals => { group with lowerBound := some pos }
    | .less | .lessEquals => { group with upperBound := some pos }
    | .equals | .other => group

def newGroup (constraint : Constraint) (cref : ConstraintRef) : Option RangeConstraintRef :=
  let group := RangeConstraintRef.mk constraint.tableColPos cref.indexColPos cref.sortOrder
  match constraint.operator with
  | .equals => some (group (some cref.constraintVecPos) none none)
  | .greater | .greaterEquals => some (group none (some cref.constraintVecPos) none)
  | .less | .lessEquals => some (group none none (some cref.constraintVecPos))
  | .other => none

/-- The loop of `usable_constraints_for_lhs_mask`; `usable` is the last group before the others. -/
def usableConstraints (constraints : List Constraint) (lhsMask : List Nat) (tableIdx : Nat) :
    List ConstraintRef → (usable : List RangeConstraintRef) → (required : Nat) →
      List RangeConstraintRef
  | [], usable, _ => usable
  | cref :: refs, usable, required =>
    match constraints[cref.constraintVecPos]? with
    | none => usable
    | some constraint =>
      let next := usableConstraints constraints lhsMask tableIdx refs
      if tableIdx ∈ constraint.lhsMask ∨ ¬ constraint.lhsMask.all (· ∈ lhsMask) then
        if cref.indexColPos ≠ required then usable else next usable required
      else
        match usable with
        | group :: groups =>
          if cref.indexColPos = group.indexColPos then
            next (group.merge constraint.operator cref.constraintVecPos :: groups) required
          else if cref.indexColPos ≠ required then usable
          else if group.eq.isNone then usable
          else if constraint.operator = .equals ∧ group.tableColPos = constraint.tableColPos then
            next usable required
          else
            match newGroup constraint cref with
            | none => next usable required
            | some group => next (group :: usable) (required + 1)
        | [] =>
          if cref.indexColPos ≠ required then usable
          else
            match newGroup constraint cref with
            | none => next usable required
            | some group => next [group] (required + 1)

def usableConstraintsForLhsMask (constraints : List Constraint) (refs : List ConstraintRef)
    (lhsMask : List Nat) (tableIdx : Nat) : List RangeConstraintRef :=
  (usableConstraints constraints lhsMask tableIdx refs [] 0).reverse

/-- `mark_seek_constraints_consumed` on one constraint that is used. -/
def markedConsumed (isOuterJoin deferCrossTable : Bool) (constraint : Constraint) : Bool :=
  !(isOuterJoin && !constraint.fromOuterJoin) && !(deferCrossTable && !constraint.lhsMask.isEmpty)

structure Bound where
  operator : Operator
  expr : Expr

structure SeekRangeConstraint where
  sortOrder : SortOrder
  eq : Option Bound
  lowerBound : Option Bound
  upperBound : Option Bound

inductive SeekKeyComponent where
  | expr (e : Expr)
  | null
  | none

structure SeekKey where
  lastComponent : SeekKeyComponent
  op : SeekOp

structure SeekDef where
  prefixKey : List SeekRangeConstraint
  start : SeekKey
  stop : SeekKey
  iterDir : IterationDirection

def boundAt (constraints : List Constraint) (pos : Nat) : Option Bound :=
  (constraints[pos]?).map fun c => ⟨c.operator, c.expr⟩

def RangeConstraintRef.asSeekRangeConstraint (cref : RangeConstraintRef)
    (constraints : List Constraint) : SeekRangeConstraint :=
  match cref.eq with
  | some pos => ⟨cref.sortOrder, boundAt constraints pos, none, none⟩
  | none =>
    ⟨cref.sortOrder, none, cref.lowerBound.bind (boundAt constraints),
      cref.upperBound.bind (boundAt constraints)⟩

variable (iterDir : IterationDirection)

def startKey (strict : Operator) : Option Bound → Except Unit SeekKey
  | some bound =>
    if bound.operator = strict then
      .ok ⟨.expr bound.expr, match iterDir with | .forwards => .gt | .backwards => .lt⟩
    else if bound.operator = (if strict = .greater then .greaterEquals else .lessEquals) then
      .ok ⟨.expr bound.expr, match iterDir with | .forwards => .ge false | .backwards => .le false⟩
    else .error ()
  | none => .ok ⟨.none, match iterDir with | .forwards => .ge false | .backwards => .le false⟩

def stopKey (strict : Operator) : Option Bound → Except Unit SeekKey
  | some bound =>
    if bound.operator = strict then
      .ok ⟨.expr bound.expr, match iterDir with | .forwards => .ge false | .backwards => .le false⟩
    else if bound.operator = (if strict = .greater then .greaterEquals else .lessEquals) then
      .ok ⟨.expr bound.expr, match iterDir with | .forwards => .gt | .backwards => .lt⟩
    else .error ()
  | none => .ok ⟨.none, match iterDir with | .forwards => .gt | .backwards => .lt⟩

/-- `apply_null_boundaries`: behind the columns of an equality prefix, a range without lower bound
leaves out the NULLs. -/
def applyNullBoundaries (hasPrefix : Bool) (last : SeekRangeConstraint) (start stop : SeekKey) :
    SeekKey × SeekKey :=
  let hasUpperBoundOnly := last.upperBound.isSome && last.lowerBound.isNone
  let upperBoundIsLtOrLe := last.upperBound.any fun b =>
    b.operator == .less || b.operator == .lessEquals
  let applies := hasPrefix && hasUpperBoundOnly && upperBoundIsLtOrLe
  let isNone (key : SeekKey) : Bool := match key.lastComponent with | .none => true | _ => false
  let isExpr (key : SeekKey) : Bool := match key.lastComponent with | .expr _ => true | _ => false
  let start' : SeekKey :=
    if applies && isNone start && isExpr stop then
      match start.op, iterDir with
      | .ge _, .forwards => ⟨.null, .gt⟩
      | .le _, .backwards => ⟨.null, .lt⟩
      | _, _ => start
    else start
  let stop' : SeekKey :=
    if applies && isNone stop && isExpr start then
      match stop.op, iterDir with
      | .gt, .forwards => ⟨.null, .ge false⟩
      | .lt, .backwards => ⟨.null, .le false⟩
      | _, _ => stop
    else stop
  (start', stop')

def exactSeekDef (key : List SeekRangeConstraint) : SeekDef :=
  match iterDir with
  | .forwards => ⟨key, ⟨.none, .ge true⟩, ⟨.none, .gt⟩, iterDir⟩
  | .backwards => ⟨key, ⟨.none, .le true⟩, ⟨.none, .lt⟩, iterDir⟩

def buildSeekDef (key : List SeekRangeConstraint) (last : SeekRangeConstraint) :
    Except Unit SeekDef :=
  if last.eq.isSome then .ok (exactSeekDef iterDir (key ++ [last]))
  else do
    let (start, stop) ←
      match iterDir, last.sortOrder with
      | .forwards, .asc | .backwards, .desc => do
        let start ← startKey iterDir .greater last.lowerBound
        let stop ← stopKey iterDir .less last.upperBound
        pure (start, stop)
      | .forwards, .desc | .backwards, .asc => do
        let start ← startKey iterDir .less last.upperBound
        let stop ← stopKey iterDir .greater last.lowerBound
        pure (start, stop)
    let (start, stop) := applyNullBoundaries iterDir (!key.isEmpty) last start stop
    .ok ⟨key, start, stop, iterDir⟩

def buildSeekDefFromConstraints (constraints : List Constraint)
    (constraintRefs : List RangeConstraintRef) (iterDir : IterationDirection) :
    Except Unit SeekDef :=
  let key := constraintRefs.map fun cref => cref.asSeekRangeConstraint constraints
  match key.getLast? with
  | none => .ok (exactSeekDef iterDir [])
  | some last => buildSeekDef iterDir key.dropLast last

end PgMicro.Optimizer.Seek
