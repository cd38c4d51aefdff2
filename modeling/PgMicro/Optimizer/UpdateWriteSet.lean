import PgMicro.OrderedScan
import PgMicro.Schema.GeneratedColumns
import Mathlib

/-!
# The fused loop of UPDATE

`update_write_set_reason` of `core/translate/optimizer/mod.rs` decides whether an UPDATE first
collects the rows it writes. If not, one loop advances the cursor of the access path, tests the
WHERE clause and rewrites the row with its index entries (`core/translate/emitter/update.rs`). The
scanned index is written through the cursor that scans it, which stays on the last new entry.

Index methods are left out. An index is ordered by a rank of its key values, in the direction of
the scan, and the rowid.
-/

namespace PgMicro.Optimizer

open Types (Value)
open Schema

/-- `usize::MAX`, which stands for the rowid in a SET list and for an expression in an index. -/
def sentinel : Nat := 2 ^ 64 - 1

structure IndexColumn where
  posInTable : Nat
  expr : Option RowExpr

structure Index where
  columns : List IndexColumn
  whereClause : Option RowPred

inductive Operation where
  | scan (index : Option Index)
  | seek (index : Option Index)
  | inSeek (index : Option Index)
  | rowidEq
  | multiIndexScan

def Operation.index : Operation → Option Index
  | scan index | seek index | inSeek index => index
  | rowidEq | multiIndexScan => none

inductive DmlSafetyReason where
  | trigger
  | multiIndexScan
  | replaceMode
  | keyMutation
  deriving DecidableEq

abbrev Rows := List Row

/-- What the constraints of a new row come to: it is written, it is passed over, or the statement
ends with an error. -/
inductive Verdict where
  | write
  | ignore
  | halt
  deriving DecidableEq

/-- An UPDATE of one table. The values of the SET clauses and the WHERE clause may read the table
through subqueries. Writing a row may write others: rows that a constraint with ON CONFLICT REPLACE
deletes, rows that foreign-key actions rewrite; rowids stay distinct. -/
structure UpdatePlan where
  columns : List Column
  graph : GeneratedColGraph
  built : GeneratedColGraph.build columns = .ok graph
  op : Operation
  hasTriggers : Bool
  orReplace : Bool
  setClauses : List (Nat × (Rows → Row → Value))
  whereClause : Rows → Row → Bool
  check : Rows → Row → Row → Verdict
  otherWrites : Rows → Row → Row → Rows → Rows
  distinct : ∀ rows row new rows', (rows'.map Row.rowid).Nodup →
    ((otherWrites rows row new rows').map Row.rowid).Nodup

namespace UpdatePlan

variable (plan : UpdatePlan)

def updatedCols : List Nat := plan.setClauses.map Prod.fst

def isRowidAlias (i : Nat) : Bool := (plan.columns[i]?).any Column.isRowidAlias

def rowidUpdated : Bool :=
  plan.updatedCols.any fun i => i == sentinel || plan.isRowidAlias i

def updateWriteSetReason : Option DmlSafetyReason :=
  match plan.op with
  | .multiIndexScan => some .multiIndexScan
  | op =>
    if plan.hasTriggers then some .trigger
    else if plan.orReplace then some .replaceMode
    else
      match op.index with
      | none => if plan.rowidUpdated then some .keyMutation else none
      | some index =>
        let inExpression := plan.updatedCols.any fun i => index.columns.any fun c =>
          match c.expr with
          | none => false
          | some expr => decide (i ∈ expr.reads)
        let affected := columnsAffectedByUpdate plan.columns plan.graph plan.updatedCols
        if inExpression || index.columns.any fun c => decide (c.posInTable ∈ affected) then
          some .keyMutation
        else none

def mustUpdate (index : Index) : Bool :=
  let affected := columnsAffectedByUpdate plan.columns plan.graph plan.updatedCols
  let reads (cols : List Nat) := cols.any fun i => decide (i ∈ affected)
  plan.rowidUpdated ||
    (index.columns.any fun c =>
      match c.expr with
      | none => decide (c.posInTable ∈ affected)
      | some expr => reads expr.reads) ||
    index.whereClause.any fun pred => reads pred.reads

def keyValues (index : Index) (row : Row) : List Value :=
  index.columns.map fun c =>
    match c.expr with
    | none => columnValue plan.columns row c.posInTable
    | some expr => expr.eval (columnValue plan.columns row)

def inIndex (index : Index) (row : Row) : Bool :=
  match index.whereClause with
  | none => true
  | some pred => pred.holds (columnValue plan.columns row)

def assign (rows : Rows) (row : Row) : Row where
  rowid :=
    match plan.setClauses.find? fun c => c.1 == sentinel || plan.isRowidAlias c.1 with
    | none => row.rowid
    | some c =>
      match c.2 rows row with
      | .integer i => i
      | _ => row.rowid
  stored i :=
    match plan.setClauses.find? fun c => c.1 == i with
    | none => row.stored i
    | some c => c.2 rows row

def replaceRow (rows : Rows) (row new : Row) : Rows :=
  rows.map fun r => if r.rowid = row.rowid then new else r

def rewrite (rows : Rows) (row : Row) : Rows :=
  let new := plan.assign rows row
  plan.otherWrites rows row new (replaceRow rows row new)

structure Progress where
  rows : Rows
  processed : List Int64
  halted : Bool

/-- The loop on a row that satisfies the WHERE clause. -/
def process (s : Progress) (row : Row) : Progress :=
  match plan.check s.rows row (plan.assign s.rows row) with
  | .halt => { s with halted := true }
  | .ignore => { s with processed := s.processed ++ [row.rowid] }
  | .write => { s with
      rows := plan.rewrite s.rows row
      processed := s.processed ++ [row.rowid] }

section

variable {ν : Type} [LinearOrder ν] (rank : List Value → ν) (backward : Bool)
  (inRange : List Value → Int64 → Bool)

def pathValues (row : Row) : List Value :=
  match plan.op.index with
  | none => []
  | some index => plan.keyValues index row

def position (row : Row) : ν ×ₗ ℤ :=
  toLex (rank (plan.pathValues row), if backward then -row.rowid.toInt else row.rowid.toInt)

def scanned (row : Row) : Bool :=
  plan.op.index.all (plan.inIndex · row) && inRange (plan.pathValues row) row.rowid

def keys (rows : Rows) : Finset (ν ×ₗ ℤ) :=
  ((rows.filter (plan.scanned inRange)).map (plan.position rank backward)).toFinset

def rowAt (rows : Rows) (k : ν ×ₗ ℤ) : Option Row :=
  rows.find? fun row => plan.scanned inRange row && decide (plan.position rank backward row = k)

def cursorAfter (rows : Rows) (row : Row) : ν ×ₗ ℤ :=
  let new := plan.assign rows row
  let moved :=
    match plan.check rows row new with
    | .ignore | .halt => false
    | .write => plan.op.index.all fun index => plan.mustUpdate index && plan.inIndex index new
  if moved then plan.position rank backward new else plan.position rank backward row

def visit (s : Progress) (k : ν ×ₗ ℤ) : Progress × Option (ν ×ₗ ℤ) :=
  match plan.rowAt rank backward inRange s.rows k with
  | none => (s, some k)
  | some row =>
    if plan.whereClause s.rows row then
      let s' := plan.process s row
      (s', if s'.halted then none else some (plan.cursorAfter rank backward s.rows row))
    else (s, some k)

def fusedRound :=
  OrderedScan.round (fun s : Progress => plan.keys rank backward inRange s.rows)
    (plan.visit rank backward inRange)

end

end UpdatePlan

end PgMicro.Optimizer
