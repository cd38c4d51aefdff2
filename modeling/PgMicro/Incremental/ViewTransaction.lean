import PgMicro.Incremental.Dbsp

/-!
# Deltas of views during a transaction

The opcodes `Insert` and `Delete` of `core/vdbe/execute.rs` append the row changes of a table to
the transaction states of its materialized views (`core/incremental/view.rs`); a commit hands the
states to `IncrementalView::merge_delta`, and `MaterializedViewCursor`
(`core/incremental/cursor.rs`) reads them before that. Undoing restores the contents of tables.

A delta is kept under the name that the opcode has for the table: INSERT gives it as it is written,
with its case and quotes, UPDATE the alias or the name without quotes, all others the name in the
catalogue. Only the views of a name are looked up with the name in lower case. A row has its rowid
in the place of the rowid alias.
-/

namespace PgMicro.Incremental

open Types (Value)

abbrev Contents := Int64 → Option (List Value)

/-- `ViewTransactionState`: the deltas of all tables, in the order in which they grew. -/
@[ext]
structure ViewTransactionState where
  changes : List (String × HashableRow × Int)

namespace ViewTransactionState

def empty : ViewTransactionState := ⟨[]⟩

def push (tx : ViewTransactionState) (table : String) (row : HashableRow) (weight : Int) :
    ViewTransactionState :=
  ⟨tx.changes ++ [(table, row, weight)]⟩

def tableDelta (tx : ViewTransactionState) (table : String) : Delta :=
  (tx.changes.filter fun c => c.1 == table).map Prod.snd

def len (tx : ViewTransactionState) : Nat := tx.changes.length

end ViewTransactionState

/-- `AllViewsTxState`: a view without an entry has an empty state. -/
abbrev AllViewsTxState := String → ViewTransactionState

def AllViewsTxState.push (states : AllViewsTxState) (views : List String) (table : String)
    (row : HashableRow) (weight : Int) : AllViewsTxState :=
  fun view => if view ∈ views then (states view).push table row weight else states view

/-- What `rowid()` and `record()` of the cursor on the table answer. -/
structure TableCursor where
  rowid : Option Int64
  record : Option (List Value)

section

-- `get_dependent_materialized_views`, which puts the name into lower case
variable (dependents : String → List String)

/-- The arm `CaptureRecord`: the row that the insert overwrites. -/
def captureRecord (cursor : TableCursor) (key : Int64) : Option HashableRow :=
  match cursor.rowid, cursor.record with
  | some k, some values => if k = key then some ⟨k, values⟩ else none
  | _, _ => none

/-- What `op_insert` appends; after a change of the rowid the old row is not captured. -/
def opInsert (tableName : String) (cursor : TableCursor) (row : HashableRow)
    (updateRowidChange : Bool) (states : AllViewsTxState) : AllViewsTxState :=
  let views := dependents tableName
  let states :=
    match (if updateRowidChange then none else captureRecord cursor row.rowid) with
    | none => states
    | some old => states.push views tableName old (-1)
  states.push views tableName row 1

def opDelete (tableName : String) (cursor : TableCursor) (states : AllViewsTxState) :
    AllViewsTxState :=
  match cursor.rowid, cursor.record with
  | some key, some values => states.push (dependents tableName) tableName ⟨key, values⟩ (-1)
  | _, _ => states

end

/-- A change of a row of the table `table` by a statement that calls it `identifier`. -/
inductive RowChange where
  /-- INSERT under a free rowid. -/
  | insert (table identifier : String) (key : Int64) (values : List Value)
  /-- DELETE, and the deletions of REPLACE. -/
  | delete (table : String) (key : Int64)
  /-- DO UPDATE of an upsert that keeps the rowid. -/
  | upsert (table : String) (key : Int64) (values : List Value)
  /-- UPDATE that keeps the rowid; the row may be read from the B-tree. -/
  | update (table identifier : String) (key : Int64) (values : List Value) (inBtree : Bool)
  /-- UPDATE or upsert that sets the rowid. -/
  | move (table identifier : String) (key newKey : Int64) (values : List Value)

def RowChange.table : RowChange → String
  | insert table .. | delete table .. | upsert table .. | update table .. | move table .. => table

def RowChange.apply (contents : Contents) : RowChange → Option Contents
  | insert _ _ key values =>
    if contents key = none then some (Function.update contents key (some values)) else none
  | delete _ key =>
    if contents key = none then none else some (Function.update contents key none)
  | upsert _ key values | update _ _ key values _ =>
    if contents key = none then none else some (Function.update contents key (some values))
  | move _ _ key newKey values =>
    if contents key = none ∨ Function.update contents key none newKey ≠ none then none
    else some (Function.update (Function.update contents key none) newKey (some values))

/-- The opcodes emitted for a row change, on a cursor that stands on the row. In MVCC mode an UPDATE
deletes the row first, and the cursor stays where it is: a row of the B-tree is still read. -/
def RowChange.opcodes (dependents : String → List String) (mvcc : Bool) (contents : Contents)
    (states : AllViewsTxState) : RowChange → AllViewsTxState
  | insert _ identifier key values =>
    opInsert dependents identifier ⟨none, none⟩ ⟨key, values⟩ false states
  | delete table key => opDelete dependents table ⟨some key, contents key⟩ states
  | upsert table key values =>
    opInsert dependents table ⟨some key, contents key⟩ ⟨key, values⟩ false states
  | update table identifier key values inBtree =>
    if mvcc then
      opInsert dependents identifier ⟨some key, if inBtree then contents key else none⟩
        ⟨key, values⟩ false (opDelete dependents table ⟨some key, contents key⟩ states)
    else opInsert dependents identifier ⟨some key, contents key⟩ ⟨key, values⟩ false states
  | move table identifier key newKey values =>
    opInsert dependents identifier ⟨none, none⟩ ⟨newKey, values⟩ true
      (opDelete dependents table ⟨some key, contents key⟩ states)

/-- `MaterializedViewCursor`: the changes it last computed with. -/
structure MaterializedViewCursor where
  view : String
  uncommitted : ViewTransactionState
  lastTxStateLen : Nat

def MaterializedViewCursor.new (view : String) : MaterializedViewCursor := ⟨view, .empty, 0⟩

def MaterializedViewCursor.ensureTxChangesComputed (cursor : MaterializedViewCursor)
    (states : AllViewsTxState) : MaterializedViewCursor :=
  let tx := states cursor.view
  if tx.len = cursor.lastTxStateLen then cursor
  else { cursor with uncommitted := tx, lastTxStateLen := tx.len }

/-- A connection: the contents of its tables now and at the start of the transaction, the named
savepoints and the savepoint of the statement with the contents they restore, and the open cursors
on views. -/
structure ViewConnection where
  tables : String → Contents
  start : String → Contents
  states : AllViewsTxState
  savepoints : List (String × (String → Contents))
  statement : String → Contents
  cursors : List MaterializedViewCursor

def ViewConnection.initial (tables : String → Contents) : ViewConnection :=
  ⟨tables, tables, fun _ => .empty, [], tables, []⟩

inductive ViewAction where
  | change (c : RowChange)
  | beginStatement
  /-- A statement fails and its savepoint is rolled back. -/
  | rollbackStatement
  | savepoint (name : String)
  | release (name : String)
  | rollbackTo (name : String)
  | openCursor (view : String)
  | readCursors
  | commit
  | rollback
  /-- `rollback_current_txn` of a statement that fails under ROLLBACK or in autocommit mode. -/
  | abortTransaction

namespace ViewConnection

variable (dependents : String → List String) (mvcc : Bool)

def savepointNamed (s : ViewConnection) (name : String) : Option (String × (String → Contents)) :=
  s.savepoints.find? fun sp => sp.1 == name

def endTransaction (tables : String → Contents) (states : AllViewsTxState) : ViewConnection :=
  ⟨tables, tables, states, [], tables, []⟩

def exec (s : ViewConnection) : ViewAction → Option ViewConnection
  | .change c =>
    (c.apply (s.tables c.table)).map fun contents =>
      { s with
        tables := Function.update s.tables c.table contents
        states := c.opcodes dependents mvcc (s.tables c.table) s.states }
  | .beginStatement => some { s with statement := s.tables }
  | .rollbackStatement => some { s with tables := s.statement }
  | .savepoint name => some { s with savepoints := (name, s.tables) :: s.savepoints }
  | .release name =>
    (s.savepointNamed name).map fun _ =>
      { s with savepoints := (s.savepoints.dropWhile fun sp => sp.1 != name).tail }
  | .rollbackTo name =>
    (s.savepointNamed name).map fun sp =>
      { s with
        tables := sp.2
        savepoints := s.savepoints.dropWhile fun sp => sp.1 != name }
  | .openCursor view => some { s with cursors := .new view :: s.cursors }
  | .readCursors =>
    some { s with cursors := s.cursors.map fun c => c.ensureTxChangesComputed s.states }
  | .commit => some (endTransaction s.tables fun _ => .empty)
  | .rollback => some (endTransaction s.start fun _ => .empty)
  | .abortTransaction => some (endTransaction s.start s.states)

/-- The delta that the view finds, under the name its query has for a table, in the `DeltaSet` that
a commit hands to `merge_delta`. -/
def mergedDelta (s : ViewConnection) (view scanned : String) : Delta :=
  (s.states view).tableDelta scanned

def cursorDelta (s : ViewConnection) (cursor : MaterializedViewCursor) (scanned : String) : Delta :=
  (cursor.ensureTxChangesComputed s.states).uncommitted.tableDelta scanned

end ViewConnection

end PgMicro.Incremental
