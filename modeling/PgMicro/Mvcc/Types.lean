import Mathlib.Data.List.Basic
import Mathlib.Algebra.Order.Group.Nat

/-!
# Rows, versions and transactions

The data of `core/mvcc/database/mod.rs`. The index key type and the database header type are
parameters; the store looks into neither except through the operations of `IndexKey`.
-/

namespace PgMicro.Mvcc

abbrev TxID := Nat

abbrev MVTableId := Int

def sqliteSchemaMvccTableId : MVTableId := -1

def noExclusiveTx : TxID := 0

inductive RowKey (κ : Type) where
  | int (rowid : Int)
  | record (key : κ)
  deriving DecidableEq, Repr

namespace RowKey

variable {κ : Type}

def isIntKey : RowKey κ → Bool
  | .int _ => true
  | .record _ => false

end RowKey

structure RowID (κ : Type) where
  tableId : MVTableId
  rowId : RowKey κ
  deriving DecidableEq, Repr

instance [DecidableEq κ] (id : RowID κ) (ids : List (RowID κ)) : Decidable (id ∈ ids) :=
  inferInstance

structure Row (κ : Type) where
  id : RowID κ
  data : Option (List UInt8)
  columnCount : Nat
  deriving DecidableEq, Repr

inductive TxTimestampOrID where
  | timestamp (ts : Nat)
  | txId (id : TxID)
  deriving DecidableEq, Repr

structure RowVersion (κ : Type) where
  id : Nat
  begin_ : Option TxTimestampOrID
  end_ : Option TxTimestampOrID
  row : Row κ
  btreeResident : Bool
  deriving DecidableEq, Repr

structure LogRecord (κ η : Type) where
  txTimestamp : Nat
  rowVersions : List (RowVersion κ)
  header : Option η
  deriving DecidableEq, Repr

inductive TransactionState where
  | active
  | preparing (ts : Nat)
  | aborted
  | terminated
  | committed (ts : Nat)
  deriving DecidableEq, Repr

inductive SavepointKind where
  | statement
  | named (name : String) (startsTransaction : Bool)
  deriving DecidableEq, Repr

structure Savepoint (κ η : Type) where
  kind : SavepointKind
  deferredFkViolations : Int
  header : η
  headerDirty : Bool
  createdTableVersions : List (RowID κ × Nat)
  createdIndexVersions : List (RowID κ × Nat)
  deletedTableVersions : List (RowID κ × Nat)
  deletedIndexVersions : List (RowID κ × Nat)
  newlyAddedToWriteSet : List (RowID κ)
  deriving DecidableEq, Repr

/-- The savepoint stack is kept newest first, so `last_mut` is its head. -/
structure Transaction (κ η : Type) where
  state : TransactionState
  txId : TxID
  beginTs : Nat
  writeSet : List (RowID κ)
  readSet : List (RowID κ)
  header : η
  headerDirty : Bool
  savepointStack : List (Savepoint κ η)
  pagerCommitLockHeld : Bool
  commitDepCounter : Nat
  abortNow : Bool
  commitDepSet : List TxID
  /-- Ghost: every transaction this one has registered a commit dependency on. -/
  dependedOn : List TxID
  deriving DecidableEq, Repr

abbrev Txs (κ η : Type) := TxID → Option (Transaction κ η)

inductive SavepointResult where
  | commit
  | release
  | notFound
  deriving DecidableEq, Repr

inductive LimboError where
  | busy
  | noSuchTransactionID (id : TxID)
  | writeWriteConflict
  | schemaConflict
  | commitDependencyAborted
  | txTerminated
  deriving DecidableEq, Repr

/-- What the store asks of `SortableIndexKey`: its order, the order of a key cut to the
indexed columns, the prefix test and the unique/NULL tests over the indexed columns. -/
class IndexKey (κ : Type) where
  cmp : κ → κ → Ordering
  isUnique : κ → Bool
  containsNull : κ → Bool
  prefixCmp : κ → κ → Ordering
  matchesPrefix : κ → κ → Bool

end PgMicro.Mvcc
