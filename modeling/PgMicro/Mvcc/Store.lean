import PgMicro.Mvcc.Chain
import PgMicro.Mvcc.Savepoint
import PgMicro.Mvcc.Visibility

/-!
# The store and the operations of an active transaction

`MvStore` with its reads, its five write paths, the savepoint operations and the begin of a
transaction. Each operation runs under the lock of the chain it touches and is one step.
-/

namespace PgMicro.Mvcc

open Function

/-- `TursoRwLock`: `read` and `write` are attempts. -/
structure TursoRwLock where
  readers : Nat
  writer : Bool
  deriving DecidableEq, Repr

namespace TursoRwLock

def new : TursoRwLock := ⟨0, false⟩

def read (lock : TursoRwLock) : Option TursoRwLock :=
  if lock.writer then none else some { lock with readers := lock.readers + 1 }

def write (lock : TursoRwLock) : Option TursoRwLock :=
  if lock.writer || lock.readers != 0 then none else some { lock with writer := true }

def unlock (lock : TursoRwLock) : TursoRwLock :=
  if lock.writer then { lock with writer := false }
  else { lock with readers := lock.readers - 1 }

end TursoRwLock

structure RowidAllocator where
  maxRowid : Int
  initialized : Bool
  deriving DecidableEq, Repr

def RowidAllocator.insertRowIdMaybeUpdate (a : RowidAllocator) (rowid : Int) :
    RowidAllocator :=
  { a with maxRowid := max a.maxRowid rowid }

inductive Failure where
  | error (e : LimboError)
  | panicked
  deriving DecidableEq, Repr

/-- `rows` holds the chains of `rows` and of `index_rows`; `indexKeys` lists the keys of
each index in the order of its skip list. -/
structure MvStore (κ η : Type) where
  rows : RowID κ → List (RowVersion κ)
  indexKeys : MVTableId → List κ
  txs : Txs κ η
  finalizedTxStates : TxID → Option TransactionState
  txIds : TxID
  versionIdCounter : Nat
  clock : Nat
  exclusiveTx : TxID
  pagerCommitLock : TursoRwLock
  blockingCheckpointLock : TursoRwLock
  globalHeader : η
  tableIdToRootpage : MVTableId → Option (Option Nat)
  rowidAllocators : MVTableId → RowidAllocator
  durableTxidMax : Nat
  lastCommittedSchemaChangeTs : Nat
  lastCommittedTxTs : Nat
  /-- The frames the logical log owns, oldest first. -/
  log : List (LogRecord κ η)

namespace MvStore

variable {κ η : Type}

/-- `MvStore::new`, and what `maybe_recover_logical_log` makes of it when the log is empty:
the boundary and the clock come from the metadata table. -/
def new (header : η) (persistentTxTsMax : Nat) : MvStore κ η where
  rows _ := []
  indexKeys _ := []
  txs _ := none
  finalizedTxStates _ := none
  txIds := 1
  versionIdCounter := 1
  clock := persistentTxTsMax + 1
  exclusiveTx := noExclusiveTx
  pagerCommitLock := .new
  blockingCheckpointLock := .new
  globalHeader := header
  tableIdToRootpage id := if id = sqliteSchemaMvccTableId then some (some 1) else none
  rowidAllocators _ := ⟨0, false⟩
  durableTxidMax := persistentTxTsMax
  lastCommittedSchemaChangeTs := 0
  lastCommittedTxTs := 0
  log := []

variable (s : MvStore κ η) (txId : TxID)

def modifyTx (f : Transaction κ η → Transaction κ η) : MvStore κ η :=
  { s with txs := update s.txs txId ((s.txs txId).map f) }

def isExclusiveTx : Bool := s.exclusiveTx == txId

def hasExclusiveTx : Bool := s.exclusiveTx != noExclusiveTx

def releaseExclusiveTx : MvStore κ η :=
  { s with exclusiveTx := noExclusiveTx }

def unlockCommitLockIfHeld : MvStore κ η :=
  match s.txs txId with
  | some tx =>
    if tx.pagerCommitLockHeld then
      { s.modifyTx txId (fun tx => { tx with pagerCommitLockHeld := false }) with
        pagerCommitLock := s.pagerCommitLock.unlock }
    else s
  | none => s

def beginTx : Except LimboError (MvStore κ η × TxID) :=
  match s.blockingCheckpointLock.read with
  | none => .error .busy
  | some lock =>
    .ok ({ s with
      blockingCheckpointLock := lock
      txs := update s.txs s.txIds (some (.new s.txIds s.clock s.globalHeader))
      txIds := s.txIds + 1
      clock := s.clock + 1 }, s.txIds)

def acquireExclusiveTx : Except LimboError (MvStore κ η) :=
  if s.exclusiveTx = txId then .ok s
  else
    match s.txs txId with
    | some tx =>
      if tx.beginTs < s.lastCommittedTxTs then .error .busy
      else if s.exclusiveTx = noExclusiveTx then .ok { s with exclusiveTx := txId }
      else .error .busy
    | none =>
      if s.exclusiveTx = noExclusiveTx then .ok { s with exclusiveTx := txId }
      else .error .busy

/-- `begin_exclusive_tx(None)`. A failure still consumes the id and the timestamp; the
guard on the checkpoint lock is given back. -/
def beginExclusiveTx : MvStore κ η × Except LimboError TxID :=
  match s.blockingCheckpointLock.read with
  | none => (s, .error .busy)
  | some lock =>
    let txId := s.txIds
    let s' := { s with txIds := s.txIds + 1, clock := s.clock + 1 }
    match acquireExclusiveTx s' txId with
    | .error e => (s', .error e)
    | .ok acquired =>
      match s.pagerCommitLock.write with
      | none => (s', .error .busy)
      | some commitLock =>
        ({ acquired with
          blockingCheckpointLock := lock
          pagerCommitLock := commitLock
          txs := update s.txs txId
            (some { Transaction.new txId s.clock s.globalHeader with
              pagerCommitLockHeld := true }) }, .ok txId)

/-- `begin_exclusive_tx(Some(tx_id))`: upgrade a transaction that is already running. -/
def upgradeToExclusiveTx : Except LimboError (MvStore κ η) :=
  match s.txs txId with
  | none => .error (.noSuchTransactionID txId)
  | some tx =>
    match s.acquireExclusiveTx txId with
    | .error e => .error e
    | .ok acquired =>
      if tx.pagerCommitLockHeld then
        .ok (acquired.modifyTx txId fun tx =>
          { tx with pagerCommitLockHeld := true, header := s.globalHeader })
      else
        match s.pagerCommitLock.write with
        | none => .error .busy
        | some commitLock =>
          .ok ({ acquired with pagerCommitLock := commitLock }.modifyTx txId fun tx =>
            { tx with pagerCommitLockHeld := true, header := s.globalHeader })

def requireActive : Except Failure (Transaction κ η) :=
  match s.txs txId with
  | none => .error (.error (.noSuchTransactionID txId))
  | some tx => if tx.state = .active then .ok tx else .error .panicked

def withHeaderMut (f : η → η) : Except Failure (MvStore κ η) :=
  match s.txs txId with
  | none => .error (.error (.noSuchTransactionID txId))
  | some _ =>
    .ok (s.modifyTx txId fun tx => { tx with header := f tx.header, headerDirty := true })

section

variable [IndexKey κ] [DecidableEq κ]

def insertIndexKey (key : κ) : List κ → List κ
  | [] => [key]
  | k :: rest =>
    match IndexKey.cmp key k with
    | .lt => key :: k :: rest
    | .eq => k :: rest
    | .gt => k :: insertIndexKey key rest

def indexKeysWith (s : MvStore κ η) (id : RowID κ) : MVTableId → List κ :=
  match id.rowId with
  | .int _ => s.indexKeys
  | .record key =>
    update s.indexKeys id.tableId (insertIndexKey key (s.indexKeys id.tableId))

def insertVersion (s : MvStore κ η) (id : RowID κ) (rowVersion : RowVersion κ) :
    Option (MvStore κ η) :=
  (insertVersionRaw s.txs (s.rows id) rowVersion).map fun versions =>
    { s with
      rows := update s.rows id versions
      indexKeys := s.indexKeysWith id }

variable (s : MvStore κ η) (txId : TxID) (row : Row κ)

def addVersion (begin_ end_ : Option TxTimestampOrID) (btreeResident : Bool) :
    Option (MvStore κ η) :=
  let rowVersion : RowVersion κ :=
    { id := s.versionIdCounter, begin_, end_, row, btreeResident }
  { s with versionIdCounter := s.versionIdCounter + 1 }.modifyTx txId
      (fun tx => (tx.insertToWriteSet row.id).recordCreated row.id rowVersion.id)
    |>.insertVersion row.id rowVersion

def orPanic {α : Type} : Option α → Except Failure α
  | some a => .ok a
  | none => .error .panicked

def noteRowid (id : RowID κ) : MVTableId → RowidAllocator :=
  match id.rowId with
  | .int rowid =>
    update s.rowidAllocators id.tableId
      ((s.rowidAllocators id.tableId).insertRowIdMaybeUpdate rowid)
  | .record _ => s.rowidAllocators

def insertToTableOrIndex : Except Failure (MvStore κ η) :=
  match s.requireActive txId with
  | .error e => .error e
  | .ok _ =>
    orPanic ({ s with rowidAllocators := s.noteRowid row.id }.addVersion txId row
      (some (.txId txId)) none false)

def insertTombstoneToTableOrIndex : Except Failure (MvStore κ η) :=
  match s.txs txId with
  | none => .error (.error (.noSuchTransactionID txId))
  | some _ => orPanic (s.addVersion txId row none (some (.txId txId)) true)

def insertBtreeResidentToTableOrIndex : Except Failure (MvStore κ η) :=
  match s.requireActive txId with
  | .error e => .error e
  | .ok _ => orPanic (s.addVersion txId row (some (.txId txId)) none true)

def deleteFromTableOrIndex (id : RowID κ) : Except Failure (MvStore κ η × Except LimboError Bool) :=
  match s.rows id with
  | [] => .ok (s, .ok false)
  | v :: vs =>
    match s.requireActive txId with
    | .error e => .error e
    | .ok tx =>
      match findLastVisible s.txs s.finalizedTxStates tx (v :: vs).reverse [] with
      | (txs', none) => .ok ({ s with txs := txs' }, .ok false)
      | (txs', some (older, rv, newer)) =>
        if isWriteWriteConflict txs' s.finalizedTxStates tx rv then
          .ok ({ s with txs := txs' }, .error .writeWriteConflict)
        else
          .ok ({ s with
              txs := txs'
              rows := update s.rows id
                (older ++ { rv with end_ := some (.txId txId) } :: newer) }.modifyTx txId
              (fun tx => (tx.insertToWriteSet id).recordDeleted id rv.id), .ok true)

def updateToTableOrIndex : Except Failure (MvStore κ η × Except LimboError Bool) :=
  match s.deleteFromTableOrIndex txId row.id with
  | .error e => .error e
  | .ok (s', .ok true) => (s'.insertToTableOrIndex txId row).map fun s'' => (s'', .ok true)
  | .ok (s', .ok false) => .ok (s', .ok false)
  | .ok (s', .error e) => .ok (s', .error e)

def readFromTableOrIndex (id : RowID κ) : Except Failure (MvStore κ η × Option (Row κ)) :=
  match s.requireActive txId with
  | .error e => .error e
  | .ok tx =>
    match findLastVisible s.txs s.finalizedTxStates tx (s.rows id).reverse [] with
    | (txs', none) => .ok ({ s with txs := txs' }, none)
    | (txs', some (_, rv, _)) =>
      let s' := { s with txs := txs' }
      if id.rowId.isIntKey then
        .ok (s'.modifyTx txId (·.insertToReadSet id), some rv.row)
      else .ok (s', some rv.row)

def queryBtreeVersionIsValid (id : RowID κ) : Except Failure (MvStore κ η × Bool) :=
  match s.txs txId with
  | none => .error .panicked
  | some tx =>
    match anyBtreeInvalidating s.txs s.finalizedTxStates tx (s.rows id).reverse with
    | (txs', invalid) => .ok ({ s with txs := txs' }, !invalid)

end

end MvStore

end PgMicro.Mvcc
