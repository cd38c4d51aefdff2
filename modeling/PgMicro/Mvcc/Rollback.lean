import PgMicro.Mvcc.Store

/-!
# Undoing work: savepoint rollback and the pieces of transaction rollback

`rollback_savepoint_changes` undoes one savepoint from its lists of version ids. The end
of a transaction, on either path, notifies its dependents and takes it out of the map.
-/

namespace PgMicro.Mvcc

open Function

variable {κ η : Type}

def fetchSubOne (n : Nat) : Nat := if n = 0 then 2 ^ 64 - 1 else n - 1

/-- One dependent of a transaction that ends: `abort_now` is raised when it aborted, and
the counter goes down. -/
def notifyDependent (aborted : Bool) (txs : Txs κ η) (depTxId : TxID) : Txs κ η :=
  match txs depTxId with
  | some depTx =>
    update txs depTxId
      (some { depTx with
        abortNow := depTx.abortNow || aborted
        commitDepCounter := fetchSubOne depTx.commitDepCounter })
  | none => txs

def clearEnd (versionId : Nat) : List (RowVersion κ) → List (RowVersion κ)
  | [] => []
  | rv :: rest =>
    if rv.id = versionId then { rv with end_ := none } :: rest
    else rv :: clearEnd versionId rest

namespace MvStore

def drainCommitDepSet (s : MvStore κ η) (txId : TxID) (aborted : Bool) : MvStore κ η :=
  match s.txs txId with
  | some tx =>
    let s' := s.modifyTx txId fun tx => { tx with commitDepSet := [] }
    { s' with txs := tx.commitDepSet.foldl (notifyDependent aborted) s'.txs }
  | none => s

/-- `remove_tx`; `none` is the failed assertion on a set that was not drained. -/
def removeTx (s : MvStore κ η) (txId : TxID) : Option (MvStore κ η) :=
  match s.txs txId with
  | some tx =>
    if tx.commitDepSet = [] then
      some { s with
        finalizedTxStates :=
          match tx.state with
          | .committed commitTs =>
            if tx.writeSet = [] then s.finalizedTxStates
            else update s.finalizedTxStates txId (some (.committed commitTs))
          | _ => s.finalizedTxStates
        txs := update s.txs txId none
        blockingCheckpointLock := s.blockingCheckpointLock.unlock }
    else none
  | none => some { s with blockingCheckpointLock := s.blockingCheckpointLock.unlock }

def isTxRollbackable (s : MvStore κ η) (txId : TxID) : Bool :=
  match s.txs txId with
  | some tx =>
    match tx.state with
    | .active | .preparing _ => true
    | _ => false
  | none => false

section

variable [DecidableEq κ] (s : MvStore κ η) (txId : TxID)

def rollbackRowid (rowid : RowID κ) : MvStore κ η :=
  { s with
    rows := update s.rows rowid ((s.rows rowid).map (rollbackRowVersion txId)) }

def rewriteRowid (endTs : Nat) (rowid : RowID κ) : MvStore κ η :=
  { s with
    rows := update s.rows rowid ((s.rows rowid).map (rewriteRowVersion txId endTs)) }

def rowHasUncommittedVersionForTx (rowid : RowID κ) (txId : TxID) : Bool :=
  (s.rows rowid).any fun rv => rv.refersTo txId

def removeRolledBackRowsFromWriteSet (rowids : List (RowID κ)) : MvStore κ η :=
  s.modifyTx txId fun tx =>
    { tx with
      writeSet := tx.writeSet.filter fun id =>
        !(decide (id ∈ rowids) && !s.rowHasUncommittedVersionForTx id txId) }

def removeCreatedVersion (rows : RowID κ → List (RowVersion κ)) (created : RowID κ × Nat) :
    RowID κ → List (RowVersion κ) :=
  update rows created.1 ((rows created.1).filter fun rv => rv.id != created.2)

def restoreDeletedVersion (rows : RowID κ → List (RowVersion κ)) (deleted : RowID κ × Nat) :
    RowID κ → List (RowVersion κ) :=
  update rows deleted.1 (clearEnd deleted.2 (rows deleted.1))

/-- The four loops of `rollback_savepoint_changes` over the version lists. -/
def undoVersions (sp : Savepoint κ η) (rows : RowID κ → List (RowVersion κ)) :
    RowID κ → List (RowVersion κ) :=
  let rows := sp.createdTableVersions.foldl removeCreatedVersion rows
  let rows := sp.createdIndexVersions.foldl removeCreatedVersion rows
  let rows := sp.deletedTableVersions.foldl restoreDeletedVersion rows
  sp.deletedIndexVersions.foldl restoreDeletedVersion rows

def touchedRowids (sp : Savepoint κ η) : List (RowID κ) :=
  sp.createdTableVersions.map Prod.fst ++ sp.deletedTableVersions.map Prod.fst ++
    sp.newlyAddedToWriteSet

def rollbackSavepointChanges (sp : Savepoint κ η) : MvStore κ η :=
  let s := { s with rows := undoVersions sp s.rows }
  let s := s.removeRolledBackRowsFromWriteSet txId (touchedRowids sp)
  s.modifyTx txId fun tx => { tx with header := sp.header, headerDirty := sp.headerDirty }

def rollbackFirstSavepoint : Except Failure (MvStore κ η × Bool) :=
  match s.txs txId with
  | none => .error .panicked
  | some tx =>
    match tx.popStatementSavepoint with
    | some (sp, tx') =>
      .ok (rollbackSavepointChanges (s.modifyTx txId fun _ => tx') txId sp, true)
    | none => .ok (s, false)

def rollbackToNamedSavepoint (s : MvStore κ η) (txId : TxID) (name : String) :
    Except Failure (MvStore κ η × Option Int) :=
  match s.txs txId with
  | none => .error .panicked
  | some tx =>
    match tx.rollbackToNamedSavepoint name with
    | some (drained, deferredFkViolations, tx') =>
      .ok (drained.foldl (fun s sp => rollbackSavepointChanges s txId sp)
        (s.modifyTx txId fun _ => tx'), some deferredFkViolations)
    | none => .ok (s, none)

end

def beginSavepoint (s : MvStore κ η) (txId : TxID) : Except Failure (MvStore κ η) :=
  match s.txs txId with
  | none => .error .panicked
  | some _ => .ok (s.modifyTx txId Transaction.beginSavepoint)

def beginNamedSavepoint (s : MvStore κ η) (txId : TxID) (name : String)
    (startsTransaction : Bool) (deferredFkViolations : Int) : Except Failure (MvStore κ η) :=
  match s.txs txId with
  | none => .error .panicked
  | some _ =>
    .ok (s.modifyTx txId
      (·.beginNamedSavepoint name startsTransaction deferredFkViolations))

def releaseSavepoint (s : MvStore κ η) (txId : TxID) : MvStore κ η :=
  s.modifyTx txId Transaction.releaseSavepoint

def releaseNamedSavepoint (s : MvStore κ η) (txId : TxID) (name : String) :
    Except Failure (MvStore κ η × SavepointResult) :=
  match s.txs txId with
  | none => .error .panicked
  | some tx =>
    let (tx', result) := tx.releaseNamedSavepoint name
    .ok (s.modifyTx txId fun _ => tx', result)

end MvStore

end PgMicro.Mvcc
