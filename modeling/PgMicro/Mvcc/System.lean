import PgMicro.Mvcc.Checkpoint
import PgMicro.Mvcc.Commit
import PgMicro.Transition

/-!
# The step system

The store with the commit and rollback each transaction is in, as a labelled transition system.
`rollback_tx` is cut like `CommitEnd`. The ghosts remember what happened; nothing reads them.
-/

namespace PgMicro.Mvcc

open Function

/-- What is left to do of a `rollback_tx` that has marked its transaction aborted. -/
inductive RollbackState (κ : Type) where
  | notifyDependents
  | rollbackRows (ids : List (RowID κ))
  deriving DecidableEq, Repr

structure CommitRecord (κ : Type) where
  beginTs : Nat
  endTs : Nat
  writeSet : List (RowID κ)
  deriving DecidableEq, Repr

structure World (κ η : Type) where
  store : MvStore κ η
  btree : RowID κ → Option (Row κ)
  commits : TxID → Option (CommitStateMachine κ η)
  rollbacks : TxID → Option (RollbackState κ)
  /-- Ghost: the transactions that have become `Committed`. -/
  history : TxID → Option (CommitRecord κ)
  /-- Ghost: the end timestamps published by `CommitEnd`, newest first. -/
  published : List Nat
  /-- Ghost: what a transaction last wrote to a row; `some none` is a deletion. -/
  lastWrite : TxID → RowID κ → Option (Option (Row κ))
  /-- Ghost: the transaction has read the row, found nothing, and not written it since. -/
  foundNothing : TxID → RowID κ → Bool

inductive Action (κ η : Type) where
  | beginTx
  | beginExclusiveTx
  | upgradeToExclusiveTx (txId : TxID)
  | read (txId : TxID) (id : RowID κ)
  | queryBtreeVersionIsValid (txId : TxID) (id : RowID κ)
  | insert (txId : TxID) (row : Row κ)
  | insertTombstone (txId : TxID) (row : Row κ)
  | insertBtreeResident (txId : TxID) (row : Row κ)
  | update (txId : TxID) (row : Row κ)
  | delete (txId : TxID) (id : RowID κ)
  | withHeaderMut (txId : TxID) (f : η → η)
  | beginSavepoint (txId : TxID)
  | beginNamedSavepoint (txId : TxID) (name : String) (startsTransaction : Bool)
      (deferredFkViolations : Int)
  | releaseSavepoint (txId : TxID)
  | releaseNamedSavepoint (txId : TxID) (name : String)
  | rollbackFirstSavepoint (txId : TxID)
  | rollbackToNamedSavepoint (txId : TxID) (name : String)
  | commitTx (txId : TxID) (didCommitSchemaChange : Bool)
  | commitStep (txId : TxID)
  | rollbackTx (txId : TxID)
  | rollbackStep (txId : TxID)
  | checkpoint (durableTxidMaxOld : Nat)
      (isSchemaMetadataOnlyRewrite : RowVersion κ → RowVersion κ → Bool)

namespace World

variable {κ η : Type}

def opened (header : η) (btree : RowID κ → Option (Row κ)) (persistentTxTsMax : Nat) :
    World κ η where
  store := .new header persistentTxTsMax
  btree := btree
  commits _ := none
  rollbacks _ := none
  history _ := none
  published := []
  lastWrite _ _ := none
  foundNothing _ _ := false

/-- The transaction runs statements: it is `Active` and its commit has not begun. -/
def isRunning (w : World κ η) (txId : TxID) : Bool :=
  (w.store.txs txId).any (fun tx => decide (tx.state = .active)) && (w.commits txId).isNone

def withStore (w : World κ η) (s : MvStore κ η) : World κ η := { w with store := s }

def runOp {α : Type} (w : World κ η) (txId : TxID) (op : Except Failure (MvStore κ η × α)) :
    Option (World κ η) :=
  if w.isRunning txId then
    match op with
    | .ok (s, _) => some (w.withStore s)
    | .error _ => none
  else none

def commitRecord (s : MvStore κ η) (txId : TxID) (sm : CommitStateMachine κ η)
    (result : TransitionResult) : Option (CommitRecord κ) :=
  (s.txs txId).bind fun tx =>
    match sm.state, result with
    | .commitEnd endTs, .continue => some ⟨tx.beginTs, endTs, tx.writeSet⟩
    | .initial, .done => some ⟨tx.beginTs, s.clock, []⟩
    | .waitForDependencies endTs, .done => some ⟨tx.beginTs, endTs, []⟩
    | _, _ => none

def publishedTs (sm : CommitStateMachine κ η) (result : TransitionResult) : Option Nat :=
  match sm.state, result with
  | .publishCommit endTs, .continue => some endTs
  | _, _ => none

variable [IndexKey κ] [DecidableEq κ] (w : World κ η) (txId : TxID)

def read (id : RowID κ) : Option (World κ η × Option (Row κ)) :=
  if w.isRunning txId then
    match w.store.readFromTableOrIndex txId id with
    | .ok (s, row) =>
      some ({ w with
        store := s
        foundNothing := update w.foundNothing txId
          (update (w.foundNothing txId) id row.isNone) }, row)
    | .error _ => none
  else none

def runWrite (id : RowID κ) (value : Option (Row κ))
    (op : Except Failure (MvStore κ η × Except LimboError Bool)) : Option (World κ η) :=
  if w.isRunning txId then
    match op with
    | .ok (s, .ok true) =>
      some { w with
        store := s
        lastWrite := update w.lastWrite txId
          (update (w.lastWrite txId) id (some value))
        foundNothing := update w.foundNothing txId
          (update (w.foundNothing txId) id false) }
    | .ok (s, _) => some (w.withStore s)
    | .error _ => none
  else none

def commitStep : Option (World κ η) :=
  (w.commits txId).bind fun sm =>
    (sm.step w.store txId).map fun (s, sm', result) =>
      { w with
        store := s
        commits := update w.commits txId (if result = .done then none else some sm')
        history :=
          match commitRecord w.store txId sm result with
          | some record => update w.history txId (some record)
          | none => w.history
        published := (publishedTs sm result).toList ++ w.published }

/-- The start of `rollback_tx`: the transaction is marked aborted and its commit, if one
was under way, is abandoned. -/
def rollbackTx : Option (World κ η) :=
  if w.store.isTxRollbackable txId then
    some { w with
      store := (w.store.modifyTx txId fun tx => { tx with state := .aborted
        }).unlockCommitLockIfHeld txId
      commits := update w.commits txId none
      rollbacks := update w.rollbacks txId (some .notifyDependents) }
  else none

def rollbackStep : Option (World κ η) :=
  (w.rollbacks txId).bind fun
    | .notifyDependents =>
      let s := w.store.drainCommitDepSet txId true
      some { w with
        store := if s.isExclusiveTx txId then s.releaseExclusiveTx else s
        rollbacks := update w.rollbacks txId
          (some (.rollbackRows ((w.store.txs txId).elim [] Transaction.writeSet))) }
    | .rollbackRows (id :: ids) =>
      some { w with
        store := w.store.rollbackRowid txId id
        rollbacks := update w.rollbacks txId (some (.rollbackRows ids)) }
    | .rollbackRows [] =>
      ((w.store.modifyTx txId fun tx => { tx with state := .terminated }).removeTx txId).map
        fun s => { w with store := s, rollbacks := update w.rollbacks txId none }

def exec : Action κ η → Option (World κ η)
  | .beginTx =>
    match w.store.beginTx with
    | .ok (s, _) => some (w.withStore s)
    | .error _ => none
  | .beginExclusiveTx => some (w.withStore w.store.beginExclusiveTx.1)
  | .upgradeToExclusiveTx txId =>
    if w.isRunning txId then
      match w.store.upgradeToExclusiveTx txId with
      | .ok s => some (w.withStore s)
      | .error _ => none
    else none
  | .read txId id => (w.read txId id).map Prod.fst
  | .queryBtreeVersionIsValid txId id =>
    w.runOp txId (w.store.queryBtreeVersionIsValid txId id)
  | .insert txId row =>
    w.runWrite txId row.id (some row)
      ((w.store.insertToTableOrIndex txId row).map fun s => (s, .ok true))
  | .insertTombstone txId row =>
    w.runWrite txId row.id none
      ((w.store.insertTombstoneToTableOrIndex txId row).map fun s => (s, .ok true))
  | .insertBtreeResident txId row =>
    w.runWrite txId row.id (some row)
      ((w.store.insertBtreeResidentToTableOrIndex txId row).map fun s => (s, .ok true))
  | .update txId row =>
    w.runWrite txId row.id (some row) (w.store.updateToTableOrIndex txId row)
  | .delete txId id => w.runWrite txId id none (w.store.deleteFromTableOrIndex txId id)
  | .withHeaderMut txId f =>
    w.runOp txId ((w.store.withHeaderMut txId f).map fun s => (s, ()))
  | .beginSavepoint txId => w.runOp txId ((w.store.beginSavepoint txId).map fun s => (s, ()))
  | .beginNamedSavepoint txId name startsTransaction fk =>
    w.runOp txId
      ((w.store.beginNamedSavepoint txId name startsTransaction fk).map fun s => (s, ()))
  | .releaseSavepoint txId => w.runOp txId (.ok (w.store.releaseSavepoint txId, ()))
  | .releaseNamedSavepoint txId name =>
    w.runOp txId (w.store.releaseNamedSavepoint txId name)
  | .rollbackFirstSavepoint txId => w.runOp txId (w.store.rollbackFirstSavepoint txId)
  | .rollbackToNamedSavepoint txId name =>
    w.runOp txId (w.store.rollbackToNamedSavepoint txId name)
  | .commitTx txId didCommitSchemaChange =>
    if w.isRunning txId then
      some { w with
        commits := update w.commits txId
          (some ⟨.initial, didCommitSchemaChange, [], none⟩) }
    else none
  | .commitStep txId => w.commitStep txId
  | .rollbackTx txId => w.rollbackTx txId
  | .rollbackStep txId => w.rollbackStep txId
  | .checkpoint durableTxidMaxOld rewrite =>
    if durableTxidMaxOld ≤ w.store.durableTxidMax then
      match w.store.checkpoint rewrite durableTxidMaxOld w.btree with
      | .ok (s, btree) => some { w with store := s, btree := btree }
      | .error _ => none
    else none

def run (w : World κ η) (as : List (Action κ η)) : Option (World κ η) := Transition.run exec w as

def commitActions (txId : TxID) (rows : Nat) : List (Action κ η) :=
  .commitTx txId false :: List.replicate (rows + 11) (.commitStep txId)

end World

end PgMicro.Mvcc
