import Mathlib.Data.List.Sort
import PgMicro.Mvcc.Rollback

/-!
# The commit state machine

`CommitStateMachine` and its validation. `CommitEnd` is cut where other threads can look in between:
marking the transaction committed, rewriting the chains, notifying the dependents, publishing header
and watermark, and leaving the map.
-/

namespace PgMicro.Mvcc

variable {κ η : Type}

inductive CommitState (κ η : Type) where
  | initial
  | commit (endTs : Nat)
  | waitForDependencies (endTs : Nat)
  | beginCommitLogicalLog (endTs : Nat) (logRecord : LogRecord κ η)
  | syncLogicalLog (endTs : Nat)
  | endCommitLogicalLog (endTs : Nat)
  | commitEnd (endTs : Nat)
  | rewriteLiveVersions (endTs : Nat) (ids : List (RowID κ))
  | notifyDependents (endTs : Nat)
  | publishCommit (endTs : Nat)
  | leaveTxs (endTs : Nat)
  deriving DecidableEq, Repr

/-- `pendingLogAppend` is the frame written by `log_tx` whose bytes the log does not own
yet (`pending_log_append_bytes`). -/
structure CommitStateMachine (κ η : Type) where
  state : CommitState κ η
  didCommitSchemaChange : Bool
  writeSet : List (RowID κ)
  pendingLogAppend : Option (LogRecord κ η)
  deriving DecidableEq, Repr

inductive TransitionResult where
  | continue
  | io
  | done
  | err (e : LimboError)
  deriving DecidableEq, Repr

section

variable [IndexKey κ]

def RowKey.cmp : RowKey κ → RowKey κ → Ordering
  | .int a, .int b => compare a b
  | .int _, .record _ => .lt
  | .record _, .int _ => .gt
  | .record a, .record b => IndexKey.cmp a b

def commitOrder (a b : RowID κ) : Ordering :=
  (compare b.tableId a.tableId).then (a.rowId.cmp b.rowId)

def sortWriteSet (ids : List (RowID κ)) : List (RowID κ) :=
  ids.insertionSort fun a b => commitOrder a b ≠ .gt

end

/-- The body of the loop of `check_version_conflicts` for the transaction that commits at
`endTs`: does this version make it fail?  The `expect` on the transaction behind a
tombstone is read as "no conflict": ownership of references rules the panic out. -/
def versionConflicts (txs : Txs κ η) (finalizedTxStates : TxID → Option TransactionState)
    (tx : Transaction κ η) (endTs : Nat) (version : RowVersion κ) : Bool :=
  match version.end_, version.begin_ with
  | some (.timestamp e), none => decide (tx.beginTs < e)
  | some (.timestamp e), some _ => decide (tx.beginTs < e)
  | some (.txId otherTxId), none =>
    if otherTxId = tx.txId then false
    else
      match (txs otherTxId).map Transaction.state with
      | some (.committed _) => true
      | some (.preparing otherEndTs) => decide (otherEndTs < endTs)
      | _ => false
  | none, none => false
  | end_, some begin_ =>
    match endOfOther end_ with
    | some true => true
    | some false => false
    | none =>
      match begin_ with
      | .txId otherTxId =>
        if otherTxId = tx.txId then false
        else
          match lookupTxState txs finalizedTxStates otherTxId with
          | some (.committed _) => true
          | some (.preparing otherEndTs) => decide (otherEndTs < endTs)
          | some _ => false
          | none => true
      | .timestamp _ => true
where
  endOfOther : Option TxTimestampOrID → Option Bool
    | some (.txId endTxId) =>
      if endTxId = tx.txId then some false
      else
        match lookupTxState txs finalizedTxStates endTxId with
        | some (.committed committedEndTs) => some (decide (tx.beginTs < committedEndTs))
        | _ => none
    | _ => none

def checkVersionConflicts (txs : Txs κ η)
    (finalizedTxStates : TxID → Option TransactionState) (tx : Transaction κ η)
    (endTs : Nat) (rowVersions : List (RowVersion κ)) : Except LimboError Unit :=
  if rowVersions.reverse.any (versionConflicts txs finalizedTxStates tx endTs) then
    .error .writeWriteConflict
  else .ok ()

/-- `index_rows.range(prefix_key..)` up to the first key whose prefix differs. -/
def scanPrefix [IndexKey κ] (record : κ) (keys : List κ) : List κ :=
  (keys.dropWhile fun k => IndexKey.prefixCmp record k == .gt).takeWhile
    (IndexKey.matchesPrefix record)

namespace MvStore

section

variable [IndexKey κ]

def checkRowidForConflicts (s : MvStore κ η) (rowid : RowID κ) (endTs : Nat)
    (tx : Transaction κ η) : Except LimboError Unit :=
  checkVersionConflicts s.txs s.finalizedTxStates tx endTs (s.rows rowid)

def checkIndexForConflicts (s : MvStore κ η) (tableId : MVTableId) (record : κ)
    (endTs : Nat) (tx : Transaction κ η) : Except LimboError Unit :=
  if !IndexKey.isUnique record then .ok ()
  else if IndexKey.containsNull record then .ok ()
  else
    (scanPrefix record (s.indexKeys tableId)).forM fun otherKey =>
      checkVersionConflicts s.txs s.finalizedTxStates tx endTs
        (s.rows ⟨tableId, .record otherKey⟩)

def validateWriteSet (s : MvStore κ η) (tx : Transaction κ η) (endTs : Nat)
    (writeSet : List (RowID κ)) : Except LimboError Unit :=
  writeSet.forM fun id =>
    match id.rowId with
    | .int _ => s.checkRowidForConflicts id endTs tx
    | .record key => s.checkIndexForConflicts id.tableId key endTs tx

end

def canonicalizeTableId (s : MvStore κ η) (tableId : MVTableId) : MVTableId :=
  if tableId = sqliteSchemaMvccTableId then tableId
  else
    match s.tableIdToRootpage tableId with
    | some (some rootPage) => -(rootPage : Int)
    | _ => tableId

def committedImage (s : MvStore κ η) (txId : TxID) (endTs : Nat) (rv : RowVersion κ) :
    RowVersion κ :=
  let rv := rewriteRowVersion txId endTs rv
  { rv with
    row := { rv.row with
      id := { rv.row.id with tableId := s.canonicalizeTableId rv.row.id.tableId } } }

section

variable [DecidableEq κ]

def collectVersions (s : MvStore κ η) (txId : TxID) (endTs : Nat)
    (rowVersions : List (RowVersion κ)) (id : RowID κ) : Option (List (RowVersion κ)) :=
  (s.rows id).foldlM (fun acc rv =>
    if rv.refersTo txId then insertVersionRaw s.txs acc (s.committedImage txId endTs rv)
    else some acc) rowVersions

/-- `build_committed_log_record`: the schema rows first, then the others. -/
def buildCommittedLogRecord (s : MvStore κ η) (tx : Transaction κ η) (endTs : Nat)
    (writeSet : List (RowID κ)) : Option (LogRecord κ η) := do
  let schemaIds := writeSet.filter fun id => id.tableId == sqliteSchemaMvccTableId
  let otherIds := writeSet.filter fun id => id.tableId != sqliteSchemaMvccTableId
  let rowVersions ← schemaIds.foldlM (s.collectVersions tx.txId endTs) []
  let rowVersions ← otherIds.foldlM (s.collectVersions tx.txId endTs) rowVersions
  return {
    txTimestamp := endTs
    rowVersions
    header := if tx.headerDirty then some tx.header else none }

end

/-- The end of a transaction that wrote nothing; `none` is the failed assertion that
nobody depends on it. -/
def finishReadOnly (s : MvStore κ η) (txId : TxID) (endTs : Nat) : Option (MvStore κ η) :=
  (s.modifyTx txId fun tx => { tx with state := .committed endTs }).removeTx txId

end MvStore

namespace CommitStateMachine

variable [IndexKey κ] [DecidableEq κ]

def stepInitial (s : MvStore κ η) (txId : TxID) (sm : CommitStateMachine κ η) :
    Option (MvStore κ η × CommitStateMachine κ η × TransitionResult) :=
  match s.txs txId with
  | none => some (s, sm, .err .txTerminated)
  | some tx =>
    match tx.state with
    | .terminated => some (s, sm, .err .txTerminated)
    | .active =>
      if tx.beginTs < s.lastCommittedSchemaChangeTs then some (s, sm, .err .schemaConflict)
      else
        let endTs := s.clock
        let s := { s with clock := s.clock + 1 }.modifyTx txId fun tx =>
          { tx with state := .preparing endTs }
        let sm := { sm with writeSet := sortWriteSet tx.writeSet }
        if sm.writeSet = [] ∧ tx.headerDirty = false then
          if tx.abortNow then some (s, sm, .err .commitDependencyAborted)
          else if 0 < tx.commitDepCounter then
            some (s, { sm with state := .waitForDependencies endTs }, .continue)
          else
            let s := if s.isExclusiveTx txId then s.releaseExclusiveTx else s
            ((s.unlockCommitLockIfHeld txId).finishReadOnly txId endTs).map fun s =>
              (s, sm, .done)
        else some (s, { sm with state := .commit endTs }, .continue)
    | _ => none

variable (s : MvStore κ η) (txId : TxID) (sm : CommitStateMachine κ η) (endTs : Nat)

def stepCommit : Option (MvStore κ η × CommitStateMachine κ η × TransitionResult) :=
  if !s.isExclusiveTx txId && s.hasExclusiveTx then
    some (s, sm, .err .writeWriteConflict)
  else
    match s.txs txId with
    | none => some (s, sm, .err .txTerminated)
    | some tx =>
      match s.validateWriteSet tx endTs sm.writeSet with
      | .error e => some (s, sm, .err e)
      | .ok () => some (s, { sm with state := .waitForDependencies endTs }, .continue)

def stepWaitForDependencies : Option (MvStore κ η × CommitStateMachine κ η × TransitionResult) :=
  match s.txs txId with
  | none => some (s, sm, .err .txTerminated)
  | some tx =>
    if tx.abortNow then some (s, sm, .err .commitDependencyAborted)
    else if 0 < tx.commitDepCounter then some (s, sm, .io)
    else if sm.writeSet = [] ∧ tx.headerDirty = false then
      let s :=
        if s.isExclusiveTx txId then
          { s.releaseExclusiveTx with pagerCommitLock := s.pagerCommitLock.unlock }
        else s
      (s.finishReadOnly txId endTs).map fun s => (s, sm, .done)
    else
      (s.buildCommittedLogRecord tx endTs sm.writeSet).map fun logRecord =>
        if logRecord.rowVersions = [] ∧ logRecord.header.isNone then
          let s := if s.isExclusiveTx txId then s.unlockCommitLockIfHeld txId else s
          (s, { sm with state := .commitEnd endTs }, .continue)
        else (s, { sm with state := .beginCommitLogicalLog endTs logRecord }, .continue)

def stepBeginCommitLogicalLog (logRecord : LogRecord κ η) :
    Option (MvStore κ η × CommitStateMachine κ η × TransitionResult) :=
  let sm' := { sm with
    pendingLogAppend := some logRecord
    state := .syncLogicalLog endTs }
  if s.isExclusiveTx txId then some (s, sm', .continue)
  else
    match s.pagerCommitLock.write with
    | none => some (s, sm, .io)
    | some lock =>
      match s.txs txId with
      | none => some ({ s with pagerCommitLock := lock }, sm, .err (.noSuchTransactionID txId))
      | some _ =>
        some ({ s with pagerCommitLock := lock }.modifyTx txId fun tx =>
          { tx with pagerCommitLockHeld := true }, sm', .continue)

/-- `CommitState::EndCommitLogicalLog`: the transaction's header becomes the global one. -/
def stepEndCommitLogicalLog : Option (MvStore κ η × CommitStateMachine κ η × TransitionResult) :=
  match s.txs txId with
  | none => some (s, sm, .err (.noSuchTransactionID txId))
  | some tx =>
    some ({ s with globalHeader := tx.header }, { sm with state := .commitEnd endTs }, .continue)

/-- The start of `CommitState::CommitEnd`: the log owns the frame and the transaction is
committed. -/
def stepCommitEnd : Option (MvStore κ η × CommitStateMachine κ η × TransitionResult) :=
  match s.txs txId with
  | none => some (s, sm, .err (.noSuchTransactionID txId))
  | some _ =>
    some ({ s with log := s.log ++ sm.pendingLogAppend.toList }.modifyTx txId fun tx =>
        { tx with state := .committed endTs },
      { sm with pendingLogAppend := none, state := .rewriteLiveVersions endTs sm.writeSet },
      .continue)

/-- `CommitEnd`, after the dependents: unlock, publish the header and the watermarks. -/
def stepPublishCommit : Option (MvStore κ η × CommitStateMachine κ η × TransitionResult) :=
  match s.txs txId with
  | none => some (s, sm, .err (.noSuchTransactionID txId))
  | some tx =>
    some ({ s.unlockCommitLockIfHeld txId with
        globalHeader := tx.header
        lastCommittedTxTs := endTs
        lastCommittedSchemaChangeTs :=
          if sm.didCommitSchemaChange then endTs else s.lastCommittedSchemaChangeTs },
      { sm with state := .leaveTxs endTs }, .continue)

/-- The end of `CommitEnd`: `remove_tx`, then the exclusive lock. -/
def stepLeaveTxs : Option (MvStore κ η × CommitStateMachine κ η × TransitionResult) :=
  (s.removeTx txId).map fun s =>
    (if s.isExclusiveTx txId then s.releaseExclusiveTx else s, sm, .done)

/-- `CommitStateMachine::step`; `none` is a panic. -/
def step : Option (MvStore κ η × CommitStateMachine κ η × TransitionResult) :=
  match sm.state with
  | .initial => stepInitial s txId sm
  | .commit endTs => stepCommit s txId sm endTs
  | .waitForDependencies endTs => stepWaitForDependencies s txId sm endTs
  | .beginCommitLogicalLog endTs logRecord =>
    stepBeginCommitLogicalLog s txId sm endTs logRecord
  | .syncLogicalLog endTs =>
    some (s, { sm with state := .endCommitLogicalLog endTs }, .continue)
  | .endCommitLogicalLog endTs => stepEndCommitLogicalLog s txId sm endTs
  | .commitEnd endTs => stepCommitEnd s txId sm endTs
  | .rewriteLiveVersions endTs [] =>
    some (s, { sm with state := .notifyDependents endTs }, .continue)
  | .rewriteLiveVersions endTs (id :: ids) =>
    some (s.rewriteRowid txId endTs id,
      { sm with state := .rewriteLiveVersions endTs ids }, .continue)
  | .notifyDependents endTs =>
    some (s.drainCommitDepSet txId false, { sm with state := .publishCommit endTs }, .continue)
  | .publishCommit endTs => stepPublishCommit s txId sm endTs
  | .leaveTxs _ => stepLeaveTxs s txId sm

end CommitStateMachine

end PgMicro.Mvcc
