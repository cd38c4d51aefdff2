import PgMicro.Mvcc.Types

/-!
# Visibility of row versions

The free functions at the end of `core/mvcc/database/mod.rs` that decide what a transaction sees. A
speculative decision about a `Preparing` transaction registers a commit dependency, so they return
the transaction map they leave behind.
-/

namespace PgMicro.Mvcc

variable {κ η : Type} (txs : Txs κ η) (finalizedTxStates : TxID → Option TransactionState)

def lookupTxState (txId : TxID) : Option TransactionState :=
  match txs txId with
  | some tx => some tx.state
  | none => finalizedTxStates txId

/-- `register_commit_dependency`. The assertion that the depended-on transaction is not
`Active` is left out: every caller has just seen it `Preparing`. -/
def registerCommitDependency (dependentTx dependedOnTxId : TxID) : Txs κ η :=
  match txs dependedOnTxId, txs dependentTx with
  | some dependedOn, some dependent =>
    match dependedOn.state with
    | .preparing _ =>
      if dependentTx ∈ dependedOn.commitDepSet then txs
      else
        Function.update
          (Function.update txs dependedOnTxId
            (some { dependedOn with commitDepSet := dependentTx :: dependedOn.commitDepSet }))
          dependentTx
          (some { dependent with
            commitDepCounter := dependent.commitDepCounter + 1
            dependedOn := dependedOnTxId :: dependent.dependedOn })
    | .aborted | .terminated =>
      Function.update txs dependentTx (some { dependent with abortNow := true })
    | .active | .committed _ => txs
  | _, _ => txs

def isBeginVisible (tx : Transaction κ η) (rv : RowVersion κ) : Txs κ η × Bool :=
  match rv.begin_ with
  | some (.timestamp rvBeginTs) => (txs, decide (rvBeginTs < tx.beginTs))
  | some (.txId rvBegin) =>
    match txs rvBegin with
    | some tb =>
      match tb.state with
      | .active => (txs, tx.txId == tb.txId && rv.end_.isNone)
      | .preparing endTs =>
        if endTs < tx.beginTs then (registerCommitDependency txs tx.txId rvBegin, true)
        else (txs, false)
      | .committed committedTs => (txs, decide (committedTs < tx.beginTs))
      | .aborted => (txs, false)
      | .terminated => (txs, false)
    | none =>
      match finalizedTxStates rvBegin with
      | some (.committed committedTs) => (txs, decide (committedTs < tx.beginTs))
      | _ => (txs, false)
  | none => (txs, false)

def isEndVisible (currentTx : Transaction κ η) (rowVersion : RowVersion κ) : Txs κ η × Bool :=
  match rowVersion.end_ with
  | some (.timestamp rvEndTs) => (txs, decide (currentTx.beginTs < rvEndTs))
  | some (.txId rvEnd) =>
    match txs rvEnd with
    | some otherTx =>
      match otherTx.state with
      | .active => (txs, currentTx.txId != otherTx.txId)
      | .preparing endTs =>
        if currentTx.beginTs < endTs then (txs, true)
        else (registerCommitDependency txs currentTx.txId rvEnd, false)
      | .committed committedTs => (txs, decide (currentTx.beginTs < committedTs))
      | .aborted => (txs, true)
      | .terminated => (txs, true)
    | none =>
      match finalizedTxStates rvEnd with
      | some (.committed committedTs) => (txs, decide (currentTx.beginTs < committedTs))
      | _ => (txs, true)
  | none => (txs, true)

def RowVersion.isVisibleTo (rv : RowVersion κ) (txs : Txs κ η)
    (finalizedTxStates : TxID → Option TransactionState) (tx : Transaction κ η) :
    Txs κ η × Bool :=
  match isBeginVisible txs finalizedTxStates tx rv with
  | (txs', true) => isEndVisible txs' finalizedTxStates tx rv
  | (txs', false) => (txs', false)

/-- `is_btree_invalidating_version`: the version is visible, or it says that the row was
deleted before the transaction began. -/
def RowVersion.isBtreeInvalidatingVersion (rv : RowVersion κ) (txs : Txs κ η)
    (finalizedTxStates : TxID → Option TransactionState) (tx : Transaction κ η) :
    Txs κ η × Bool :=
  match rv.isVisibleTo txs finalizedTxStates tx with
  | (txs', true) => (txs', true)
  | (txs', false) =>
    match rv.end_ with
    | some (.timestamp endTs) => (txs', decide (endTs < tx.beginTs))
    | some (.txId endTxId) =>
      if endTxId = tx.txId then (txs', true)
      else
        match lookupTxState txs' finalizedTxStates endTxId with
        | some (.committed committedTs) => (txs', decide (committedTs < tx.beginTs))
        | some (.preparing endTs) =>
          if endTs < tx.beginTs then (registerCommitDependency txs' tx.txId endTxId, true)
          else (txs', false)
        | _ => (txs', false)
    | none => (txs', false)

/-- The search `iter().rev().find(|rv| rv.is_visible_to(..))`, started with the reversed
chain and `[]`. It returns the chain cut at the version found. -/
def findLastVisible (txs : Txs κ η) (finalizedTxStates : TxID → Option TransactionState)
    (tx : Transaction κ η) : List (RowVersion κ) → List (RowVersion κ) →
    Txs κ η × Option (List (RowVersion κ) × RowVersion κ × List (RowVersion κ))
  | [], _ => (txs, none)
  | rv :: older, newer =>
    match rv.isVisibleTo txs finalizedTxStates tx with
    | (txs', true) => (txs', some (older.reverse, rv, newer))
    | (txs', false) => findLastVisible txs' finalizedTxStates tx older (rv :: newer)

/-- The search `iter().rev().any(|rv| rv.is_btree_invalidating_version(..))` over the
reversed chain. -/
def anyBtreeInvalidating (txs : Txs κ η)
    (finalizedTxStates : TxID → Option TransactionState) (tx : Transaction κ η) :
    List (RowVersion κ) → Txs κ η × Bool
  | [] => (txs, false)
  | rv :: older =>
    match rv.isBtreeInvalidatingVersion txs finalizedTxStates tx with
    | (txs', true) => (txs', true)
    | (txs', false) => anyBtreeInvalidating txs' finalizedTxStates tx older

/-- `is_write_write_conflict`: somebody else holds the version's `end` field. -/
def isWriteWriteConflict (tx : Transaction κ η) (rv : RowVersion κ) : Bool :=
  match rv.end_ with
  | some (.txId rvEnd) =>
    if rvEnd = tx.txId then false
    else
      match lookupTxState txs finalizedTxStates rvEnd with
      | some .aborted | some .terminated => false
      | _ => true
  | some (.timestamp _) => true
  | none => false

end PgMicro.Mvcc
