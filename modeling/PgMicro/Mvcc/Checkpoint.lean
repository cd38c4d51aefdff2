import PgMicro.Mvcc.Rollback

/-!
# The checkpoint

What a checkpoint writes to the B-tree and what it leaves of the chains. The decoding of
`sqlite_schema` rows is a parameter; creating and destroying B-trees is left out.
-/

namespace PgMicro.Mvcc

variable {κ η : Type}

def TxTimestampOrID.timestamp? : TxTimestampOrID → Option Nat
  | .timestamp ts => some ts
  | .txId _ => none

def RowVersion.beginTimestamp (rv : RowVersion κ) : Option Nat :=
  rv.begin_.bind TxTimestampOrID.timestamp?

def RowVersion.endTimestamp (rv : RowVersion κ) : Option Nat :=
  rv.end_.bind TxTimestampOrID.timestamp?

def nonZero (n : Nat) : Option Nat := if n = 0 then none else some n

def atMostOld (durableTxidMaxOld : Option Nat) (ts : Nat) : Bool :=
  durableTxidMaxOld.any fun old => decide (ts ≤ old)

def existsInDbFileStep (durableTxidMaxOld : Option Nat) (existsInDbFile : Bool)
    (version : RowVersion κ) : Bool :=
  let existsInDbFile := existsInDbFile || version.btreeResident
  let existsInDbFile :=
    existsInDbFile || version.beginTimestamp.any (atMostOld durableTxidMaxOld)
  existsInDbFile && !version.endTimestamp.any (atMostOld durableTxidMaxOld)

/-- `is_uncheckpointed_insert || is_delete_and_exists_in_db_file || is_schema_delete`. -/
def shouldCheckpoint (durableTxidMaxOld : Option Nat) (tableId : MVTableId)
    (existsInDbFile : Bool) (version : RowVersion κ) : Bool :=
  let isUncheckpointedInsert :=
    version.endTimestamp.isNone &&
      durableTxidMaxOld.all fun old => version.beginTimestamp.any fun b => decide (old < b)
  let isDeleteAndExistsInDbFile := version.endTimestamp.isSome && existsInDbFile
  let isSchemaDelete :=
    decide (tableId = sqliteSchemaMvccTableId) && !existsInDbFile &&
      durableTxidMaxOld.all fun old => version.endTimestamp.any fun e => decide (old < e)
  isUncheckpointedInsert || isDeleteAndExistsInDbFile || isSchemaDelete

def pushCheckpointable (isSchemaMetadataOnlyRewrite : RowVersion κ → RowVersion κ → Bool)
    (tableId : MVTableId) (found : List (RowVersion κ)) (version : RowVersion κ) :
    List (RowVersion κ) :=
  if tableId ≠ sqliteSchemaMvccTableId then [version]
  else
    match found.getLast? with
    | some previous =>
      if previous.end_.isSome && !isSchemaMetadataOnlyRewrite previous version then
        found.dropLast ++ [version]
      else found ++ [version]
    | none => found ++ [version]

/-- The loop of `maybe_get_checkpointable_versions`, oldest version first. -/
def checkpointableLoop (isSchemaMetadataOnlyRewrite : RowVersion κ → RowVersion κ → Bool)
    (durableTxidMaxOld : Option Nat) (tableId : MVTableId) :
    Bool → List (RowVersion κ) → List (RowVersion κ) → List (RowVersion κ)
  | _, found, [] => found
  | existsInDbFile, found, version :: versions =>
    let existsInDbFile := existsInDbFileStep durableTxidMaxOld existsInDbFile version
    let found :=
      if version.beginTimestamp.isNone && version.endTimestamp.isNone then found
      else if shouldCheckpoint durableTxidMaxOld tableId existsInDbFile version then
        pushCheckpointable isSchemaMetadataOnlyRewrite tableId found version
      else found
    checkpointableLoop isSchemaMetadataOnlyRewrite durableTxidMaxOld tableId existsInDbFile
      found versions

def maybeGetCheckpointableVersions
    (isSchemaMetadataOnlyRewrite : RowVersion κ → RowVersion κ → Bool)
    (durableTxidMaxOld : Option Nat) (versions : List (RowVersion κ)) (tableId : MVTableId) :
    List (RowVersion κ) :=
  checkpointableLoop isSchemaMetadataOnlyRewrite durableTxidMaxOld tableId false [] versions

/-- A version is written to the B-tree when it has no `end`, and deleted otherwise. -/
def applyToBtree (_btree : Option (Row κ)) (version : RowVersion κ) : Option (Row κ) :=
  if version.end_.isNone then some version.row else none

namespace MvStore

def idleLwm : Nat := 2 ^ 64 - 1

def durableTxidMaxNew (s : MvStore κ η) (durableTxidMaxOld : Nat) : Nat :=
  max durableTxidMaxOld s.lastCommittedTxTs

/-- A whole checkpoint, from `AcquireLock` to the release of the blocking lock. No transaction is in
the map meanwhile, so the cache of finalized states is pruned to nothing. -/
def checkpoint (s : MvStore κ η)
    (isSchemaMetadataOnlyRewrite : RowVersion κ → RowVersion κ → Bool)
    (durableTxidMaxOld : Nat) (btree : RowID κ → Option (Row κ)) :
    Except LimboError (MvStore κ η × (RowID κ → Option (Row κ))) :=
  match s.blockingCheckpointLock.write with
  | none => .error .busy
  | some _ =>
    let writeSet := fun id => maybeGetCheckpointableVersions isSchemaMetadataOnlyRewrite
      (nonZero durableTxidMaxOld) (s.rows id) id.tableId
    let new := s.durableTxidMaxNew durableTxidMaxOld
    let gcCheckpointed := fun id =>
      if (writeSet id).isEmpty then s.rows id else gcVersionChain (s.rows id) idleLwm new
    .ok ({ s with
      rows := fun id => gcVersionChain (gcCheckpointed id) idleLwm new
      indexKeys := fun tableId => (s.indexKeys tableId).filter fun key =>
        (writeSet ⟨tableId, .record key⟩).isEmpty ||
          !(gcCheckpointed ⟨tableId, .record key⟩).isEmpty
      finalizedTxStates := fun _ => none
      durableTxidMax := new
      log := [] }, fun id => (writeSet id).foldl applyToBtree (btree id))

end MvStore

end PgMicro.Mvcc
