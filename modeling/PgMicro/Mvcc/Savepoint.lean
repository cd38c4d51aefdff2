import PgMicro.Mvcc.Types

/-!
# Savepoints of a transaction

The methods of `Transaction` that keep its write set and its savepoints. A savepoint lists what
happened since it was opened; releasing it hands the lists to its parent, rolling it back is the
store's work.
-/

namespace PgMicro.Mvcc

variable {κ η : Type}

namespace Savepoint

def statement (header : η) (headerDirty : Bool) : Savepoint κ η where
  kind := .statement
  deferredFkViolations := 0
  header := header
  headerDirty := headerDirty
  createdTableVersions := []
  createdIndexVersions := []
  deletedTableVersions := []
  deletedIndexVersions := []
  newlyAddedToWriteSet := []

def named (name : String) (startsTransaction : Bool) (deferredFkViolations : Int)
    (header : η) (headerDirty : Bool) : Savepoint κ η where
  kind := .named name startsTransaction
  deferredFkViolations := deferredFkViolations
  header := header
  headerDirty := headerDirty
  createdTableVersions := []
  createdIndexVersions := []
  deletedTableVersions := []
  deletedIndexVersions := []
  newlyAddedToWriteSet := []

/-- `merge_from`: only the five lists move; the parent keeps its own snapshot. -/
def mergeFrom (self other : Savepoint κ η) : Savepoint κ η where
  kind := self.kind
  deferredFkViolations := self.deferredFkViolations
  header := self.header
  headerDirty := self.headerDirty
  createdTableVersions := self.createdTableVersions ++ other.createdTableVersions
  createdIndexVersions := self.createdIndexVersions ++ other.createdIndexVersions
  deletedTableVersions := self.deletedTableVersions ++ other.deletedTableVersions
  deletedIndexVersions := self.deletedIndexVersions ++ other.deletedIndexVersions
  newlyAddedToWriteSet := self.newlyAddedToWriteSet ++ other.newlyAddedToWriteSet

def isNamed (name : String) (sp : Savepoint κ η) : Bool :=
  match sp.kind with
  | .named n _ => n == name
  | .statement => false

def startsTransaction (sp : Savepoint κ η) : Bool :=
  match sp.kind with
  | .named _ b => b
  | .statement => false

end Savepoint

namespace Transaction

def new (txId : TxID) (beginTs : Nat) (header : η) : Transaction κ η where
  state := .active
  txId := txId
  beginTs := beginTs
  writeSet := []
  readSet := []
  header := header
  headerDirty := false
  savepointStack := []
  pagerCommitLockHeld := false
  commitDepCounter := 0
  abortNow := false
  commitDepSet := []
  dependedOn := []

def modifyNewest (tx : Transaction κ η) (f : Savepoint κ η → Savepoint κ η) :
    Transaction κ η :=
  { tx with
    savepointStack :=
      match tx.savepointStack with
      | [] => []
      | sp :: rest => f sp :: rest }

section

variable [DecidableEq κ]

def insertToReadSet (tx : Transaction κ η) (id : RowID κ) : Transaction κ η :=
  { tx with readSet := if id ∈ tx.readSet then tx.readSet else id :: tx.readSet }

def insertToWriteSet (tx : Transaction κ η) (id : RowID κ) : Transaction κ η :=
  if id ∈ tx.writeSet then tx
  else
    { tx with writeSet := id :: tx.writeSet }.modifyNewest fun sp =>
      { sp with newlyAddedToWriteSet := sp.newlyAddedToWriteSet ++ [id] }

end

variable (tx : Transaction κ η) (rowid : RowID κ) (versionId : Nat)

def recordCreatedTableVersion : Transaction κ η :=
  tx.modifyNewest fun sp =>
    { sp with createdTableVersions := sp.createdTableVersions ++ [(rowid, versionId)] }

def recordCreatedIndexVersion : Transaction κ η :=
  tx.modifyNewest fun sp =>
    { sp with createdIndexVersions := sp.createdIndexVersions ++ [(rowid, versionId)] }

def recordDeletedTableVersion : Transaction κ η :=
  tx.modifyNewest fun sp =>
    { sp with deletedTableVersions := sp.deletedTableVersions ++ [(rowid, versionId)] }

def recordDeletedIndexVersion : Transaction κ η :=
  tx.modifyNewest fun sp =>
    { sp with deletedIndexVersions := sp.deletedIndexVersions ++ [(rowid, versionId)] }

def recordCreated (id : RowID κ) (versionId : Nat) : Transaction κ η :=
  if id.rowId.isIntKey then tx.recordCreatedTableVersion id versionId
  else tx.recordCreatedIndexVersion id versionId

def recordDeleted (id : RowID κ) (versionId : Nat) : Transaction κ η :=
  if id.rowId.isIntKey then tx.recordDeletedTableVersion id versionId
  else tx.recordDeletedIndexVersion id versionId

def beginSavepoint : Transaction κ η :=
  { tx with savepointStack := .statement tx.header tx.headerDirty :: tx.savepointStack }

def beginNamedSavepoint (name : String) (startsTransaction : Bool) (deferredFkViolations : Int) :
    Transaction κ η :=
  { tx with
    savepointStack :=
      .named name startsTransaction deferredFkViolations tx.header tx.headerDirty ::
        tx.savepointStack }

def mergeInto (drained : List (Savepoint κ η)) :
    List (Savepoint κ η) → List (Savepoint κ η)
  | [] => []
  | parent :: rest => drained.foldl Savepoint.mergeFrom parent :: rest

def releaseSavepoint : Transaction κ η :=
  match tx.savepointStack with
  | [] => tx
  | sp :: rest =>
    match sp.kind with
    | .statement => { tx with savepointStack := mergeInto [sp] rest }
    | .named _ _ => tx

def popStatementSavepoint : Option (Savepoint κ η × Transaction κ η) :=
  match tx.savepointStack with
  | [] => none
  | sp :: rest =>
    match sp.kind with
    | .statement => some (sp, { tx with savepointStack := rest })
    | .named _ _ => none

/-- `rposition` and `drain(target_idx..)`: the savepoints above the newest one of that
name (newest first), the target, and the savepoints below it. -/
def splitAtNamed (name : String) :
    List (Savepoint κ η) →
    Option (List (Savepoint κ η) × Savepoint κ η × List (Savepoint κ η))
  | [] => none
  | sp :: rest =>
    if sp.isNamed name then some ([], sp, rest)
    else (splitAtNamed name rest).map fun (above, target, below) =>
      (sp :: above, target, below)

def releaseNamedSavepoint (name : String) : Transaction κ η × SavepointResult :=
  match splitAtNamed name tx.savepointStack with
  | none => (tx, .notFound)
  | some (above, target, below) =>
    if target.startsTransaction && below.isEmpty then (tx, .commit)
    else
      ({ tx with savepointStack := mergeInto (target :: above.reverse) below }, .release)

def rollbackToNamedSavepoint (name : String) :
    Option (List (Savepoint κ η) × Int × Transaction κ η) :=
  match splitAtNamed name tx.savepointStack with
  | none => none
  | some (above, target, below) =>
    some (above ++ [target], target.deferredFkViolations,
      { tx with
        savepointStack :=
          .named name target.startsTransaction target.deferredFkViolations target.header
            target.headerDirty :: below })

end Transaction

end PgMicro.Mvcc
