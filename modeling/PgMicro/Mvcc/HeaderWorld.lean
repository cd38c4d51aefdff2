import PgMicro.Mvcc.Watermark
import PgMicro.Transition

/-!
# The store with its header

The step system with the header each transaction began with and the headers that `CommitEnd`
published, and what a step must find so that no header update is lost.
-/

namespace PgMicro.Mvcc

open CommitStateMachine

variable {κ η : Type} {base : η} {tx' tx : Transaction κ η}

structure HeaderCommit (η : Type) where
  before : η
  after : η
  deriving DecidableEq, Repr

/-- The store with two ghosts: the header each transaction began with, and the headers
published by `CommitEnd`, newest first. -/
structure HeaderWorld (κ η : Type) where
  world : World κ η
  snapshot : TxID → η
  committed : List (HeaderCommit η)

def lastChange {β : Type} [DecidableEq β] (field : η → β) (initial : η) :
    List (HeaderCommit η) → β
  | [] => field initial
  | c :: earlier =>
    if field c.before = field c.after then lastChange field initial earlier else field c.after

/-- The header that `maybe_recover_logical_log` ends with: `UpdateHeader` replaces it. -/
def replayHeader (header : η) (log : List (LogRecord κ η)) : η :=
  log.foldl (fun header record => record.header.getD header) header

namespace CommitStateMachine

variable (sm : CommitStateMachine κ η)

def storesHeader : Bool :=
  match sm.state with
  | .endCommitLogicalLog _ | .publishCommit _ => true
  | _ => false

def beforeEnd : Bool :=
  match sm.state with
  | .initial | .commit _ | .waitForDependencies _ | .beginCommitLogicalLog _ _
  | .syncLogicalLog _ | .endCommitLogicalLog _ => true
  | _ => false

def inCommitEnd : Bool :=
  match sm.state with
  | .commitEnd _ | .rewriteLiveVersions _ _ | .notifyDependents _ | .publishCommit _ => true
  | _ => false

def hasLogged : Bool :=
  match sm.state with
  | .rewriteLiveVersions _ _ | .notifyDependents _ | .publishCommit _ => true
  | _ => false

/-- The next step goes to `CommitEnd`, from `EndCommitLogicalLog` or past an empty log record. -/
def entersCommitEnd [DecidableEq κ] [IndexKey κ] (s : MvStore κ η) (t : TxID) : Bool :=
  !sm.inCommitEnd && (sm.step s t).any fun (_, sm', _) => sm'.inCommitEnd

end CommitStateMachine

/-- `build_committed_log_record` logs the header of a dirty transaction. -/
def Transaction.loggedHeader (tx : Transaction κ η) : Option η :=
  if tx.headerDirty then some tx.header else none

def CommitStateMachine.FrameOK (sm : CommitStateMachine κ η) (tx : Transaction κ η) : Prop :=
  match sm.state with
  | .initial | .commit _ | .waitForDependencies _ => sm.pendingLogAppend = none
  | .beginCommitLogicalLog _ record => record.header = tx.loggedHeader
  | .syncLogicalLog _ | .endCommitLogicalLog _ | .commitEnd _ =>
    sm.pendingLogAppend.bind LogRecord.header = tx.loggedHeader
  | _ => True

namespace HeaderWorld

def published (w : HeaderWorld κ η) : Action κ η → Option (HeaderCommit η)
  | .commitStep t =>
    ((w.world.commits t).bind toPublish).bind fun _ =>
      (w.world.store.txs t).map fun tx => ⟨w.snapshot t, tx.header⟩
  | _ => none

def opened (header : η) : HeaderWorld κ η := ⟨.opened header (fun _ => none) 0, fun _ => header, []⟩

variable [DecidableEq κ] [IndexKey κ]

def exec (w : HeaderWorld κ η) (a : Action κ η) : Option (HeaderWorld κ η) :=
  (w.world.exec a).map fun w' =>
    { world := w'
      snapshot := a.snapshots w.world w.snapshot
      committed := (w.published a).toList ++ w.committed }

/-- What a step must find so that no header update is lost: a commit that stores its header
finds the one it started from, or its own; only one commit is in `CommitEnd`, and it is not
rolled back there; an upgrade finds the header of its transaction up to date. Checkpoints
are not transactions. -/
def KeepsHeaders (w : HeaderWorld κ η) : Action κ η → Prop
  | .commitStep t =>
    ∀ sm ∈ w.world.commits t,
      (sm.storesHeader = true → ∀ tx ∈ w.world.store.txs t,
        w.world.store.globalHeader = w.snapshot t ∨ w.world.store.globalHeader = tx.header) ∧
      (sm.entersCommitEnd w.world.store t = true → ∀ u < w.world.store.txIds, u ≠ t →
        ∀ sm' ∈ w.world.commits u, sm'.inCommitEnd = false)
  | .rollbackTx t => ∀ sm ∈ w.world.commits t, sm.inCommitEnd = false
  | .upgradeToExclusiveTx t =>
    ∀ tx ∈ w.world.store.txs t, tx.header = w.world.store.globalHeader
  | .checkpoint _ _ => False
  | _ => True

instance [DecidableEq η] (w : HeaderWorld κ η) : DecidablePred w.KeepsHeaders := by
  rintro ⟨⟩ <;> delta KeepsHeaders <;> infer_instance

end HeaderWorld

theorem replayHeader_append (base : η) (log : List (LogRecord κ η))
    (record : Option (LogRecord κ η)) :
    replayHeader base (log ++ record.toList) =
      (record.bind LogRecord.header).getD (replayHeader base log) := by
  rw [replayHeader, List.foldl_append]
  cases record <;> rfl

theorem Transaction.loggedHeader_congr (hheader : tx'.header = tx.header)
    (hdirty : tx'.headerDirty = tx.headerDirty) : tx'.loggedHeader = tx.loggedHeader := by
  rw [loggedHeader, loggedHeader, hheader, hdirty]

theorem CommitStateMachine.FrameOK.congr {sm : CommitStateMachine κ η} (h : sm.FrameOK tx)
    (heq : tx'.loggedHeader = tx.loggedHeader) : sm.FrameOK tx' := by
  unfold CommitStateMachine.FrameOK at h ⊢
  rw [heq]
  exact h

end PgMicro.Mvcc
