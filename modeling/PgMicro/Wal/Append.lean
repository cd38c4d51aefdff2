import PgMicro.Transition
import PgMicro.Wal.FrameCache

/-!
# Appending to the WAL

The part of `WalFile` and `InProcessWalCoordination` that writes frames, enters them in the
page index and publishes them, for one write transaction at a time. Which page the header of
a frame in the file names is kept for every frame number.
-/

namespace PgMicro.Wal

structure Page (α : Type) where
  id : PageNo
  contents : α
  deriving DecidableEq, Repr

structure WalSnapshot (γ : Type) where
  maxFrame : Nat
  nbackfills : Nat
  lastChecksum : γ
  checkpointSeq : Nat
  transactionCount : Nat
  deriving DecidableEq, Repr

structure WalFileShared (γ : Type) extends WalSnapshot γ where
  headerChecksum : γ
  initialized : Bool
  frameCache : FrameCache
  deriving DecidableEq

structure WalFile (γ : Type) where
  maxFrame : Nat
  minFrame : Nat
  lastChecksum : γ
  checkpointSeq : Nat
  transactionCount : Nat
  hasUnpublishedFrames : Bool
  deriving DecidableEq, Repr

structure RollbackTo (γ : Type) where
  frame : Nat
  checksum : γ
  deriving DecidableEq, Repr

structure PreparedFrames (γ α : Type) where
  metadata : List (Page α × Nat × γ)
  finalChecksum : γ
  finalMaxFrame : Nat
  deriving DecidableEq, Repr

variable {γ α : Type}

namespace WalFile

def connectionState (w : WalFile γ) : WalSnapshot γ :=
  ⟨w.maxFrame, w.minFrame - 1, w.lastChecksum, w.checkpointSeq, w.transactionCount⟩

def installConnectionState (w : WalFile γ) (snapshot : WalSnapshot γ) : WalFile γ :=
  { w with
    maxFrame := snapshot.maxFrame
    minFrame := snapshot.nbackfills + 1
    lastChecksum := snapshot.lastChecksum
    checkpointSeq := snapshot.checkpointSeq
    transactionCount := snapshot.transactionCount }

def applyRestartSnapshot (w : WalFile γ) (snapshot : WalSnapshot γ) : WalFile γ :=
  { w with
    maxFrame := snapshot.maxFrame
    minFrame := 0
    lastChecksum := snapshot.lastChecksum
    checkpointSeq := snapshot.checkpointSeq }

end WalFile

namespace WalFileShared

def restartWalHeader (shared : WalFileShared γ) : WalFileShared γ :=
  { shared with
    checkpointSeq := (shared.checkpointSeq + 1) % 2 ^ 32
    maxFrame := 0
    nbackfills := 0
    lastChecksum := shared.headerChecksum
    initialized := false
    frameCache := ∅ }

def publishCommit (shared : WalFileShared γ) (maxFrame : Nat) (lastChecksum : γ)
    (transactionCount : Nat) : WalFileShared γ :=
  { shared with maxFrame, lastChecksum, transactionCount }

end WalFileShared

structure WalState (γ α : Type) where
  shared : WalFileShared γ
  file : Nat → Option PageNo
  writer : Option (WalFile γ)
  savepoints : List (RollbackTo γ)
  prepared : List (PreparedFrames γ α)

namespace WalState

def numberFrames (frameChecksum : γ → Page α → γ) :
    γ → Nat → List (Page α) → List (Page α × Nat × γ)
  | _, _, [] => []
  | checksum, frame, page :: pages =>
    let checksum := frameChecksum checksum page
    (page, frame, checksum) :: numberFrames frameChecksum checksum (frame + 1) pages

def writeFrames (file : Nat → Option PageNo) (frames : List (Page α × Nat × γ)) :
    Nat → Option PageNo :=
  frames.foldl (fun file frame => Function.update file frame.2.1 (some frame.1.id)) file

def completeAppendFrame (state : WalFileShared γ × WalFile γ) (frame : Page α × Nat × γ) :
    WalFileShared γ × WalFile γ :=
  ({ state.1 with frameCache := state.1.frameCache.cacheFrame frame.1.id frame.2.1 },
    { state.2 with lastChecksum := frame.2.2, maxFrame := frame.2.1 })

def appendFramesVectored (frameChecksum : γ → Page α → γ) (wal : WalState γ α) (w : WalFile γ)
    (pages : List (Page α)) : WalState γ α :=
  let frames := numberFrames frameChecksum w.lastChecksum (w.maxFrame + 1) pages
  let (shared, w) := frames.foldl completeAppendFrame (wal.shared, w)
  { wal with shared, writer := some w, file := writeFrames wal.file frames }

variable [DecidableEq γ]

/-- Where `prepare_frames` goes on: the connection, the checksum and the frame to write next. -/
def prepareSeed (shared : WalFileShared γ) (w : WalFile γ) :
    Option (PreparedFrames γ α) → WalFile γ × γ × Nat
  | some prev => (w, prev.finalChecksum, prev.finalMaxFrame + 1)
  | none =>
    let snapshot := shared.toWalSnapshot
    let localState := w.connectionState
    if snapshot.maxFrame = 0 ∧ shared.initialized ∧ localState.maxFrame = 0 ∧
        localState.checkpointSeq = snapshot.checkpointSeq ∧
        localState.transactionCount = snapshot.transactionCount ∧
        localState.lastChecksum ≠ snapshot.lastChecksum then
      (w, localState.lastChecksum, localState.maxFrame + 1)
    else if snapshot ≠ localState then
      if w.hasUnpublishedFrames then (w, localState.lastChecksum, localState.maxFrame + 1)
      else (w.installConnectionState snapshot, snapshot.lastChecksum, snapshot.maxFrame + 1)
    else (w, localState.lastChecksum, localState.maxFrame + 1)

def prepareFrames (frameChecksum : γ → Page α → γ) (wal : WalState γ α) (w : WalFile γ)
    (pages : List (Page α)) : WalState γ α :=
  let (w, checksum, frame) := prepareSeed wal.shared w wal.prepared.getLast?
  let metadata := numberFrames frameChecksum checksum frame pages
  { wal with
    writer := some w
    prepared := wal.prepared ++ [⟨metadata, (metadata.getLast?).elim checksum (·.2.2),
      frame + pages.length - 1⟩] }

def commitBatch (state : WalFileShared γ × WalFile γ) (batch : PreparedFrames γ α) :
    WalFileShared γ × WalFile γ :=
  let (shared, w) := batch.metadata.foldl completeAppendFrame state
  (shared, { w with lastChecksum := batch.finalChecksum, maxFrame := batch.finalMaxFrame })

def commit (wal : WalState γ α) (w : WalFile γ) : WalState γ α :=
  let (shared, w) := wal.prepared.foldl commitBatch (wal.shared, w)
  { shared := shared.publishCommit w.maxFrame w.lastChecksum (w.transactionCount + 1)
    file := wal.prepared.foldl (fun file batch => writeFrames file batch.metadata) wal.file
    writer := none
    savepoints := []
    prepared := [] }

/-- `prepare_wal_start` and `prepare_wal_finish`, with the checksum of the header. -/
def prepareWal (wal : WalState γ α) (w : WalFile γ) (checksum : γ) : WalState γ α :=
  if wal.shared.initialized then wal
  else { wal with
    shared := { wal.shared with
      headerChecksum := checksum, lastChecksum := checksum, initialized := true }
    writer := some { w with lastChecksum := checksum, maxFrame := 0 }
    file := fun _ => none }

inductive Action (γ α : Type) where
  /-- `begin_read_tx` and `begin_write_tx`; the log restarts if it can and the read marks are
  free. -/
  | begin (marksFree : Bool)
  | prepareWal (checksum : γ)
  | spill (pages : List (Page α))
  | openSavepoint
  | releaseSavepoint
  /-- To the savepoint with this index from the newest. -/
  | rollbackTo (index : Nat)
  | prepareFrames (pages : List (Page α))
  | commit
  | rollback
  | publishBackfill (maxFrame : Nat)
  /-- By a checkpoint that holds the write lock. -/
  | restartLog

def beginWriteTx (wal : WalState γ α) (marksFree : Bool) : WalState γ α :=
  let w := WalFile.installConnectionState ⟨0, 0, wal.shared.lastChecksum, 0, 0, false⟩
    wal.shared.toWalSnapshot
  if marksFree ∧ wal.shared.nbackfills ≠ 0 ∧ wal.shared.maxFrame = wal.shared.nbackfills then
    let shared := wal.shared.restartWalHeader
    { wal with shared, writer := some (w.applyRestartSnapshot shared.toWalSnapshot) }
  else { wal with writer := some w }

def exec (frameChecksum : γ → Page α → γ) (wal : WalState γ α) (a : Action γ α) :
    Option (WalState γ α) :=
  match wal.writer, a with
  | none, .begin marksFree => some (wal.beginWriteTx marksFree)
  | none, .restartLog => some { wal with shared := wal.shared.restartWalHeader }
  | _, .publishBackfill maxFrame =>
    if maxFrame ≤ wal.shared.maxFrame then
      some { wal with shared := { wal.shared with nbackfills := maxFrame } }
    else none
  | some w, .prepareWal checksum =>
    if wal.prepared = [] then some (wal.prepareWal w checksum) else none
  | some w, .spill pages =>
    if wal.shared.initialized ∧ wal.prepared = [] then
      some (wal.appendFramesVectored frameChecksum w pages)
    else none
  | some w, .openSavepoint =>
    if wal.prepared = [] then
      some { wal with savepoints := ⟨w.maxFrame, w.lastChecksum⟩ :: wal.savepoints }
    else none
  | some _, .releaseSavepoint => some { wal with savepoints := wal.savepoints.tail }
  | some w, .rollbackTo index =>
    if wal.prepared = [] then
      (wal.savepoints[index]?).map fun target =>
        { wal with
          shared := { wal.shared with
            frameCache := wal.shared.frameCache.rollbackCache target.frame }
          writer := some { w with maxFrame := target.frame, lastChecksum := target.checksum }
          savepoints := wal.savepoints.drop index }
    else none
  | some w, .prepareFrames pages =>
    if wal.shared.initialized ∧ pages ≠ [] then some (wal.prepareFrames frameChecksum w pages)
    else none
  | some w, .commit => if wal.prepared ≠ [] then some (wal.commit w) else none
  | some _, .rollback =>
    some { wal with
      shared := { wal.shared with
        frameCache := wal.shared.frameCache.rollbackCache wal.shared.maxFrame }
      writer := none, savepoints := [], prepared := [] }
  | _, _ => none

end WalState

end PgMicro.Wal
