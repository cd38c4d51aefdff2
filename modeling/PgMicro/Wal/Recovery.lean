import PgMicro.Wal.Append
import PgMicro.Wal.Format

/-!
# Reading the WAL file when it is opened

`build_shared_wal` and its `StreamingWalReader`: the file is read in chunks of whole frames, and
frames enter the page index when the commit frame of their transaction is read.
-/

namespace PgMicro.Wal

open Codec

structure StreamingState where
  frameIdx : Nat
  cumulativeChecksum : Checksum
  /-- Of the last valid commit frame. -/
  lastValidChecksum : Checksum
  lastValidFrame : Nat
  pendingFrames : FrameCache
  pageSize : Nat
  useNativeEndian : Bool
  headerValid : Bool

structure StreamingWalReader where
  state : StreamingState
  header : WalHeader
  shared : WalFileShared Checksum
  /-- `off_atomic`. -/
  offset : Nat
  /-- `page_atomic`. -/
  pageSize : Nat
  done : Bool

namespace StreamingWalReader

def new (target : Endian) : StreamingWalReader where
  state := ⟨1, (0, 0), (0, 0), 0, ∅, 0, false, false⟩
  header := ⟨if target = .big then walMagicBE else walMagicLE, 3007000, 0, 0, 0, 0, 0, 0⟩
  shared := ⟨⟨0, 0, (0, 0), 0, 0⟩, (0, 0), false, ∅⟩
  offset := 0
  pageSize := 0
  done := false

def flushEntry (lastValidFrame : Nat) (frameCache : FrameCache)
    (entry : Sigma fun _ : PageNo => List Nat) : FrameCache :=
  let frames := entry.2.filter (· ≤ lastValidFrame)
  if frames.isEmpty then frameCache else frameCache.extend entry.1 frames

def flushPendingFrames (r : StreamingWalReader) : StreamingWalReader :=
  if r.state.pendingFrames.entries.isEmpty then r
  else { r with
    shared := { r.shared with
      frameCache := r.state.pendingFrames.entries.foldl (flushEntry r.state.lastValidFrame)
        r.shared.frameCache
      maxFrame := r.state.lastValidFrame }
    state := { r.state with pendingFrames := ∅ } }

def finalizeLoading (r : StreamingWalReader) : StreamingWalReader :=
  let maxFrame := r.state.lastValidFrame
  let frameCache := if 0 < maxFrame then r.shared.frameCache.retain (List.filter (· ≤ maxFrame))
    else r.shared.frameCache
  { r with
    shared := { r.shared with
      frameCache
      maxFrame
      lastChecksum := r.state.lastValidChecksum
      initialized := r.state.headerValid || r.shared.initialized
      nbackfills := 0 }
    done := true }

inductive FrameResult where
  | stop
  | accept (r : StreamingWalReader)

def acceptFrame (r : StreamingWalReader) (fh : WalFrameHeader) (computed : Checksum) :
    StreamingWalReader :=
  let frameIdx := r.state.frameIdx
  let state := { r.state with
    cumulativeChecksum := computed
    pendingFrames := r.state.pendingFrames.cacheFrame fh.pageNumber.toNat frameIdx }
  let r :=
    if 0 < fh.dbSize then
      flushPendingFrames { r with
        state := { state with lastValidFrame := frameIdx, lastValidChecksum := computed } }
    else { r with state }
  { r with state := { r.state with frameIdx := frameIdx + 1 } }

/-- The body of the loop of `process_frames`; `none` where an assertion fails. -/
def processFrame (target : Endian) (r : StreamingWalReader) (frame : List UInt8) :
    Option FrameResult :=
  let fh := parseWalFrameHeader frame
  if fh.pageNumber = 0 then some .stop
  else if fh.salt1 ≠ r.header.salt1 ∨ fh.salt2 ≠ r.header.salt2 then some .stop
  else do
    let seed ← checksumWal target (frame.take 8) r.state.cumulativeChecksum r.state.useNativeEndian
    let computed ← checksumWal target (frame.drop walFrameHeaderSize) seed r.state.useNativeEndian
    if computed ≠ fh.checksum then some .stop else some (.accept (r.acceptFrame fh computed))

/-- The loop of `process_frames` over the complete frames of the buffer, with the number of bytes
processed. -/
def processFrames (target : Endian) : Nat → List UInt8 → StreamingWalReader →
    Option (Nat × StreamingWalReader)
  | 0, _, r => some (0, r)
  | n + 1, buf, r =>
    let frameSize := walFrameHeaderSize + r.state.pageSize
    match r.processFrame target (buf.take frameSize) with
    | none => none
    | some .stop => some (0, r)
    | some (.accept r) =>
      (processFrames target n (buf.drop frameSize) r).map fun (pos, r) => (frameSize + pos, r)

def handleHeaderRead (target : Endian) (r : StreamingWalReader) (buf : List UInt8) :
    Option StreamingWalReader :=
  if buf.length ≠ walHeaderSize then some r.finalizeLoading
  else do
    let h := WalHeader.decode buf
    let native := useNativeEndian target h.magic
    let computed ← checksumWal target (buf.take 24) (0, 0) native
    let r := { r with
      header := h
      shared := { r.shared with
        headerChecksum := h.checksum, checkpointSeq := h.checkpointSeq.toNat } }
    if PageSize.new h.pageSize = none ∨ computed ≠ h.checksum then some r.finalizeLoading
    else some { r with
      state := { r.state with
        pageSize := h.pageSize.toNat
        useNativeEndian := native
        cumulativeChecksum := h.checksum
        lastValidChecksum := h.checksum
        headerValid := true }
      offset := walHeaderSize
      pageSize := h.pageSize.toNat }

def handleChunkRead (target : Endian) (fileSize : Nat) (r : StreamingWalReader)
    (buf : List UInt8) : Option StreamingWalReader := do
  let (consumed, r) ←
    processFrames target (buf.length / (walFrameHeaderSize + r.state.pageSize)) buf r
  let r := { r with offset := r.offset + consumed }
  some (if consumed < buf.length ∨ fileSize ≤ r.offset then r.finalizeLoading else r)

/-- A chunk of some frames, the number of which is `16 * 1024 * 1024 / frame_size` in the source;
`none` where the page size is not known. -/
def submitOneChunk (target : Endian) (file : List UInt8) (chunkFrames : Nat)
    (r : StreamingWalReader) : Option StreamingWalReader :=
  if r.pageSize = 0 then none
  else
    let frameSize := walFrameHeaderSize + r.pageSize
    let readSize := min (max (chunkFrames * frameSize) frameSize) (file.length - r.offset)
    if readSize = 0 then some r
    else r.handleChunkRead target file.length ((file.drop r.offset).take readSize)

/-- The loop of `build_shared_wal`; `none` also if the fuel runs out. -/
def readChunks (target : Endian) (file : List UInt8) (chunkFrames : Nat → Nat) :
    Nat → StreamingWalReader → Option StreamingWalReader
  | 0, _ => none
  | fuel + 1, r =>
    if r.done then some r
    else if file.length ≤ r.offset then some r.finalizeLoading
    else
      match r.submitOneChunk target file (chunkFrames r.offset) with
      | none => none
      | some r' =>
        if r'.offset ≤ r.offset then some r'.finalizeLoading
        else readChunks target file chunkFrames fuel r'

end StreamingWalReader

/-- `build_shared_wal`, with the number of frames to read at each offset of the file. -/
def buildSharedWal (target : Endian) (file : List UInt8) (chunkFrames : Nat → Nat) :
    Option (WalFileShared Checksum) :=
  if file.length < walHeaderSize then some (StreamingWalReader.new target).shared
  else do
    let r ← (StreamingWalReader.new target).handleHeaderRead target (file.take walHeaderSize)
    let r ← r.readChunks target file chunkFrames (file.length + 1)
    some r.shared

end PgMicro.Wal
