import PgMicro.Codec.Stream
import PgMicro.PersistentStorage.LogicalLog

/-!
# The streaming reader of the logical log

`StreamingLogicalLogReader` without encryption. What parses bytes is written over a byte
source, so that the same text runs over the sliding buffer of the reader and over a list.
-/

namespace PgMicro.PersistentStorage

open Codec Mvcc Storage ByteSource

inductive CorruptError where
  | invalidOpHeader (tag flags : UInt8) (tableId : Int)
  | invalidHeaderOp (flags : UInt8) (tableId : Int)
  | unknownOpTag (tag : UInt8)
  | invalidVarint
  | payloadBytesReadOverflow
  | upsertRowid
  | deleteRowid
  | deleteRowidLen (rowidLen payloadLen : Nat)
  | headerPayloadLen (payloadLen : Nat)
  | headerMagic
  | payloadSize (payloadSize payloadBytesRead : Nat)
  | shortRead
  deriving DecidableEq, Repr

inductive ParsedOp where
  | upsertTable (tableId : MVTableId) (rowid : Int) (recordBytes : List UInt8) (commitTs : Nat)
      (btreeResident : Bool)
  | deleteTable (tableId : MVTableId) (rowid : Int) (commitTs : Nat) (btreeResident : Bool)
  | upsertIndex (tableId : MVTableId) (payload : List UInt8) (commitTs : Nat)
      (btreeResident : Bool)
  | deleteIndex (tableId : MVTableId) (payload : List UInt8) (commitTs : Nat)
      (btreeResident : Bool)
  | updateHeader (header : DatabaseHeader) (commitTs : Nat)
  deriving DecidableEq, Repr

def checkOpHeader (tag flags : UInt8) (tableId : Int) : Except CorruptError OpTag :=
  match OpTag.ofCode tag with
  | none => .error (.unknownOpTag tag)
  | some .updateHeader =>
    if flags ≠ 0 ∨ tableId ≠ 0 then .error (.invalidHeaderOp flags tableId) else .ok .updateHeader
  | some op =>
    if flags &&& ~~~opFlagBtreeResident ≠ 0 ∨ 0 ≤ tableId then
      .error (.invalidOpHeader tag flags tableId)
    else .ok op

def decodeOp (tag : OpTag) (tableId : MVTableId) (btreeResident : Bool) (commitTs : Nat)
    (payload : List UInt8) : Except CorruptError ParsedOp :=
  match tag with
  | .upsertTable =>
    match readVarint payload with
    | none => .error .upsertRowid
    | some (rowid, rowidLen) =>
      if payload.length < rowidLen then .error .upsertRowid
      else .ok (.upsertTable tableId (asSigned 64 rowid) (payload.drop rowidLen) commitTs
        btreeResident)
  | .deleteTable =>
    match readVarint payload with
    | none => .error .deleteRowid
    | some (rowid, rowidLen) =>
      if rowidLen ≠ payload.length then .error (.deleteRowidLen rowidLen payload.length)
      else .ok (.deleteTable tableId (asSigned 64 rowid) commitTs btreeResident)
  | .upsertIndex => .ok (.upsertIndex tableId payload commitTs btreeResident)
  | .deleteIndex => .ok (.deleteIndex tableId payload commitTs btreeResident)
  | .updateHeader =>
    if h : payload.length = databaseHeaderSize then
      let header : DatabaseHeader := ⟨payload, h⟩
      if header.magic ≠ sqliteMagic then .error .headerMagic
      else .ok (.updateHeader header commitTs)
    else .error (.headerPayloadLen payload.length)

section

variable {m : Type → Type} [ByteSource CorruptError m]

def consumeVarintFrom : Nat → Nat → List UInt8 → m (Nat × List UInt8)
  | 0, v, bytes => do
    let c ← consumeByte
    if v / 2 ^ 48 = 0 then fail .invalidVarint
    else pure (v * 256 + c.toNat, bytes ++ [c])
  | n + 1, v, bytes => do
    let c ← consumeByte
    if c.toNat < 128 then pure (v * 128 + c.toNat % 128, bytes ++ [c])
    else consumeVarintFrom n (v * 128 + c.toNat % 128) (bytes ++ [c])

def consumeVarintBytes : m (Nat × List UInt8) := consumeVarintFrom 8 0 []

def opTableId (opBytes : List UInt8) : Int := asSigned 32 (ofLE (opBytes.drop 2))

def opResident (opBytes : List UInt8) : Bool := opBytes.getD 1 0 &&& opFlagBtreeResident ≠ 0

/-- One turn of the loop of `parse_streaming_payload`. -/
def parseStreamingOp (crc : Crc32c) (commitTs : Nat) (runningCrc : UInt32)
    (payloadBytesRead : Nat) : m (ParsedOp × UInt32 × Nat) := do
  let opBytes ← consume 6
  match checkOpHeader (opBytes.getD 0 0) (opBytes.getD 1 0) (opTableId opBytes) with
  | .error e => fail e
  | .ok opTag => do
    let (payloadLen, payloadLenBytes) ← consumeVarintBytes
    let payload ← consume payloadLen
    let payloadBytesRead := payloadBytesRead + (6 + payloadLenBytes.length + payloadLen)
    if 2 ^ 64 ≤ payloadBytesRead then fail .payloadBytesReadOverflow
    else
      match decodeOp opTag (opTableId opBytes) (opResident opBytes) commitTs payload with
      | .error e => fail e
      | .ok op =>
        pure (op, crc.append (crc.append (crc.append runningCrc opBytes) payloadLenBytes) payload,
          payloadBytesRead)

def parseStreamingOps (crc : Crc32c) (commitTs : Nat) :
    Nat → UInt32 → Nat → m (List ParsedOp × UInt32 × Nat)
  | 0, runningCrc, payloadBytesRead => pure ([], runningCrc, payloadBytesRead)
  | opCount + 1, runningCrc, payloadBytesRead => do
    let (op, runningCrc, payloadBytesRead) ←
      parseStreamingOp crc commitTs runningCrc payloadBytesRead
    let (ops, runningCrc, payloadBytesRead) ←
      parseStreamingOps crc commitTs opCount runningCrc payloadBytesRead
    pure (op :: ops, runningCrc, payloadBytesRead)

def parseStreamingPayload (crc : Crc32c) (opCount payloadSize commitTs : Nat)
    (runningCrc : UInt32) : m (List ParsedOp × UInt32) := do
  let (ops, runningCrc, payloadBytesRead) ← parseStreamingOps crc commitTs opCount runningCrc 0
  if payloadSize ≠ payloadBytesRead then
    fail (.payloadSize payloadSize payloadBytesRead)
  else pure (ops, runningCrc)

end

/-- `ImmutableRecord::column_count`: the serial types in the header of the record. -/
def countVarints : Nat → List UInt8 → Nat
  | 0, _ => 0
  | _ + 1, [] => 0
  | fuel + 1, header =>
    match readVarint header with
    | some (_, bytesRead) => countVarints fuel (header.drop bytesRead) + 1
    | none => 0

def columnCount (record : List UInt8) : Nat :=
  match readVarint record with
  | none => 0
  | some (headerSize, varintLen) =>
    if record.length < headerSize ∨ record.length < varintLen ∨ headerSize < varintLen then 0
    else countVarints record.length ((record.take headerSize).drop varintLen)

section

variable {ι : Type}

inductive StreamingResult (ι : Type) where
  | upsertTableRow (row : Row (SortableIndexKey ι)) (rowid : RowID (SortableIndexKey ι))
      (commitTs : Nat) (btreeResident : Bool)
  | deleteTableRow (rowid : RowID (SortableIndexKey ι)) (commitTs : Nat) (btreeResident : Bool)
  | upsertIndexRow (row : Row (SortableIndexKey ι)) (rowid : RowID (SortableIndexKey ι))
      (commitTs : Nat) (btreeResident : Bool)
  | deleteIndexRow (row : Row (SortableIndexKey ι)) (rowid : RowID (SortableIndexKey ι))
      (commitTs : Nat) (btreeResident : Bool)
  | updateHeader (header : DatabaseHeader) (commitTs : Nat)
  | eof
  deriving DecidableEq, Repr

/-- `parsed_op_to_streaming`, where the index of every id is known. -/
def parsedOpToStreaming (getIndexInfo : MVTableId → ι) : ParsedOp → StreamingResult ι
  | .upsertTable tableId rowid recordBytes commitTs btreeResident =>
    .upsertTableRow ⟨⟨tableId, .int rowid⟩, some recordBytes, columnCount recordBytes⟩
      ⟨tableId, .int rowid⟩ commitTs btreeResident
  | .deleteTable tableId rowid commitTs btreeResident =>
    .deleteTableRow ⟨tableId, .int rowid⟩ commitTs btreeResident
  | .upsertIndex tableId payload commitTs btreeResident =>
    let rowid := ⟨tableId, .record ⟨payload, getIndexInfo tableId⟩⟩
    .upsertIndexRow ⟨rowid, none, columnCount payload⟩ rowid commitTs btreeResident
  | .deleteIndex tableId payload commitTs btreeResident =>
    let rowid := ⟨tableId, .record ⟨payload, getIndexInfo tableId⟩⟩
    .deleteIndexRow ⟨rowid, none, columnCount payload⟩ rowid commitTs btreeResident
  | .updateHeader header commitTs => .updateHeader header commitTs

def LogHeader.decode (crc : Crc32c) (buf : List UInt8) : Option LogHeader :=
  let hdrLen := ofLE ((buf.drop 6).take 2)
  let reserved := (buf.drop 16).take logHdrReservedSize
  if buf.length < logHdrSize then none
  else if ofLE (buf.take 4) ≠ logMagic then none
  else if buf.getD 4 0 ≠ logVersion then none
  else if buf.getD 5 0 &&& 0b11111110 ≠ 0 then none
  else if hdrLen ≠ logHdrSize then none
  else if ofLE ((buf.drop 52).take 4) ≠ (crc.crc32c (buf.take 52 ++ toLE 4 0)).toNat then none
  else if reserved.any (· ≠ 0) then none
  else some ⟨buf.getD 4 0, buf.getD 5 0, hdrLen, ofLE ((buf.drop 8).take 8), reserved⟩

/-- `StreamingLogicalLogReader` over an unencrypted file. -/
structure Reader where
  input : Buffered
  header : Option LogHeader
  pendingOps : List ParsedOp
  lastValidOffset : Nat
  runningCrc : UInt32
  deriving DecidableEq, Repr

inductive ReadError where
  | corrupt (e : CorruptError)
  | panic
  deriving DecidableEq, Repr

inductive ParseResult where
  | ops (ops : List ParsedOp)
  | eof
  | invalidFrame
  deriving DecidableEq, Repr

inductive HeaderReadResult where
  | valid (header : LogHeader)
  | noLog
  | invalid
  deriving DecidableEq, Repr

namespace Reader

def new : Reader := ⟨⟨0, [], 0⟩, none, [], 0, 0⟩

variable (crc : Crc32c) (src : Source)

/-- `try_read_header`. The error of a read that returns fewer bytes than it is asked for is left
out: the file has them. -/
def tryReadHeader (r : Reader) : HeaderReadResult × Reader :=
  if src.file.length < logHdrSize then (.noLog, r)
  else
    let headerBytes := src.file.take logHdrSize
    let invalid : Reader := { r with
      header := none, input := ⟨logHdrSize, [], 0⟩, lastValidOffset := logHdrSize }
    if ofLE ((headerBytes.drop 6).take 2) ≠ logHdrSize then (.invalid, invalid)
    else
      match LogHeader.decode crc headerBytes with
      | none => (.invalid, invalid)
      | some header =>
        (.valid header, { r with
          header := some header
          runningCrc := deriveInitialCrc crc header.salt
          input := ⟨logHdrSize, [], 0⟩
          lastValidOffset := logHdrSize })

/-- `parse_next_transaction`. A corrupt payload makes the frame invalid; a read that fails
elsewhere is an error. -/
def parseNextTransaction (r : Reader) : Except ReadError ParseResult × Reader :=
  if r.input.remainingBytes src < txMinFrameSize then (.ok .eof, r)
  else
    let frameStart := r.input.offset - r.input.bytesCanRead
    match Buffered.tryConsumeBytes src CorruptError.shortRead txHeaderSize r.input with
    | (.eof, input) => (.ok .eof, { r with input })
    | (.corrupt e, input) => (.error (.corrupt e), { r with input })
    | (.panic, input) => (.error .panic, { r with input })
    | (.ok headerBytes, input) =>
      if ofLE (headerBytes.take 4) ≠ frameMagic then
        (.ok .invalidFrame, { r with input, lastValidOffset := frameStart })
      else
        let payloadSize := ofLE ((headerBytes.drop 4).take 8)
        let opCount := ofLE ((headerBytes.drop 12).take 4)
        let commitTs := ofLE ((headerBytes.drop 16).take 8)
        let payload : Streaming src CorruptError.shortRead (List ParsedOp × UInt32) :=
          parseStreamingPayload crc opCount payloadSize commitTs
            (crc.append r.runningCrc headerBytes)
        match payload input with
        | (.eof, input) => (.ok .eof, { r with input })
        | (.corrupt _, input) =>
          (.ok .invalidFrame, { r with input, lastValidOffset := frameStart })
        | (.panic, input) => (.error .panic, { r with input })
        | (.ok (ops, runningCrc), input) =>
          match Buffered.tryConsumeBytes src CorruptError.shortRead txTrailerSize input with
          | (.eof, input) => (.ok .eof, { r with input })
          | (.corrupt e, input) => (.error (.corrupt e), { r with input })
          | (.panic, input) => (.error .panic, { r with input })
          | (.ok trailerBytes, input) =>
            if ofLE (trailerBytes.take 4) ≠ runningCrc.toNat then
              (.ok .invalidFrame, { r with input, lastValidOffset := frameStart })
            else if ofLE (trailerBytes.drop 4) ≠ endMagic then
              (.ok .invalidFrame, { r with input, lastValidOffset := frameStart })
            else
              (.ok (.ops ops), { r with
                input
                lastValidOffset := input.offset - input.bytesCanRead
                runningCrc })

/-- The loop of `next_record` that looks for a frame with an op; `none` when the fuel runs
out. -/
def nextFrame (getIndexInfo : MVTableId → ι) :
    Nat → Reader → Option (Except ReadError (StreamingResult ι) × Reader)
  | 0, _ => none
  | fuel + 1, r =>
    if r.input.remainingBytes src < txMinFrameSize then some (.ok .eof, r)
    else
      match r.parseNextTransaction crc src with
      | (.error e, r) => some (.error e, r)
      | (.ok .eof, r) | (.ok .invalidFrame, r) => some (.ok .eof, r)
      | (.ok (.ops []), r) => nextFrame getIndexInfo fuel r
      | (.ok (.ops (op :: ops)), r) =>
        some (.ok (parsedOpToStreaming getIndexInfo op), { r with pendingOps := ops })

def nextRecord (getIndexInfo : MVTableId → ι) (fuel : Nat) (r : Reader) :
    Option (Except ReadError (StreamingResult ι) × Reader) :=
  match r.pendingOps with
  | op :: ops => some (.ok (parsedOpToStreaming getIndexInfo op), { r with pendingOps := ops })
  | [] => nextFrame crc src getIndexInfo fuel r

def readAll (getIndexInfo : MVTableId → ι) :
    Nat → Reader → Option (List (StreamingResult ι) × Reader)
  | 0, _ => none
  | fuel + 1, r =>
    match r.nextRecord crc src getIndexInfo (fuel + 1) with
    | some (.ok .eof, r) => some ([], r)
    | some (.ok result, r) =>
      (readAll getIndexInfo fuel r).map fun (results, r) => (result :: results, r)
    | _ => none

end Reader

end

end PgMicro.PersistentStorage
