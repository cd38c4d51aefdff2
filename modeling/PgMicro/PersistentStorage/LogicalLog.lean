import Mathlib.Algebra.Order.Ring.Int
import PgMicro.Codec.LittleEndian
import PgMicro.Mvcc.Types
import PgMicro.Storage.Varint

/-!
# The logical log and its writer

`core/mvcc/persistent_storage/logical_log.rs` without encryption: the file header, the
transaction frames with their chained checksums, and `LogicalLog`, which appends them.
-/

namespace PgMicro.PersistentStorage

open Codec Mvcc Storage

/-- CRC-32C. `crc32c_append` can go on from where it stopped. -/
structure Crc32c where
  append : UInt32 → List UInt8 → UInt32
  append_nil : ∀ crc, append crc [] = crc
  append_append : ∀ crc a b, append (append crc a) b = append crc (a ++ b)

def Crc32c.crc32c (crc : Crc32c) (bytes : List UInt8) : UInt32 := crc.append 0 bytes

def logMagic : Nat := 0x4C4D4C32

def logVersion : UInt8 := 2

def logHdrSize : Nat := 56

def logHdrReservedSize : Nat := 36

def frameMagic : Nat := 0x5854564D

def endMagic : Nat := 0x4554564D

def txHeaderSize : Nat := 24

def txTrailerSize : Nat := 8

def txMinFrameSize : Nat := txHeaderSize + txTrailerSize

def opFlagBtreeResident : UInt8 := 1

inductive OpTag where
  | upsertTable
  | deleteTable
  | upsertIndex
  | deleteIndex
  | updateHeader
  deriving DecidableEq, Repr

def OpTag.code : OpTag → UInt8
  | .upsertTable => 0
  | .deleteTable => 1
  | .upsertIndex => 2
  | .deleteIndex => 3
  | .updateHeader => 4

def OpTag.ofCode (code : UInt8) : Option OpTag :=
  if code = 0 then some .upsertTable
  else if code = 1 then some .deleteTable
  else if code = 2 then some .upsertIndex
  else if code = 3 then some .deleteIndex
  else if code = 4 then some .updateHeader
  else none

@[simp]
theorem OpTag.ofCode_code (tag : OpTag) : OpTag.ofCode tag.code = some tag := by
  cases tag <;> rfl

def sqliteMagic : List UInt8 :=
  [0x53, 0x51, 0x4C, 0x69, 0x74, 0x65, 0x20, 0x66, 0x6F, 0x72, 0x6D, 0x61, 0x74, 0x20, 0x33, 0x00]

def databaseHeaderSize : Nat := 100

/-- The bytes of a `DatabaseHeader`, any of which make one. -/
structure DatabaseHeader where
  bytes : List UInt8
  length_eq : bytes.length = databaseHeaderSize
  deriving DecidableEq, Repr

def DatabaseHeader.magic (header : DatabaseHeader) : List UInt8 := header.bytes.take 16

structure SortableIndexKey (ι : Type) where
  key : List UInt8
  metadata : ι
  deriving DecidableEq, Repr

/-- `as u64` of an `i64`, and `as u32` of an `i32`. -/
def asUnsigned (bits : Nat) (n : Int) : Nat := (n % 2 ^ bits).toNat

/-- `as i64` of a `u64`, and `as i32` of a `u32`. -/
def asSigned (bits : Nat) (n : Nat) : Int := if n < 2 ^ (bits - 1) then n else (n : Int) - 2 ^ bits

theorem asSigned_asUnsigned {bits : Nat} {n : Int} (hbits : 0 < bits) (hlow : -2 ^ (bits - 1) ≤ n)
    (hhigh : n < 2 ^ (bits - 1)) : asSigned bits (asUnsigned bits n) = n := by
  obtain ⟨k, rfl⟩ : ∃ k, bits = k + 1 := ⟨bits - 1, by omega⟩
  rw [Nat.add_sub_cancel] at hlow hhigh
  have hpow : (2 : Int) ^ (k + 1) = 2 * 2 ^ k := by rw [pow_succ, mul_comm]
  have hcast : ((2 ^ k : Nat) : Int) = 2 ^ k := by norm_cast
  simp only [asSigned, asUnsigned, Nat.add_sub_cancel, hpow]
  rcases lt_or_ge n 0 with hneg | hpos'
  · have hmod : n % (2 * 2 ^ k) = n + 2 * 2 ^ k := by
      rw [← Int.add_mul_emod_self_left n (2 * 2 ^ k) 1, mul_one]
      exact Int.emod_eq_of_lt (by omega) (by omega)
    omega
  · rw [Int.emod_eq_of_lt hpos' (by omega), if_pos (by omega)]
    omega

theorem asUnsigned_lt (bits : Nat) (n : Int) : asUnsigned bits n < 2 ^ bits := by
  have hcast : ((2 ^ bits : Nat) : Int) = 2 ^ bits := by norm_cast
  rw [asUnsigned]
  omega

section

variable {ι : Type}

/-- `Row::payload`; `none` is the failed `expect`. -/
def payload (row : Row (SortableIndexKey ι)) : Option (List UInt8) :=
  match row.id.rowId with
  | .int _ => row.data
  | .record key => some key.key

variable (rowVersion : RowVersion (SortableIndexKey ι))

def opTag : OpTag :=
  match rowVersion.row.id.rowId, rowVersion.end_.isSome with
  | .int _, false => .upsertTable
  | .int _, true => .deleteTable
  | .record _, false => .upsertIndex
  | .record _, true => .deleteIndex

def opPayload : Option (List UInt8) :=
  match rowVersion.row.id.rowId with
  | .int rowid =>
    if rowVersion.end_.isSome then some (writeVarint (asUnsigned 64 rowid))
    else (payload rowVersion.row).map (writeVarint (asUnsigned 64 rowid) ++ ·)
  | .record _ => payload rowVersion.row

def opPayloadLen : Option Nat :=
  match rowVersion.row.id.rowId with
  | .int rowid =>
    if rowVersion.end_.isSome then some (varintLen (asUnsigned 64 rowid))
    else (payload rowVersion.row).map (varintLen (asUnsigned 64 rowid) + List.length ·)
  | .record _ => (payload rowVersion.row).map List.length

def serializeOpEntry : Option (List UInt8) :=
  let tableId := rowVersion.row.id.tableId
  if ¬ tableId < 0 then none
  else if ¬ (-2 ^ 31 ≤ tableId ∧ tableId ≤ 2 ^ 31 - 1) then none
  else do
    let payloadLen ← opPayloadLen rowVersion
    let payload ← opPayload rowVersion
    return (opTag rowVersion).code ::
      (if rowVersion.btreeResident then opFlagBtreeResident else 0) ::
      toLE 4 (asUnsigned 32 tableId) ++ writeVarint payloadLen ++ payload

def serializeHeaderEntry (header : DatabaseHeader) : List UInt8 :=
  OpTag.updateHeader.code :: 0 :: toLE 4 0 ++ writeVarint databaseHeaderSize ++ header.bytes

def serializeOps (tx : LogRecord (SortableIndexKey ι) DatabaseHeader) : Option (List UInt8) := do
  let ops ← tx.rowVersions.mapM serializeOpEntry
  return ops.flatten ++ tx.header.elim [] serializeHeaderEntry

def opCount (tx : LogRecord (SortableIndexKey ι) DatabaseHeader) : Nat :=
  tx.rowVersions.length + if tx.header.isSome then 1 else 0

/-- `FRAME_MAGIC | payload_size | op_count | commit_ts`. -/
def txHeader (payloadSize opCount commitTs : Nat) : List UInt8 :=
  toLE 4 frameMagic ++ toLE 8 payloadSize ++ toLE 4 opCount ++ toLE 8 commitTs

/-- `crc32c | END_MAGIC`. -/
def txTrailer (crc : UInt32) : List UInt8 := toLE 4 crc.toNat ++ toLE 4 endMagic

def serializeTx (crc : Crc32c) (runningCrc : UInt32)
    (tx : LogRecord (SortableIndexKey ι) DatabaseHeader) : Option (List UInt8 × UInt32) :=
  if opCount tx < 2 ^ 32 then do
    let payload ← serializeOps tx
    let covered := txHeader payload.length (opCount tx) tx.txTimestamp ++ payload
    let crc := crc.append runningCrc covered
    return (covered ++ txTrailer crc, crc)
  else none

end

structure LogHeader where
  version : UInt8
  flags : UInt8
  hdrLen : Nat
  salt : Nat
  reserved : List UInt8
  deriving DecidableEq, Repr

namespace LogHeader

def new (salt : Nat) : LogHeader :=
  ⟨logVersion, 0, logHdrSize, salt, List.replicate logHdrReservedSize 0⟩

def encodeFields (header : LogHeader) : List UInt8 :=
  toLE 4 logMagic ++ header.version :: header.flags :: toLE 2 header.hdrLen ++
    toLE 8 header.salt ++ header.reserved

def encode (crc : Crc32c) (header : LogHeader) : List UInt8 :=
  header.encodeFields ++ toLE 4 (crc.crc32c (header.encodeFields ++ toLE 4 0)).toNat

end LogHeader

def deriveInitialCrc (crc : Crc32c) (salt : Nat) : UInt32 := crc.crc32c (toLE 8 salt)

structure LogicalLog where
  file : List UInt8
  offset : Nat
  header : Option LogHeader
  runningCrc : UInt32
  pendingRunningCrc : Option UInt32
  deriving DecidableEq, Repr

def pwrite (file : List UInt8) (offset : Nat) (bytes : List UInt8) : List UInt8 :=
  file.take offset ++ List.replicate (offset - file.length) 0 ++ bytes ++
    file.drop (offset + bytes.length)

namespace LogicalLog

variable {ι : Type}

def new (file : List UInt8) : LogicalLog := ⟨file, 0, none, 0, none⟩

def prepareHeader (crc : Crc32c) (salt : Nat) (log : LogicalLog) : LogicalLog × List UInt8 :=
  if log.offset = 0 then
    match log.header with
    | some header => (log, header.encode crc)
    | none =>
      let header := LogHeader.new salt
      ({ log with header := some header, runningCrc := deriveInitialCrc crc salt },
        header.encode crc)
  else (log, [])

variable (crc : Crc32c) (salt : Nat) (log : LogicalLog)
  (tx : LogRecord (SortableIndexKey ι) DatabaseHeader)

def serializeAndPwriteTx (advanceOffsetImmediately : Bool) : Option (LogicalLog × Nat) := do
  let (log, headerBytes) := log.prepareHeader crc salt
  let (frame, frameCrc) ← serializeTx crc log.runningCrc tx
  let writeBuf := headerBytes ++ frame
  let log := { log with file := pwrite log.file log.offset writeBuf }
  return (if advanceOffsetImmediately then
      { log with offset := log.offset + writeBuf.length, runningCrc := frameCrc }
    else { log with pendingRunningCrc := some frameCrc }, writeBuf.length)

def logTx : Option LogicalLog :=
  (log.serializeAndPwriteTx crc salt tx true).map Prod.fst

def logTxDeferredOffset : Option (LogicalLog × Nat) :=
  log.serializeAndPwriteTx crc salt tx false

def advanceOffsetAfterSuccess (log : LogicalLog) (bytes : Nat) : Option LogicalLog :=
  log.pendingRunningCrc.map fun crc =>
    { log with offset := log.offset + bytes, runningCrc := crc, pendingRunningCrc := none }

/-- `restore_logical_log_state_after_recovery`, over the header that was read. -/
def restore (file : List UInt8) (header : LogHeader) (offset : Nat) (runningCrc : UInt32) :
    LogicalLog :=
  ⟨file, offset, some header, runningCrc, none⟩

def append (immediately : Bool) : Option LogicalLog :=
  if immediately then log.logTx crc salt tx
  else do
    let (log, bytes) ← log.logTxDeferredOffset crc salt tx
    log.advanceOffsetAfterSuccess bytes

def appendAll (crc : Crc32c) (salt : Nat) (log : LogicalLog) :
    List (LogRecord (SortableIndexKey ι) DatabaseHeader × Bool) → Option LogicalLog
  | [] => some log
  | (tx, immediately) :: txs => do
    let log ← log.append crc salt tx immediately
    log.appendAll crc salt txs

end LogicalLog

end PgMicro.PersistentStorage
