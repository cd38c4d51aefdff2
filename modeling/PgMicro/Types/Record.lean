import PgMicro.Codec.BigEndian
import PgMicro.Storage.Varint
import PgMicro.Types.Value

/-!
# Records

`SerialType`, `ImmutableRecord`, `ValueIterator` and `Record` of `core/types.rs`, with
`read_value_serial_type`, `read_value` and `read_integer` of `core/storage/sqlite3_ondisk.rs`.

Sizes are natural numbers: none wraps if the bytes fit in one vector, and `fromValues` gives `none`
where they do not and the source panics.
-/

namespace PgMicro.Types

open Codec Storage

inductive LimboError where
  | corrupt (message : String)
  | internalError (message : String)
  deriving DecidableEq, Repr

abbrev Result (α : Type) := Except LimboError α

def readVarintOrCorrupt (buf : List UInt8) : Result (Nat × Nat) :=
  match readVarint buf with
  | some read => .ok read
  | none => .error (.corrupt "Invalid varint")

theorem readVarintOrCorrupt_eq_ok {buf : List UInt8} {read : Nat × Nat}
    (h : readVarintOrCorrupt buf = .ok read) : readVarint buf = some read := by
  rw [readVarintOrCorrupt] at h
  split at h
  next heq =>
    cases h
    exact heq
  · cases h

inductive SerialTypeKind where
  | null | i8 | i16 | i24 | i32 | i48 | i64 | f64 | constInt0 | constInt1 | text | blob
  deriving DecidableEq, Repr

structure SerialType where
  val : Nat
  valid : val ≠ 10 ∧ val ≠ 11
  deriving DecidableEq

namespace SerialType

def tryFrom (uint : Nat) : Result SerialType :=
  if h : uint ≠ 10 ∧ uint ≠ 11 then .ok ⟨uint, h⟩
  else .error (.corrupt ("Invalid serial type: " ++ toString uint))

def blob (size : Nat) : SerialType := ⟨12 + size * 2, by omega⟩

def text (size : Nat) : SerialType := ⟨13 + size * 2, by omega⟩

def kind (s : SerialType) : SerialTypeKind :=
  match s.val with
  | 0 => .null
  | 1 => .i8
  | 2 => .i16
  | 3 => .i24
  | 4 => .i32
  | 5 => .i48
  | 6 => .i64
  | 7 => .f64
  | 8 => .constInt0
  | 9 => .constInt1
  | n => if n % 2 = 0 then .blob else .text

def size (s : SerialType) : Nat :=
  match s.kind with
  | .null => 0
  | .i8 => 1
  | .i16 => 2
  | .i24 => 3
  | .i32 => 4
  | .i48 => 6
  | .i64 => 8
  | .f64 => 8
  | .constInt0 => 0
  | .constInt1 => 0
  | .text => (s.val - 13) / 2
  | .blob => (s.val - 12) / 2

def ofInteger (i : Int64) : SerialType :=
  if i.toInt = 0 then ⟨8, by decide⟩
  else if i.toInt = 1 then ⟨9, by decide⟩
  else if -128 ≤ i.toInt ∧ i.toInt ≤ 127 then ⟨1, by decide⟩
  else if -32768 ≤ i.toInt ∧ i.toInt ≤ 32767 then ⟨2, by decide⟩
  else if -8388608 ≤ i.toInt ∧ i.toInt ≤ 8388607 then ⟨3, by decide⟩
  else if -2147483648 ≤ i.toInt ∧ i.toInt ≤ 2147483647 then ⟨4, by decide⟩
  else if -140737488355328 ≤ i.toInt ∧ i.toInt ≤ 140737488355327 then ⟨5, by decide⟩
  else ⟨6, by decide⟩

def ofValue : Value → SerialType
  | .null => ⟨0, by decide⟩
  | .integer i => ofInteger i
  | .float _ => ⟨7, by decide⟩
  | .text t => text t.length
  | .blob b => blob b.length

end SerialType

def getSerialTypeSize (serial : Nat) : Result Nat :=
  match serial with
  | 0 | 8 | 9 => .ok 0
  | 1 => .ok 1
  | 2 => .ok 2
  | 3 => .ok 3
  | 4 => .ok 4
  | 5 => .ok 6
  | 6 | 7 => .ok 8
  | n =>
    if 12 ≤ n then
      if n % 2 = 0 then .ok ((n - 12) / 2) else .ok ((n - 13) / 2)
    else .error (.corrupt ("Invalid serial type: " ++ toString serial))

def integerBytes (i : Int64) : SerialTypeKind → List UInt8
  | .i8 => toSignedBE 1 i.toInt
  | .i16 => toSignedBE 2 i.toInt
  | .i24 => (toSignedBE 4 i.toInt).drop 1
  | .i32 => toSignedBE 4 i.toInt
  | .i48 => (toSignedBE 8 i.toInt).drop 2
  | .i64 => toSignedBE 8 i.toInt
  | _ => []

open SerialType

def contentBytes : Value → List UInt8
  | .null => []
  | .integer i => integerBytes i (ofInteger i).kind
  | .float f => toBE 8 f.bits.toNat
  | .text t => t
  | .blob b => b

/-- The loop of `calc_header_size`; `none` if it has not settled after `rounds`. -/
def calcHeaderSizeLoop : Nat → Nat → Nat → Option Nat
  | 0, _, _ => none
  | rounds + 1, sizeofSerialTypes, headerSize =>
    let next := sizeofSerialTypes + (writeVarint headerSize).length
    if next = headerSize then some headerSize
    else calcHeaderSizeLoop rounds sizeofSerialTypes next

/-- `calc_header_size`. The loop settles in ten rounds whatever the size: see
`calcHeaderSize_eq`. -/
def calcHeaderSize (sizeofSerialTypes : Nat) : Option Nat :=
  if sizeofSerialTypes < 127 then some (sizeofSerialTypes + 1)
  else calcHeaderSizeLoop 10 sizeofSerialTypes sizeofSerialTypes

def isizeMax : Nat := 2 ^ 63 - 1

/-- `AppendWriter` over a zeroed buffer of this size; `none` if the chunks do not fit. -/
def appendWriter (capacity : Nat) (chunks : List (List UInt8)) : Option (List UInt8) :=
  if chunks.flatten.length ≤ capacity then
    some (chunks.flatten ++ List.replicate (capacity - chunks.flatten.length) 0)
  else none

def fromValues (values : List Value) : Option (List UInt8) := do
  let serials := values.map fun value => writeVarint (ofValue value).val
  let sizeHeader := (serials.map List.length).sum
  let sizeValues := (values.map fun value => (ofValue value).size).sum
  let headerSize ← calcHeaderSize sizeHeader
  if headerSize + sizeValues ≤ isizeMax then
    appendWriter (headerSize + sizeValues)
      (writeVarint headerSize :: serials ++ values.map contentBytes)
  else none

/-- `Record::serialize` behind what the buffer holds: the serial types and the contents are
appended, then the header size is spliced in before them. -/
def serialize (values : List Value) (buf : List UInt8) : Option (List UInt8) := do
  let initial := buf.length
  let buf := buf ++ values.flatMap fun value => writeVarint (ofValue value).val
  let headerSize := buf.length - initial
  let buf := buf ++ values.flatMap contentBytes
  let headerSize ← calcHeaderSize headerSize
  return buf.take initial ++ writeVarint headerSize ++ buf.drop initial

/-- A big-endian integer of `width` bytes, extended by `extension` bytes of sign to one of the
machine's widths. -/
def readInt (width extension : Nat) (message : String) (buf : List UInt8) : Result Int64 :=
  match buf with
  | [] => .error (.corrupt message)
  | first :: _ =>
    if buf.length < width then .error (.corrupt message)
    else
      .ok (Int64.ofInt (signedBE (List.replicate extension (signByte first) ++ buf.take width)))

def readSigned (width extension : Nat) (message : String) (buf : List UInt8) :
    Result (Value × Nat) :=
  match readInt width extension message buf with
  | .ok i => .ok (.integer i, width)
  | .error e => .error e

def readF64 (message : String) (buf : List UInt8) : Result (Value × Nat) :=
  if buf.length < 8 then .error (.corrupt message)
  else .ok (Value.fromF64 (UInt64.ofNat (ofBE (buf.take 8))), 8)

def readBlob (size : Nat) (buf : List UInt8) : Result (Value × Nat) :=
  if size ≤ buf.length then .ok (.blob (buf.take size), size)
  else .error (.corrupt "Invalid Blob value")

def readText (size : Nat) (buf : List UInt8) : Result (Value × Nat) :=
  if size ≤ buf.length then .ok (.text (buf.take size), size)
  else .error (.corrupt ("Invalid String value, length " ++ toString buf.length ++
    " < expected length " ++ toString size))

def readValueSerialType (buf : List UInt8) (serialType : Nat) : Result (Value × Nat) :=
  match serialType with
  | 0 => .ok (.null, 0)
  | 1 => readSigned 1 0 "Invalid 1-byte int" buf
  | 2 => readSigned 2 0 "Invalid 2-byte int" buf
  | 3 => readSigned 3 1 "Invalid 3-byte int" buf
  | 4 => readSigned 4 0 "Invalid 4-byte int" buf
  | 5 => readSigned 6 2 "Invalid 6-byte int" buf
  | 6 => readSigned 8 0 "Invalid 8-byte int" buf
  | 7 => readF64 "Invalid 8-byte float" buf
  | 8 => .ok (.integer 0, 0)
  | 9 => .ok (.integer 1, 0)
  | n =>
    if 12 ≤ n then
      if n % 2 = 0 then readBlob ((n - 12) / 2) buf else readText ((n - 13) / 2) buf
    else .error (.corrupt "Invalid serial type for integer")

def readValue (buf : List UInt8) (serialType : SerialType) : Result (Value × Nat) :=
  match serialType.kind with
  | .null => .ok (.null, 0)
  | .i8 => readSigned 1 0 "Invalid UInt8 value" buf
  | .i16 => readSigned 2 0 "Invalid BEInt16 value" buf
  | .i24 => readSigned 3 1 "Invalid BEInt24 value" buf
  | .i32 => readSigned 4 0 "Invalid BEInt32 value" buf
  | .i48 => readSigned 6 2 "Invalid BEInt48 value" buf
  | .i64 => readSigned 8 0 "Invalid BEInt64 value" buf
  | .f64 => readF64 "Invalid BEFloat64 value" buf
  | .constInt0 => .ok (.integer 0, 0)
  | .constInt1 => .ok (.integer 1, 0)
  | .blob => readBlob serialType.size buf
  | .text => readText serialType.size buf

def readInteger (buf : List UInt8) (serialType : Nat) : Result Int64 :=
  match serialType with
  | 1 => readInt 1 0 "Invalid 1-byte int" buf
  | 2 => readInt 2 0 "Invalid 2-byte int" buf
  | 3 => readInt 3 1 "Invalid 3-byte int" buf
  | 4 => readInt 4 0 "Invalid 4-byte int" buf
  | 5 => readInt 6 2 "Invalid 6-byte int" buf
  | 6 => readInt 8 0 "Invalid 8-byte int" buf
  | 8 => .ok 0
  | 9 => .ok 1
  | _ => .error (.corrupt "Invalid serial type for integer")

structure ValueIterator where
  headerSection : List UInt8
  dataSection : List UInt8

namespace ValueIterator

def new (payload : List UInt8) : Result ValueIterator := do
  let (headerSize, headerVarintLen) ← readVarintOrCorrupt payload
  if headerSize > payload.length ∨ headerVarintLen > payload.length ∨
      headerVarintLen > headerSize then
    .error (.corrupt "Payload too small for indicated header size")
  else
    .ok ⟨(payload.take headerSize).drop headerVarintLen, payload.drop headerSize⟩

def next (iter : ValueIterator) : Option (Result Value) × ValueIterator :=
  if iter.headerSection = [] then (none, iter)
  else
    match readVarintOrCorrupt iter.headerSection with
    | .error e => (some (.error e), iter)
    | .ok (serialType, bytesRead) =>
      let headerSection := iter.headerSection.drop bytesRead
      match readValueSerialType iter.dataSection serialType with
      | .ok (value, n) => (some (.ok value), ⟨headerSection, iter.dataSection.drop n⟩)
      | .error e => (some (.error e), ⟨headerSection, iter.dataSection⟩)

/-- The loop of `nth`: the header behind the columns it passes, with the size of their data.
The outer `error` is what `nth` returns without going on. -/
def skipColumns : Nat → List UInt8 → Nat →
    Except (Option (Result Value)) (List UInt8 × Nat)
  | 0, header, dataSum => .ok (header, dataSum)
  | n + 1, header, dataSum =>
    if header = [] then .error none
    else
      match readVarintOrCorrupt header with
      | .error e => .error (some (.error e))
      | .ok (serialType, bytesRead) =>
        match getSerialTypeSize serialType with
        | .error e => .error (some (.error e))
        | .ok size => skipColumns n (header.drop bytesRead) (dataSum + size)

def nth (iter : ValueIterator) (n : Nat) : Option (Result Value) × ValueIterator :=
  match skipColumns n iter.headerSection 0 with
  | .error answer => (answer, iter)
  | .ok (header, dataSum) =>
    if dataSum > iter.dataSection.length then
      (some (.error (.corrupt "Data section too small for indicated serial type size")), iter)
    else next ⟨header, iter.dataSection.drop dataSum⟩

theorem length_drop_lt {header : List UInt8} {serialType bytesRead : Nat}
    (h : readVarintOrCorrupt header = .ok (serialType, bytesRead)) :
    (header.drop bytesRead).length < header.length := by
  have := readVarint_bounds (readVarintOrCorrupt_eq_ok h)
  rw [List.length_drop]
  omega

/-- The loop of `count`. -/
def countFrom (header : List UInt8) : Nat :=
  if header = [] then 0
  else
    match h : readVarintOrCorrupt header with
    | .ok (_, bytesRead) => countFrom (header.drop bytesRead) + 1
    | .error _ => 0
termination_by header.length
decreasing_by exact length_drop_lt h

def count (iter : ValueIterator) : Nat := countFrom iter.headerSection

theorem next_length {iter iter' : ValueIterator} {value : Value}
    (h : iter.next = (some (.ok value), iter')) :
    iter'.headerSection.length < iter.headerSection.length := by
  rw [next] at h
  split at h
  · cases h
  split at h
  · cases h
  next hread =>
    split at h
    · cases h
      exact length_drop_lt hread
    · cases h

def collect (iter : ValueIterator) : Result (List Value) :=
  match _h : iter.next with
  | (none, _) => .ok []
  | (some (.error e), _) => .error e
  | (some (.ok value), rest) => (value :: ·) <$> collect rest
termination_by iter.headerSection.length
decreasing_by exact next_length ‹_›

end ValueIterator

def getValues (payload : List UInt8) : Result (List Value) := do
  let iter ← ValueIterator.new payload
  iter.collect

def getValue (payload : List UInt8) (idx : Nat) : Result Value :=
  if payload = [] then .error (.internalError "Record is invalidated")
  else do
    let iter ← ValueIterator.new payload
    match (iter.nth idx).1 with
    | some value => value
    | none => .error (.internalError "Index out of bounds")

def columnCount (payload : List UInt8) : Nat :=
  match ValueIterator.new payload with
  | .ok iter => iter.count
  | .error _ => 0

end PgMicro.Types
