import PgMicro.Codec.BigEndian
import PgMicro.Storage.Varint

/-!
# The bytes of a B-tree page

`PageInner` of `core/storage/pager.rs` and `read_btree_cell` of `core/storage/sqlite3_ondisk.rs`,
as far as they read. `none` stands for an error and for a panic: in both cases nothing is read.
-/

namespace PgMicro.BTree

open Storage Codec

inductive PageType where
  | indexInterior
  | tableInterior
  | indexLeaf
  | tableLeaf
  deriving DecidableEq, Repr

structure Page where
  bytes : List UInt8
  offset : Nat

def asI64 (n : Nat) : Int := if n < 2 ^ 63 then n else (n : Int) - 2 ^ 64

def i64Max : Int := 2 ^ 63 - 1

def minimumCellSize : Nat := 4

def payloadOverflowThresholdMax (pageType : PageType) (usableSpace : Nat) : Nat :=
  match pageType with
  | .indexInterior | .indexLeaf => (usableSpace - 12) * 64 / 255 - 23
  | .tableInterior | .tableLeaf => usableSpace - 35

def payloadOverflowThresholdMin (usableSpace : Nat) : Nat := (usableSpace - 12) * 32 / 255 - 23

/-- `payload_overflows`: the bytes kept on the page, with the overflow pointer, if there are
overflow pages. -/
def payloadOverflows (payloadSize thresholdMax thresholdMin usableSize : Nat) : Option Nat :=
  if payloadSize ≤ thresholdMax then none
  else
    let spaceLeft := thresholdMin + (payloadSize - thresholdMin) % (usableSize - 4)
    some ((if spaceLeft > thresholdMax then thresholdMin else spaceLeft) + 4)

inductive BTreeCell where
  | tableInterior (leftChildPage : Nat) (rowid : Int)
  | tableLeaf (rowid : Int) (payloadSize localSize : Nat) (firstOverflowPage : Option Nat)
  | indexInterior (leftChildPage payloadSize localSize : Nat) (firstOverflowPage : Option Nat)
  | indexLeaf (payloadSize localSize : Nat) (firstOverflowPage : Option Nat)
  deriving DecidableEq, Repr

namespace Page

variable (page : Page)

def readU8NoOffset (pos : Nat) : Option Nat := page.bytes[pos]?.map UInt8.toNat

def readU16NoOffset (pos : Nat) : Option Nat := do
  let hi ← page.readU8NoOffset pos
  let lo ← page.readU8NoOffset (pos + 1)
  return hi * 256 + lo

def readU32NoOffset (pos : Nat) : Option Nat := do
  let hi ← page.readU16NoOffset pos
  let lo ← page.readU16NoOffset (pos + 2)
  return hi * 65536 + lo

def readU8 (pos : Nat) : Option Nat := page.readU8NoOffset (page.offset + pos)

def readU16 (pos : Nat) : Option Nat := page.readU16NoOffset (page.offset + pos)

def readU32 (pos : Nat) : Option Nat := page.readU32NoOffset (page.offset + pos)

def readVarintAt (pos : Nat) : Option (Nat × Nat) :=
  if pos ≤ page.bytes.length then readVarint (page.bytes.drop pos) else none

def pageType : Option PageType := do
  match ← page.readU8 0 with
  | 2 => some .indexInterior
  | 5 => some .tableInterior
  | 10 => some .indexLeaf
  | 13 => some .tableLeaf
  | _ => none

def firstFreeblock : Option Nat := page.readU16 1

def cellCount : Option Nat := page.readU16 3

/-- `cell_content_area`: zero stands for the largest page size. -/
def cellContentArea : Option Nat := do
  let offset ← page.readU16 5
  return if offset = 0 then 65536 else offset

def numFragFreeBytes : Option Nat := page.readU8 7

def headerSize : Option Nat := do
  return if (← page.readU8 0) ≤ 5 then 12 else 8

def rightmostPointer : Option (Option Nat) := do
  match ← page.pageType with
  | .indexInterior | .tableInterior => some (← page.readU32 8)
  | .indexLeaf | .tableLeaf => some none

def cellGetRawStartOffset (idx : Nat) : Option Nat := do
  page.readU16 ((← page.headerSize) + idx * 2)

def rawLength (pageType : PageType) (start usableSize : Nat) : Option Nat := do
  let thresholdMax := payloadOverflowThresholdMax pageType usableSize
  let thresholdMin := payloadOverflowThresholdMin usableSize
  match pageType with
  | .indexInterior =>
    let (lenPayload, nPayload) ← page.readVarintAt (start + 4)
    match payloadOverflows lenPayload thresholdMax thresholdMin usableSize with
    | some toRead => return 4 + toRead + nPayload
    | none => return 4 + lenPayload + nPayload
  | .tableInterior =>
    let (_, nRowid) ← page.readVarintAt (start + 4)
    return 4 + nRowid
  | .indexLeaf =>
    let (lenPayload, nPayload) ← page.readVarintAt start
    match payloadOverflows lenPayload thresholdMax thresholdMin usableSize with
    | some toRead => return toRead + nPayload
    | none => return max (lenPayload + nPayload) minimumCellSize
  | .tableLeaf =>
    let (lenPayload, nPayload) ← page.readVarintAt start
    let (_, nRowid) ← page.readVarintAt (start + nPayload)
    match payloadOverflows lenPayload thresholdMax thresholdMin usableSize with
    | some toRead => return toRead + nPayload + nRowid
    | none => return max (lenPayload + nPayload + nRowid) minimumCellSize

def cellGetRawRegion (idx usableSize : Nat) : Option (Nat × Nat) := do
  let start ← page.cellGetRawStartOffset idx
  let len ← page.rawLength (← page.pageType) start usableSize
  if start + len ≤ page.bytes.length then return (start, len) else none

/-- `read_payload` of the bytes of the page from `pos` on: the size of what is on the page and the
first overflow page. -/
def readPayload (pos toRead payloadSize : Nat) : Option (Nat × Option Nat) := do
  if payloadSize ≤ toRead then return (payloadSize, none)
  else if toRead < 4 then none
  else return (toRead - 4, some (← page.readU32NoOffset (pos + toRead - 4)))

/-- What `read_btree_cell` does after the size of the payload and what comes with it. -/
def readLocalPayload (pageType : PageType) (pos payloadSize usableSize : Nat) :
    Option (Nat × Option Nat) := do
  let toRead := (payloadOverflows payloadSize (payloadOverflowThresholdMax pageType usableSize)
    (payloadOverflowThresholdMin usableSize) usableSize).getD (page.bytes.length - pos)
  if pos + toRead ≤ page.bytes.length then page.readPayload pos toRead payloadSize else none

def readBtreeCell (pos usableSize : Nat) : Option BTreeCell := do
  match ← page.pageType with
  | .indexInterior =>
    let leftChildPage ← page.readU32NoOffset pos
    let (payloadSize, nr) ← page.readVarintAt (pos + 4)
    let (localSize, overflow) ←
      page.readLocalPayload .indexInterior (pos + 4 + nr) payloadSize usableSize
    return .indexInterior leftChildPage payloadSize localSize overflow
  | .tableInterior =>
    let leftChildPage ← page.readU32NoOffset pos
    let (rowid, _) ← page.readVarintAt (pos + 4)
    return .tableInterior leftChildPage (asI64 rowid)
  | .indexLeaf =>
    let (payloadSize, nr) ← page.readVarintAt pos
    let (localSize, overflow) ← page.readLocalPayload .indexLeaf (pos + nr) payloadSize usableSize
    return .indexLeaf payloadSize localSize overflow
  | .tableLeaf =>
    let (payloadSize, nr) ← page.readVarintAt pos
    let (rowid, nr') ← page.readVarintAt (pos + nr)
    let (localSize, overflow) ←
      page.readLocalPayload .tableLeaf (pos + nr + nr') payloadSize usableSize
    return .tableLeaf (asI64 rowid) payloadSize localSize overflow

def cellGet (idx usableSize : Nat) : Option BTreeCell := do
  page.readBtreeCell (← page.cellGetRawStartOffset idx) usableSize

end Page

end PgMicro.BTree
