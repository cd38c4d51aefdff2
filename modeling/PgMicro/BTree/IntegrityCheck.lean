import PgMicro.BTree.PageBytes

/-!
# `integrity_check`

`integrity_check`, `IntegrityCheckState` and `CoverageChecker` of `core/storage/btree.rs`, started
on the root of a table, from where the freelist is not reached. The loops are bounded by a number of
rounds; `none` means that these ran out, or that reading a page failed.
-/

namespace PgMicro.BTree

inductive PageCategory where
  | normal
  | overflow
  deriving DecidableEq, Repr

inductive IntegrityCheckError where
  | cellOutOfRange (cellIdx pageId cellStart cellEnd contentArea usableSpace : Nat)
  | cellOverflowsPage (cellIdx pageId cellStart cellEnd contentArea usableSpace : Nat)
  | cellRowidOutOfRange (pageId : Nat) (pageCategory : PageCategory) (cellIdx : Nat)
      (rowid maxIntkey nextRowid : Int)
  | leafDepthMismatch (pageId thisPageDepth otherPageDepth : Nat)
  | freeBlockOutOfRange (pageId start endOffset : Nat)
  | cellOverlap (pageId start prevEnd contentArea : Nat) (isFreeBlock : Bool)
  | unexpectedFragmentation (pageId got expected : Nat)
  | pageReferencedMultipleTimes (pageId : Nat) (references : List Nat)
      (pageCategory : PageCategory)
  | overflowListLengthMismatch (got expected : Nat)
  deriving DecidableEq, Repr

structure Entry where
  pageIdx : Nat
  level : Nat
  maxIntkey : Int
  pageCategory : PageCategory
  overflowPagesExpected : Option Nat
  overflowPagesSeen : Nat
  deriving DecidableEq, Repr

structure CheckState where
  pageStack : List Entry
  firstLeafLevel : Option Nat
  pageReference : Nat → Option Nat
  errors : List IntegrityCheckError

structure CellRange where
  start : Nat
  endOffset : Nat
  isFreeBlock : Bool
  deriving DecidableEq, Repr

structure HeapOrder where
  pops : List CellRange → List CellRange
  perm : ∀ ranges, (pops ranges).Perm ranges
  sorted : ∀ ranges, (pops ranges).Pairwise fun a b => a.start ≤ b.start

structure Image where
  page : Nat → Option Page
  usableSpace : Nat
  heap : HeapOrder
  usable : 480 ≤ usableSpace ∧ usableSpace ≤ 65536

namespace CheckState

def error (s : CheckState) (e : IntegrityCheckError) : CheckState :=
  { s with errors := s.errors ++ [e] }

def pushPage (s : CheckState) (entry : Entry) (referencedBy : Nat) : CheckState :=
  let reference := Function.update s.pageReference entry.pageIdx (some referencedBy)
  match s.pageReference entry.pageIdx with
  | none => { s with pageReference := reference, pageStack := entry :: s.pageStack }
  | some previous =>
    { s with pageReference := reference }.error
      (.pageReferencedMultipleTimes entry.pageIdx [previous, referencedBy] entry.pageCategory)

def start (s : CheckState) (pageIdx : Nat) : CheckState :=
  { s with firstLeafLevel := none }.pushPage ⟨pageIdx, 0, i64Max, .normal, none, 0⟩ 0

end CheckState

def overflowPagesExpectedForCell (payloadSize localPayloadSize usableSpace : Nat) : Nat :=
  let remaining := payloadSize - localPayloadSize
  if remaining = 0 then 0
  else (remaining + (max (usableSpace - 4) 1 - 1)) / max (usableSpace - 4) 1

structure CellLoop where
  state : CheckState
  nextRowid : Int
  ranges : List CellRange

def overflowEntry (entry : Entry) (payloadSize localSize usableSpace first : Nat) : Entry :=
  ⟨first, entry.level, entry.maxIntkey, .overflow,
    some (overflowPagesExpectedForCell payloadSize localSize usableSpace), 0⟩

def childEntry (entry : Entry) (pageIdx : Nat) (maxIntkey : Int) : Entry :=
  ⟨pageIdx, entry.level + 1, maxIntkey, .normal, none, 0⟩

namespace CheckState

variable (s : CheckState) (entry : Entry)

def pushOverflow (payloadSize localSize usableSpace : Nat) : Option Nat → CheckState
  | none => s
  | some first =>
    s.pushPage (overflowEntry entry payloadSize localSize usableSpace first) entry.pageIdx

def checkLevel : CheckState :=
  match s.firstLeafLevel with
  | some expected =>
    if expected ≠ entry.level then s.error (.leafDepthMismatch entry.pageIdx entry.level expected)
    else s
  | none => { s with firstLeafLevel := some entry.level }

def checkRowid (cellIdx : Nat) (rowid nextRowid : Int) : CheckState :=
  if rowid > entry.maxIntkey ∨ rowid > nextRowid then
    s.error (.cellRowidOutOfRange entry.pageIdx entry.pageCategory cellIdx rowid entry.maxIntkey
      nextRowid)
  else s

def checkRegion (cellIdx cellStart cellLength contentArea usableSpace : Nat) : CheckState :=
  let s :=
    if cellStart < contentArea ∨ cellStart > usableSpace - 4 then
      s.error (.cellOutOfRange cellIdx entry.pageIdx cellStart (cellStart + cellLength) contentArea
        usableSpace)
    else s
  if cellStart + cellLength > usableSpace then
    s.error (.cellOverflowsPage cellIdx entry.pageIdx cellStart (cellStart + cellLength) contentArea
      usableSpace)
  else s

end CheckState

def checkCell (entry : Entry) (usableSpace cellIdx : Nat) (cell : BTreeCell) (s : CheckState)
    (nextRowid : Int) : CheckState × Int :=
  match cell with
  | .tableInterior leftChildPage rowid =>
    let s := s.pushPage (childEntry entry leftChildPage rowid) entry.pageIdx
    (s.checkRowid entry cellIdx rowid nextRowid, rowid)
  | .tableLeaf rowid payloadSize localSize overflow =>
    let s := (s.checkLevel entry).checkRowid entry cellIdx rowid nextRowid
    (s.pushOverflow entry payloadSize localSize usableSpace overflow, rowid)
  | .indexInterior leftChildPage payloadSize localSize overflow =>
    let s := s.pushPage (childEntry entry leftChildPage entry.maxIntkey) entry.pageIdx
    (s.pushOverflow entry payloadSize localSize usableSpace overflow, nextRowid)
  | .indexLeaf payloadSize localSize overflow =>
    ((s.checkLevel entry).pushOverflow entry payloadSize localSize usableSpace overflow, nextRowid)

def cellRound (page : Page) (entry : Entry) (usableSpace cellIdx : Nat) (loop : CellLoop) :
    Option CellLoop := do
  let (cellStart, cellLength) ← page.cellGetRawRegion cellIdx usableSpace
  let contentArea ← page.cellContentArea
  let s := loop.state.checkRegion entry cellIdx cellStart cellLength contentArea usableSpace
  let cell ← page.cellGet cellIdx usableSpace
  let (s, nextRowid) := checkCell entry usableSpace cellIdx cell s loop.nextRowid
  return ⟨s, nextRowid, ⟨cellStart, cellStart + cellLength, false⟩ :: loop.ranges⟩

def cellRounds (page : Page) (entry : Entry) (usableSpace : Nat) :
    Nat → CellLoop → Option CellLoop
  | 0, loop => some loop
  | n + 1, loop => do
    cellRounds page entry usableSpace n (← cellRound page entry usableSpace n loop)

def freeblockRounds (page : Page) (entry : Entry) (usableSpace : Nat) :
    Nat → Nat → CheckState → List CellRange → Option (CheckState × List CellRange)
  | 0, _, _, _ => none
  | rounds + 1, pc, s, ranges => do
    if pc = 0 then return (s, ranges)
    let next ← page.readU16NoOffset pc
    let size ← page.readU16NoOffset (pc + 2)
    if pc > usableSpace - 4 then
      return (s.error (.freeBlockOutOfRange entry.pageIdx pc (pc + size)), ranges)
    freeblockRounds page entry usableSpace rounds next s (⟨pc, pc + size, true⟩ :: ranges)

/-- The loop of `analyze`: the range that overlaps the one before it, if there is one, the end of
the last range and the bytes between ranges. -/
def coverage : List CellRange → Nat → Nat → Option CellRange × Nat × Nat
  | [], prevEnd, fragmentation => (none, prevEnd, fragmentation)
  | cell :: ranges, prevEnd, fragmentation =>
    if prevEnd > cell.start then (some cell, prevEnd, fragmentation)
    else coverage ranges cell.endOffset (fragmentation + (cell.start - prevEnd))

/-- `analyze`. The last difference wraps. -/
def CheckState.analyze (s : CheckState) (image : Image) (pageIdx contentArea expected : Nat)
    (ranges : List CellRange) : CheckState :=
  let (overlap, prevEnd, fragmentation) := coverage (image.heap.pops ranges) contentArea 0
  let s :=
    match overlap with
    | some cell => s.error (.cellOverlap pageIdx cell.start prevEnd contentArea cell.isFreeBlock)
    | none => s
  let fragmentation := (fragmentation + (2 ^ 64 + image.usableSpace - prevEnd)) % 2 ^ 64
  if fragmentation ≠ expected then
    s.error (.unexpectedFragmentation pageIdx fragmentation expected)
  else s

def checkNormal (image : Image) (rounds : Nat) (page : Page) (entry : Entry) (s : CheckState) :
    Option CheckState := do
  let loop ← cellRounds page entry image.usableSpace (← page.cellCount) ⟨s, entry.maxIntkey, []⟩
  let s :=
    match ← page.rightmostPointer with
    | some rightmost => loop.state.pushPage (childEntry entry rightmost entry.maxIntkey)
      entry.pageIdx
    | none => loop.state
  let (s, ranges) ←
    freeblockRounds page entry image.usableSpace rounds (← page.firstFreeblock) s loop.ranges
  return s.analyze image entry.pageIdx (← page.cellContentArea) (← page.numFragFreeBytes) ranges

def checkOverflow (page : Page) (entry : Entry) (s : CheckState) : Option CheckState := do
  let seen := entry.overflowPagesSeen + 1
  let next ← page.readU32NoOffset 0
  if next ≠ 0 then
    return s.pushPage { entry with pageIdx := next, overflowPagesSeen := seen } entry.pageIdx
  match entry.overflowPagesExpected with
  | some expected =>
    if seen ≠ expected then return s.error (.overflowListLengthMismatch seen expected) else return s
  | none => return s

def checkPage (image : Image) (rounds : Nat) (entry : Entry) (s : CheckState) :
    Option CheckState := do
  let page ← image.page entry.pageIdx
  match entry.pageCategory with
  | .overflow => checkOverflow page entry s
  | .normal => checkNormal image rounds page entry s

def integrityRounds (image : Image) (freeblocks : Nat) : Nat → CheckState → Option CheckState
  | 0, _ => none
  | rounds + 1, s =>
    match s.pageStack with
    | [] => some s
    | entry :: rest => do
      integrityRounds image freeblocks rounds
        (← checkPage image freeblocks entry { s with pageStack := rest })

def integrityCheck (image : Image) (dbSize freeblocks rounds : Nat) (s : CheckState) :
    Option CheckState :=
  if dbSize = 0 then some { s with pageStack := s.pageStack.tail }
  else integrityRounds image freeblocks rounds s

end PgMicro.BTree
