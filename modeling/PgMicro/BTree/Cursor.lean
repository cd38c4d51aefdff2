import PgMicro.Loop
import PgMicro.Types.RecordCompare

/-!
# The B-tree cursor

`BTreeCursor` of `core/storage/btree.rs` with its `PageStack`: `seek` for a rowid or an index key,
`get_next_record` and `get_prev_record`. A page is the list of its cells: the rowid of a table
cell, the record of an index cell with its overflow pages, and the left child on an interior page.
Pages are there at once, so no loop is left for input. A failed assertion gives no result.
-/

namespace PgMicro.BTree

open Loop Types

inductive Contents (κ : Type) where
  | leaf (cells : List κ)
  | interior (cells : List (Nat × κ)) (rightmost : Nat)
  deriving DecidableEq, Repr

structure Pages (κ : Type) where
  isIndex : Bool
  page : Nat → Contents κ

namespace Contents

def cellCount : Contents κ → Nat
  | leaf cells => cells.length
  | interior cells _ => cells.length

def isLeaf : Contents κ → Bool
  | leaf _ => true
  | interior _ _ => false

def rightmostPointer : Contents κ → Option Nat
  | leaf _ => none
  | interior _ right => some right

def leftChildPage : Contents κ → Nat → Option Nat
  | leaf _, _ => none
  | interior cells _, idx => cells[idx]?.map Prod.fst

end Contents

def btcursorMaxDepth : Nat := 20

def i32Max : Int := 2 ^ 31 - 1

/-- `i as usize`. -/
def asUsize (i : Int) : Nat := (i % 2 ^ 64).toNat

/-- A level of the page stack: the page and its `BTreeNodeState`. -/
structure NodeState where
  page : Nat
  cellIdx : Int
  cellCount : Option Nat
  deriving DecidableEq, Repr

def NodeState.isAtEnd (node : NodeState) : Option Bool :=
  node.cellCount.map fun (cellCount : Nat) => decide (node.cellIdx = (cellCount : Int) + 1)

structure BTreeCursor where
  stack : List NodeState
  goingUpwards : Bool
  hasRecord : Bool
  deriving DecidableEq, Repr

inductive IterationDirection where
  | forwards
  | backwards
  deriving DecidableEq, Repr

inductive SeekOp where
  | ge (eqOnly : Bool)
  | gt
  | le (eqOnly : Bool)
  | lt
  deriving DecidableEq, Repr

inductive SeekResult where
  | found
  | notFound
  | tryAdvance
  deriving DecidableEq, Repr

namespace SeekOp

def iterationDirection : SeekOp → IterationDirection
  | ge _ | gt => .forwards
  | le _ | lt => .backwards

def eqOnly : SeekOp → Bool
  | ge eqOnly | le eqOnly => eqOnly
  | gt | lt => false

/-- `get_tie_breaker_from_seek_op`. -/
def tieBreaker : SeekOp → Ordering
  | ge true | le true => .eq
  | ge false => .gt
  | gt => .lt
  | le false => .lt
  | lt => .gt

def found : SeekOp → Ordering → Bool
  | gt, cmp => cmp.isGT
  | ge true, cmp => cmp.isEq
  | ge false, cmp => cmp.isGE
  | le true, cmp => cmp.isEq
  | le false, cmp => cmp.isLE
  | lt, cmp => cmp.isLT

end SeekOp

namespace BTreeCursor

def setCellIndex (cur : BTreeCursor) (idx : Int) : BTreeCursor :=
  { cur with stack := cur.stack.modifyHead fun top => { top with cellIdx := idx } }

def advance (cur : BTreeCursor) : BTreeCursor :=
  { cur with stack := cur.stack.modifyHead fun top => { top with cellIdx := top.cellIdx + 1 } }

def retreat (cur : BTreeCursor) : BTreeCursor :=
  { cur with stack := cur.stack.modifyHead fun top => { top with cellIdx := top.cellIdx - 1 } }

variable (pages : Pages κ) (cur : BTreeCursor) (page : Nat)

def push (startingCellIdx : Int) : Option BTreeCursor :=
  match cur.stack with
  | [] => some { cur with stack := [⟨page, startingCellIdx, none⟩] }
  | top :: below =>
    if top.page = page then none
    else if btcursorMaxDepth ≤ cur.stack.length then none
    else
      let top := { top with cellCount := some (pages.page top.page).cellCount }
      some { cur with stack := ⟨page, startingCellIdx, none⟩ :: top :: below }

def popUpwards (cur : BTreeCursor) : Option BTreeCursor :=
  match cur.stack with
  | _ :: top :: below => some { cur with stack := top :: below, goingUpwards := true }
  | _ => none

def descend : Option BTreeCursor :=
  push pages { cur with goingUpwards := false } page (-1)

def descendBackwards : Option BTreeCursor :=
  push pages { cur with goingUpwards := false } page i32Max

def moveToRoot (root : Nat) (cur : BTreeCursor) : BTreeCursor :=
  { cur with stack := [⟨root, -1, none⟩], goingUpwards := false }

def record : Option κ :=
  match cur.stack with
  | [] => none
  | top :: _ =>
    if top.cellIdx < 0 then none
    else
      match pages.page top.page with
      | .leaf cells => cells[top.cellIdx.toNat]?
      | .interior cells _ =>
        if pages.isIndex then cells[top.cellIdx.toNat]?.map Prod.snd else none

end BTreeCursor

open BTreeCursor

section

variable (pages : Pages κ)

def ancestorPagesHaveMoreChildren : List NodeState → Option Bool
  | [] => some false
  | node :: nodes => do
    if ← node.isAtEnd then ancestorPagesHaveMoreChildren nodes else some true

def nextUpwards (cur : BTreeCursor) (ancestors : List NodeState) :
    Option (ControlFlow BTreeCursor (BTreeCursor × Bool)) := do
  if ← ancestorPagesHaveMoreChildren ancestors then some (.goOn (← popUpwards cur))
  else some (.stop (cur, false))

def nextStep (cur : BTreeCursor) : Option (ControlFlow BTreeCursor (BTreeCursor × Bool)) :=
  match cur.stack with
  | [] => none
  | top :: below =>
    let contents := pages.page top.page
    let cellCount := contents.cellCount
    if top.cellIdx ≠ -1 ∧ contents.isLeaf ∧ asUsize top.cellIdx + 1 < cellCount then
      some (.stop (cur.advance, true))
    -- the divider of an index is still to be visited when the cursor comes from its left child
    else if pages.isIndex ∧ cur.goingUpwards ∧ 0 ≤ top.cellIdx ∧ top.cellIdx < cellCount then
      some (.stop ({ cur with goingUpwards := false }, true))
    else
      let cellIdx := asUsize (top.cellIdx + 1)
      if cellCount ≤ cellIdx then
        match contents.rightmostPointer, decide (cellCount < cellIdx) with
        | some right, false => do some (.goOn (← descend pages cur.advance.advance right))
        | _, _ => nextUpwards cur.advance below
      else if contents.isLeaf then some (.stop (cur.advance, true))
      else if pages.isIndex ∧ cur.goingUpwards then
        some (.stop ({ cur.advance with goingUpwards := false }, true))
      else do
        let leftChildPage ← contents.leftChildPage cellIdx
        some (.goOn (← descend pages cur.advance leftChildPage))

def getNextRecord (fuel : Nat) (cur : BTreeCursor) : Option BTreeCursor :=
  if cur.stack = [] then some { cur with hasRecord := false }
  else do
    let (cur, hasRecord) ← loop (nextStep pages) fuel cur
    some { cur with hasRecord }

/-- The inner loop of `get_prev_record`: up to a page whose cell index is not below zero, if there
is one. -/
def climb (goingUpwards hasRecord : Bool) : List NodeState → BTreeCursor × Bool
  | [] => (⟨[], goingUpwards, hasRecord⟩, false)
  | top :: below =>
    if 0 ≤ top.cellIdx then (⟨top :: below, goingUpwards, hasRecord⟩, true)
    else
      match below with
      | [] => (⟨[top], goingUpwards, hasRecord⟩, false)
      | _ :: _ => climb true hasRecord below

def prevVisit (cur : BTreeCursor) : Option (ControlFlow BTreeCursor (BTreeCursor × Bool)) :=
  match cur.stack with
  | [] => none
  | top :: _ =>
    let contents := pages.page top.page
    if top.cellIdx < 0 then
      match climb cur.goingUpwards cur.hasRecord cur.stack with
      | (cur, true) => some (.goOn cur)
      | (cur, false) => some (.stop (cur, false))
    else if contents.isLeaf then some (.stop (cur, true))
    else if pages.isIndex ∧ cur.goingUpwards then
      some (.stop ({ cur with goingUpwards := false }, true))
    else do
      let leftChildPage ← contents.leftChildPage top.cellIdx.toNat
      let cur := if pages.isIndex then cur.retreat else cur
      some (.goOn (← descendBackwards pages cur leftChildPage))

def prevStep (cur : BTreeCursor) : Option (ControlFlow BTreeCursor (BTreeCursor × Bool)) :=
  match cur.stack with
  | [] => none
  | top :: _ =>
    let contents := pages.page top.page
    let cellCount := contents.cellCount
    match contents.rightmostPointer, decide (top.cellIdx = i32Max ∧ cur.goingUpwards = false) with
    | some right, true => do
      some (.goOn (← descendBackwards pages (cur.setCellIndex (cellCount + 1)) right))
    | _, _ =>
      if cellCount ≤ top.cellIdx then prevVisit pages (cur.setCellIndex (cellCount - 1))
      else if 0 ≤ top.cellIdx then
        if pages.isIndex ∧ cur.goingUpwards then
          some (.stop ({ cur with goingUpwards := false }, true))
        else if contents.isLeaf ∨ ¬ pages.isIndex then prevVisit pages cur.retreat
        else prevVisit pages cur
      else prevVisit pages cur

def getPrevRecord (fuel : Nat) (cur : BTreeCursor) : Option BTreeCursor := do
  let (cur, hasRecord) ← loop (prevStep pages) fuel cur
  some { cur with hasRecord }

end

structure InteriorPageBinarySearchState where
  minCellIdx : Int
  maxCellIdx : Int
  nearestMatchingCell : Option Nat
  eqSeen : Bool
  deriving DecidableEq, Repr

inductive CursorSeekState where
  | start
  | movingBetweenPages (eqSeen : Bool)
  | interiorPageBinarySearch (state : InteriorPageBinarySearchState)
  deriving DecidableEq, Repr

def CursorSeekState.onInterior (cellCount : Nat) : CursorSeekState → InteriorPageBinarySearchState
  | start => ⟨0, (cellCount : Int) - 1, none, false⟩
  | movingBetweenPages eqSeen => ⟨0, (cellCount : Int) - 1, none, eqSeen⟩
  | interiorPageBinarySearch state => state

section

variable (pages : Pages κ) (probe : κ → Option (Bool × Bool)) (dir : IterationDirection)

/-- `tablebtree_move_inner` and `indexbtree_move_to_inner`: a comparison, or the step down when the
search is over. `probe` answers whether the leaf is on the left of a cell, and whether the cell
equals the key. On an index the cell index follows the search, one cell before the child when the
leaf is to be read backwards. -/
def moveInner (cells : List (Nat × κ)) (rightmost : Nat) (cur : BTreeCursor)
    (state : InteriorPageBinarySearchState) :
    Option (BTreeCursor × CursorSeekState) :=
  if state.minCellIdx > state.maxCellIdx then
    match state.nearestMatchingCell with
    | some nearest => do
      let (leftChildPage, _) ← cells[nearest]?
      let cur := cur.setCellIndex nearest
      let cur := if pages.isIndex ∧ dir = .backwards then cur.retreat else cur
      some (← push pages cur leftChildPage (-1), .movingBetweenPages state.eqSeen)
    | none => do
      let cur := cur.setCellIndex (cells.length + 1)
      some (← push pages cur rightmost (-1), .movingBetweenPages state.eqSeen)
  else do
    let curCellIdx := (state.minCellIdx + state.maxCellIdx) / 2
    let cur := if pages.isIndex then cur.setCellIndex curCellIdx else cur
    let (_, cell) ← cells[curCellIdx.toNat]?
    let (isOnLeft, isEq) ← probe cell
    let state := { state with eqSeen := state.eqSeen || isEq }
    if isOnLeft then
      some (cur, .interiorPageBinarySearch { state with
        nearestMatchingCell := some curCellIdx.toNat, maxCellIdx := curCellIdx - 1 })
    else some (cur, .interiorPageBinarySearch { state with minCellIdx := curCellIdx + 1 })

/-- One round of `tablebtree_move_to` and `indexbtree_move_to_internal`; the loop ends at a leaf
with `eq_seen`. -/
def moveStep (s : BTreeCursor × CursorSeekState) :
    Option (ControlFlow (BTreeCursor × CursorSeekState) (BTreeCursor × Bool)) :=
  match s.1.stack with
  | [] => none
  | top :: _ =>
    match pages.page top.page with
    | .leaf _ =>
      let eqSeen :=
        match s.2 with
        | .movingBetweenPages eqSeen => eqSeen
        | _ => false
      some (.stop (s.1, eqSeen))
    | .interior cells rightmost => do
      some (.goOn (← moveInner pages probe dir cells rightmost s.1 (s.2.onInterior cells.length)))

end

/-- `is_on_left` of `tablebtree_move_inner`. The addition is one of `i64` and fails on overflow;
a table has no use for `eq_seen`. -/
def tableProbe (op : SeekOp) (rowid cellRowid : Int64) : Option (Bool × Bool) :=
  match op with
  | .gt => some (decide (rowid.toInt < cellRowid.toInt), false)
  | .ge _ | .le _ => some (decide (rowid.toInt ≤ cellRowid.toInt), false)
  | .lt =>
    if cellRowid.toInt + 1 < 2 ^ 63 then some (decide (rowid.toInt ≤ cellRowid.toInt + 1), false)
    else none

variable (comparer : RecordCompare) (keyValues : List Value) (indexInfo : IndexInfo) (op : SeekOp)
  {κ : Type} [UncasedStr]

def compareUnwrap (payload : List UInt8) : Option Ordering :=
  (comparer.compare payload keyValues indexInfo 0 op.tieBreaker).toOption

/-- `target_leaf_page_is_in_left_subtree` and `is_eq` of `indexbtree_move_to_inner`. -/
def indexProbe (payload : List UInt8) : Option (Bool × Bool) := do
  let interiorCellVsIndexKey ← compareUnwrap comparer keyValues indexInfo op payload
  let isInLeftSubtree :=
    match op with
    | .gt => interiorCellVsIndexKey.isGT
    | .ge _ => interiorCellVsIndexKey.isGE
    | .le _ => interiorCellVsIndexKey.isGT
    | .lt => interiorCellVsIndexKey.isGE
  some (isInLeftSubtree, interiorCellVsIndexKey.isEq)

structure LeafPageBinarySearchState where
  minCellIdx : Int
  maxCellIdx : Int
  nearestMatchingCell : Option Nat
  eqSeen : Bool
  targetCellWhenNotFound : Int
  deriving DecidableEq, Repr

namespace LeafPageBinarySearchState

def initial (op : SeekOp) (cellCount : Nat) (eqSeen : Bool) : LeafPageBinarySearchState where
  minCellIdx := 0
  maxCellIdx := cellCount - 1
  nearestMatchingCell := none
  eqSeen := eqSeen
  targetCellWhenNotFound :=
    match op.iterationDirection with
    | .forwards => cellCount
    | .backwards => -1

def curCellIdx (state : LeafPageBinarySearchState) : Int :=
  (state.minCellIdx + state.maxCellIdx) / 2

/-- The end of `tablebtree_seek_inner` and of `indexbtree_seek_inner`: the side on which the search
goes on. -/
def narrow (op : SeekOp) (cmp : Ordering) (state : LeafPageBinarySearchState) :
    LeafPageBinarySearchState :=
  let curCellIdx := state.curCellIdx
  if op.found cmp then
    let state := { state with nearestMatchingCell := some curCellIdx.toNat }
    match op.iterationDirection with
    | .forwards => { state with maxCellIdx := curCellIdx - 1 }
    | .backwards => { state with minCellIdx := curCellIdx + 1 }
  else
    match cmp with
    | .gt =>
      let target :=
        if op = .ge true then min state.targetCellWhenNotFound curCellIdx
        else state.targetCellWhenNotFound
      { state with targetCellWhenNotFound := target, maxCellIdx := curCellIdx - 1 }
    | .lt =>
      let target :=
        if op = .le true then max state.targetCellWhenNotFound curCellIdx
        else state.targetCellWhenNotFound
      { state with targetCellWhenNotFound := target, minCellIdx := curCellIdx + 1 }
    | .eq =>
      match op.iterationDirection with
      | .forwards => { state with minCellIdx := curCellIdx + 1 }
      | .backwards => { state with maxCellIdx := curCellIdx - 1 }

def targetIsCell (state : LeafPageBinarySearchState) (cellCount : Nat) : Bool :=
  decide (0 ≤ state.targetCellWhenNotFound ∧ state.targetCellWhenNotFound < cellCount)

end LeafPageBinarySearchState

open LeafPageBinarySearchState

def tablebtreeSeekInner (rowid : Int64) (op : SeekOp) (cells : List Int64)
    (s : BTreeCursor × LeafPageBinarySearchState) :
    Option (ControlFlow (BTreeCursor × LeafPageBinarySearchState) (BTreeCursor × SeekResult)) :=
  let (cur, state) := s
  if state.minCellIdx > state.maxCellIdx then
    match state.nearestMatchingCell with
    | some nearest =>
      some (.stop ({ cur.setCellIndex nearest with hasRecord := true }, .found))
    | none =>
      let cur := cur.setCellIndex state.targetCellWhenNotFound
      if op.eqOnly then
        some (.stop ({ cur with hasRecord := state.targetIsCell cells.length }, .notFound))
      else some (.stop (cur, .tryAdvance))
  else do
    let cellRowid ← cells[state.curCellIdx.toNat]?
    let cmp := compare cellRowid.toInt rowid.toInt
    if op.found cmp ∧ op.eqOnly then
      some (.stop ({ cur.setCellIndex state.curCellIdx with hasRecord := true }, .found))
    else some (.goOn (cur, state.narrow op cmp))

def indexbtreeSeekInner (cells : List (List UInt8)) (s : BTreeCursor × LeafPageBinarySearchState) :
    Option (ControlFlow (BTreeCursor × LeafPageBinarySearchState) (BTreeCursor × SeekResult)) :=
  let (cur, state) := s
  if state.minCellIdx > state.maxCellIdx then
    match state.nearestMatchingCell with
    | some nearest =>
      some (.stop ({ cur.setCellIndex nearest with hasRecord := true }, .found))
    | none =>
      let cur := { cur.setCellIndex state.targetCellWhenNotFound with
        hasRecord := state.targetIsCell cells.length }
      if op.eqOnly ∧ ¬ state.eqSeen then some (.stop (cur, .notFound))
      else some (.stop (cur, .tryAdvance))
  else do
    let cur := cur.setCellIndex state.curCellIdx
    let payload ← cells[state.curCellIdx.toNat]?
    let cmp ← compareUnwrap comparer keyValues indexInfo op payload
    some (.goOn (cur, state.narrow op cmp))

def leafCells {κ : Type} (pages : Pages κ) (cur : BTreeCursor) : Option (List κ) :=
  match cur.stack with
  | [] => none
  | top :: _ =>
    match pages.page top.page with
    | .leaf cells => some cells
    | .interior _ _ => none

def tablebtreeSeek (fuel : Nat) (pages : Pages Int64) (root : Nat) (cur : BTreeCursor)
    (rowid : Int64) (op : SeekOp) : Option (BTreeCursor × SeekResult) := do
  let (cur, _) ← loop (moveStep pages (tableProbe op rowid) op.iterationDirection) fuel
    (cur.moveToRoot root, .start)
  let cells ← leafCells pages cur
  if cells = [] then some (cur.setCellIndex 0, .notFound)
  else loop (tablebtreeSeekInner rowid op cells) fuel (cur, initial op cells.length false)

def indexbtreeSeekInternal (fuel : Nat) (pages : Pages (List UInt8)) (root : Nat)
    (indexInfo : IndexInfo) (cur : BTreeCursor) (comparer : RecordCompare)
    (keyValues : List Value) (op : SeekOp) : Option (BTreeCursor × SeekResult) := do
  let (cur, eqSeen) ← loop
    (moveStep pages (indexProbe comparer keyValues indexInfo op) op.iterationDirection) fuel
    (cur.moveToRoot root, .start)
  let cells ← leafCells pages cur
  if cells = [] then some (cur, .notFound)
  else
    loop (indexbtreeSeekInner comparer keyValues indexInfo op cells) fuel
      (cur, initial op cells.length eqSeen)

def indexbtreeSeek (fuel : Nat) (pages : Pages (List UInt8)) (root : Nat) (indexInfo : IndexInfo)
    (cur : BTreeCursor) (key : List UInt8) (op : SeekOp) : Option (BTreeCursor × SeekResult) := do
  let keyValues ← (getValues key).toOption
  let comparer ← (findCompare keyValues indexInfo).toOption
  indexbtreeSeekInternal fuel pages root indexInfo cur comparer keyValues op

/-- What a caller of `seek` does next: one step in the direction of the search when it is told to
try. -/
def advanceIfTold {κ : Type} (fuel : Nat) (pages : Pages κ) (op : SeekOp)
    (answer : BTreeCursor × SeekResult) : Option (BTreeCursor × SeekResult) :=
  match answer.2 with
  | .tryAdvance =>
    match op.iterationDirection with
    | .forwards => do some (← getNextRecord pages fuel answer.1, .tryAdvance)
    | .backwards => do some (← getPrevRecord pages fuel answer.1, .tryAdvance)
  | _ => some answer

def reported {κ : Type} (pages : Pages κ) (answer : BTreeCursor × SeekResult) : Option κ :=
  match answer.2 with
  | .notFound => none
  | .found | .tryAdvance => if answer.1.hasRecord then answer.1.record pages else none

end PgMicro.BTree
