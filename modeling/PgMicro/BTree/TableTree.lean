import PgMicro.BTree.IntegrityCheck

/-!
# The tree in an image

What a table tree is, read off the pages without the check: its leaves in order with the dividers
beside them, the pages it reaches, and the bytes of a page as cells, freeblocks and fragments.
-/

namespace PgMicro.BTree

namespace BTreeCell

def row? : BTreeCell → Option Int
  | .tableLeaf rowid .. => some rowid
  | _ => none

def kid? : BTreeCell → Option (Nat × Option Int)
  | .tableInterior leftChildPage rowid => some (leftChildPage, some rowid)
  | .indexInterior leftChildPage .. => some (leftChildPage, none)
  | _ => none

def references : BTreeCell → List (PageCategory × Nat)
  | .tableInterior leftChildPage _ => [(.normal, leftChildPage)]
  | .tableLeaf _ _ _ overflow | .indexLeaf _ _ overflow => overflow.toList.map (.overflow, ·)
  | .indexInterior leftChildPage _ _ overflow =>
    (.normal, leftChildPage) :: overflow.toList.map (.overflow, ·)

end BTreeCell

namespace Page

variable (page : Page) (usableSpace : Nat)

def cellsBelow : Nat → Option (List BTreeCell)
  | 0 => some []
  | n + 1 => do return (← cellsBelow n) ++ [← page.cellGet n usableSpace]

def cells : Option (List BTreeCell) := do page.cellsBelow usableSpace (← page.cellCount)

def regionsBelow : Nat → Option (List (Nat × Nat))
  | 0 => some []
  | n + 1 => do
    let regions ← regionsBelow n
    let (start, len) ← page.cellGetRawRegion n usableSpace
    return regions ++ [(start, start + len)]

def regions : Option (List (Nat × Nat)) := do page.regionsBelow usableSpace (← page.cellCount)

inductive Freeblocks : Nat → List (Nat × Nat) → Prop
  | last : Freeblocks 0 []
  | block {pc next size : Nat} {blocks : List (Nat × Nat)} (hpc : pc ≠ 0)
      (hnext : page.readU16NoOffset pc = some next)
      (hsize : page.readU16NoOffset (pc + 2) = some size) (hblocks : Freeblocks next blocks) :
      Freeblocks pc ((pc, pc + size) :: blocks)

def Accounted : Prop :=
  ∃ contentArea fragments first regions blocks, page.cellContentArea = some contentArea ∧
    page.numFragFreeBytes = some fragments ∧ page.firstFreeblock = some first ∧
    page.regions usableSpace = some regions ∧ page.Freeblocks first blocks ∧
    ((regions ++ blocks).Pairwise fun a b => a.2 ≤ b.1 ∨ b.2 ≤ a.1) ∧
    (∀ range ∈ regions ++ blocks,
      contentArea ≤ range.1 ∧ range.1 ≤ range.2 ∧ range.2 ≤ usableSpace) ∧
    contentArea + ((regions ++ blocks).map fun range => range.2 - range.1).sum + fragments =
      usableSpace

def FreeblocksInside : Prop :=
  ∀ first blocks, page.firstFreeblock = some first → page.Freeblocks first blocks →
    ∀ block ∈ blocks, block.2 ≤ usableSpace

end Page

structure Leaf where
  pageIdx : Nat
  depth : Nat
  cellCount : Nat
  left : Option Int
  rows : List Int
  right : Option Int

mutual

inductive Fringe (image : Image) : Nat → Nat → Option Int → Option Int → List Leaf → Prop
  | leaf {pageIdx depth : Nat} {left right : Option Int} {page : Page} {cells : List BTreeCell}
      (hpage : image.page pageIdx = some page)
      (hcells : page.cells image.usableSpace = some cells)
      (hright : page.rightmostPointer = some none) :
      Fringe image pageIdx depth left right
        [⟨pageIdx, depth, cells.length, left, cells.filterMap BTreeCell.row?, right⟩]
  | interior {pageIdx depth rightmost : Nat} {left right : Option Int} {page : Page}
      {cells : List BTreeCell} {leaves : List Leaf} (hpage : image.page pageIdx = some page)
      (hcells : page.cells image.usableSpace = some cells)
      (hright : page.rightmostPointer = some (some rightmost))
      (hkids : Kids image (cells.filterMap BTreeCell.kid?) rightmost
        (depth + 1) left right leaves) :
      Fringe image pageIdx depth left right leaves

inductive Kids (image : Image) :
    List (Nat × Option Int) → Nat → Nat → Option Int → Option Int → List Leaf → Prop
  | rightmost {rightmost depth : Nat} {left right : Option Int} {leaves : List Leaf}
      (hlast : Fringe image rightmost depth left right leaves) :
      Kids image [] rightmost depth left right leaves
  | kid {kid rightmost depth : Nat} {divider left right : Option Int}
      {kids : List (Nat × Option Int)} {leaves rest : List Leaf}
      (hkid : Fringe image kid depth left (divider.or right) leaves)
      (hkids : Kids image kids rightmost depth (divider.or left) right rest) :
      Kids image ((kid, divider) :: kids) rightmost depth left right (leaves ++ rest)

end

mutual

inductive Reaches (image : Image) : PageCategory → Nat → List (PageCategory × Nat) → Prop
  | lastOverflow {pageIdx : Nat} {page : Page} (hpage : image.page pageIdx = some page)
      (hnext : page.readU32NoOffset 0 = some 0) :
      Reaches image .overflow pageIdx [(.overflow, pageIdx)]
  | overflow {pageIdx next : Nat} {page : Page} {pages : List (PageCategory × Nat)}
      (hpage : image.page pageIdx = some page) (hnext : page.readU32NoOffset 0 = some next)
      (hne : next ≠ 0) (hpages : Reaches image .overflow next pages) :
      Reaches image .overflow pageIdx ((.overflow, pageIdx) :: pages)
  | normal {pageIdx : Nat} {rightmost : Option Nat} {page : Page} {cells : List BTreeCell}
      {pages : List (PageCategory × Nat)} (hpage : image.page pageIdx = some page)
      (hcells : page.cells image.usableSpace = some cells)
      (hright : page.rightmostPointer = some rightmost)
      (hpages : ReachesAll image
        (cells.flatMap BTreeCell.references ++ rightmost.toList.map (.normal, ·)) pages) :
      Reaches image .normal pageIdx ((.normal, pageIdx) :: pages)

inductive ReachesAll (image : Image) :
    List (PageCategory × Nat) → List (PageCategory × Nat) → Prop
  | nil : ReachesAll image [] []
  | cons {category : PageCategory} {pageIdx : Nat}
      {references pages rest : List (PageCategory × Nat)}
      (hpages : Reaches image category pageIdx pages) (hrest : ReachesAll image references rest) :
      ReachesAll image ((category, pageIdx) :: references) (pages ++ rest)

end

/-- What a table tree is: the rowids ascend, also over its dividers, its leaves lie at one depth,
no page is reached twice, and every page accounts for its bytes. -/
structure SoundTree (image : Image) (leaves : List Leaf) (pages : List (PageCategory × Nat)) :
    Prop where
  ascending : (leaves.flatMap Leaf.rows).Pairwise (· < ·)
  dividers : ∀ leaf ∈ leaves, ∀ row ∈ leaf.rows,
    (∀ divider ∈ leaf.left, divider < row) ∧ ∀ divider ∈ leaf.right, row ≤ divider
  depths : ∀ leaf ∈ leaves, ∀ leaf' ∈ leaves,
    leaf.cellCount ≠ 0 → leaf'.cellCount ≠ 0 → leaf.depth = leaf'.depth
  once : (pages.map Prod.snd).Nodup
  accounted : ∀ pageIdx page, (PageCategory.normal, pageIdx) ∈ pages →
    image.page pageIdx = some page → page.Accounted image.usableSpace

/-- The comparisons that the check does not make: a rowid with the one before it in its leaf, the
first rowid of a leaf with what is to the left of the leaf, and the end of a freeblock with the end
of the page. -/
structure Unchecked (image : Image) (leaves : List Leaf) (pages : List (PageCategory × Nat)) :
    Prop where
  repeated : ∀ leaf ∈ leaves, leaf.rows.IsChain (· ≠ ·)
  lower : ∀ leaf ∈ leaves, ∀ row ∈ leaf.rows.head?, ∀ divider ∈ leaf.left, divider < row
  previous : ∀ before leaf after, leaves = before ++ leaf :: after → ∀ row ∈ leaf.rows.head?,
    ∀ last ∈ (before.flatMap Leaf.rows).getLast?, last < row
  freeblocks : ∀ pageIdx page, (PageCategory.normal, pageIdx) ∈ pages →
    image.page pageIdx = some page → page.FreeblocksInside image.usableSpace

end PgMicro.BTree
