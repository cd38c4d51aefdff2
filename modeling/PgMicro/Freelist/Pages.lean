import Mathlib.Data.Finset.Basic
import PgMicro.Transition

/-!
# Freeing and allocating pages

`Pager::free_page` and `Pager::allocate_page` of `core/storage/pager.rs` with auto-vacuum off. One
arm of the loop of such a state machine is one step, and between two steps its caller may wait for a
page. A page is its big-endian `u32` words: word 0 of a trunk is the next trunk, word 1 the number
of its leaves, and the leaves follow.
-/

namespace PgMicro.Freelist

structure Config where
  pageSize : Nat
  usableSpace : Nat

def Config.pendingBytePageId (cfg : Config) : Option Nat :=
  if cfg.pageSize = 0 then none else some (0x40000000 / cfg.pageSize + 1)

def Config.maxFreeListEntries (cfg : Config) : Nat := cfg.usableSpace / 4 - 2

structure Header where
  databaseSize : Nat
  freelistTrunkPage : Nat
  freelistPages : Nat
  deriving DecidableEq

abbrev Page := Nat → Nat

namespace Page

def zero : Page := fun _ => 0

def nextTrunk (page : Page) : Nat := page 0

def leafCount (page : Page) : Nat := page 1

def leaf (page : Page) (i : Nat) : Nat := page (2 + i)

def leaves (page : Page) : List Nat := (List.range page.leafCount).map page.leaf

def setNextTrunk (page : Page) (next : Nat) : Page := Function.update page 0 next

def setLeafCount (page : Page) (count : Nat) : Page := Function.update page 1 count

def setLeaf (page : Page) (i pageId : Nat) : Page := Function.update page (2 + i) pageId

/-- `copy_within`: the leaves behind the first move to the front. -/
def shiftLeaves (page : Page) (remaining : Nat) : Page := fun k =>
  if 2 ≤ k ∧ k < 2 + remaining then page (k + 1) else page k

end Page

inductive FreePageState where
  | start
  | addToTrunk
  | newTrunk
  deriving DecidableEq

inductive AllocatePageState where
  | start
  | searchAvailableFreeListLeaf (trunkPage : Nat)
  | reuseFreelistLeaf (trunkPage leafPage numberOfFreelistLeaves : Nat)
  | allocateNewPage (currentDbSize : Nat)
  deriving DecidableEq

inductive LimboError where
  | corrupt (message : String)
  | databaseFull (message : String)
  deriving DecidableEq

structure Pager where
  header : Header
  pages : Nat → Page
  freePageState : FreePageState
  allocatePageState : AllocatePageState

inductive Answer where
  | again
  | freed
  | allocated (pageId : Nat)
  | error (e : LimboError)
  deriving DecidableEq

namespace Pager

def setPage (p : Pager) (pageId : Nat) (page : Page) : Pager :=
  { p with pages := Function.update p.pages pageId page }

def freePage (cfg : Config) (p : Pager) (pageId : Nat) : Pager × Answer :=
  match p.freePageState with
  | .start =>
    if pageId < 2 ∨ pageId > p.header.databaseSize then
      (p, .error (.corrupt ("Invalid page number " ++ toString pageId ++ " for free operation")))
    else
      ({ p with
        header.freelistPages := p.header.freelistPages + 1
        freePageState := if p.header.freelistTrunkPage ≠ 0 then .addToTrunk else .newTrunk },
        .again)
  | .addToTrunk =>
    let trunk := p.pages p.header.freelistTrunkPage
    if trunk.leafCount < cfg.maxFreeListEntries then
      let trunk' := (trunk.setLeafCount (trunk.leafCount + 1)).setLeaf trunk.leafCount pageId
      ({ p.setPage p.header.freelistTrunkPage trunk' with freePageState := .start }, .freed)
    else ({ p with freePageState := .newTrunk }, .again)
  | .newTrunk =>
    let page := ((p.pages pageId).setNextTrunk p.header.freelistTrunkPage).setLeafCount 0
    ({ p.setPage pageId page with
      header.freelistTrunkPage := pageId
      freePageState := .start }, .freed)

/-- What `allocate_page` finds besides the database: the page limit, which pages the cache holds,
and the buffers it gets for new pages. -/
structure Surroundings where
  maxPageCount : Nat
  cached : Nat → Bool
  buffer : Page

/-- The number of the new page: `u32` arithmetic, past the pending-byte page. -/
def newPageId (cfg : Config) (currentDbSize : Nat) : Nat :=
  let newDbSize := (currentDbSize + 1) % 2 ^ 32
  if some newDbSize = cfg.pendingBytePageId then (newDbSize + 1) % 2 ^ 32 else newDbSize

/-- One arm of `allocate_page`; `none` where inserting a page that the cache holds panics. An
error leaves the state machine where it is. -/
def allocatePage (cfg : Config) (p : Pager) (env : Surroundings) : Option (Pager × Answer) :=
  match p.allocatePageState with
  | .start =>
    if p.header.freelistTrunkPage = 0 then
      some ({ p with allocatePageState := .allocateNewPage p.header.databaseSize }, .again)
    else
      some ({ p with
        allocatePageState := .searchAvailableFreeListLeaf p.header.freelistTrunkPage }, .again)
  | .searchAvailableFreeListLeaf trunkPage =>
    let trunk := p.pages trunkPage
    if trunk.leafCount ≠ 0 then
      some ({ p with
        allocatePageState := .reuseFreelistLeaf trunkPage (trunk.leaf 0) trunk.leafCount },
        .again)
    else
      some ({ p.setPage trunkPage .zero with
        header := { p.header with
          freelistTrunkPage := trunk.nextTrunk
          freelistPages := p.header.freelistPages - 1 }
        allocatePageState := .start }, .allocated trunkPage)
  | .reuseFreelistLeaf trunkPage leafPage numberOfFreelistLeaves =>
    let remaining := numberOfFreelistLeaves - 1
    let p := p.setPage leafPage .zero
    let trunk := ((p.pages trunkPage).shiftLeaves remaining).setLeafCount remaining
    some ({ p.setPage trunkPage trunk with
      header.freelistPages := p.header.freelistPages - 1
      allocatePageState := .start }, .allocated leafPage)
  | .allocateNewPage currentDbSize =>
    let first := (currentDbSize + 1) % 2 ^ 32
    let newDbSize := newPageId cfg currentDbSize
    if some first = cfg.pendingBytePageId ∧ env.cached first = true then none
    else
      let p := if some first = cfg.pendingBytePageId then p.setPage first env.buffer else p
      if newDbSize > env.maxPageCount then
        some (p, .error (.databaseFull "database or disk is full"))
      else if env.cached newDbSize = true then none
      else
        some ({ p.setPage newDbSize env.buffer with
          header.databaseSize := newDbSize
          allocatePageState := .start }, .allocated newDbSize)

end Pager

structure Pool where
  free : Finset Nat
  allocated : Finset Nat

def Pool.freePage (pool : Pool) (pageId : Nat) : Pool :=
  ⟨insert pageId pool.free, pool.allocated.erase pageId⟩

def Pool.allocatePage (pool : Pool) (pageId : Nat) : Pool :=
  ⟨pool.free.erase pageId, insert pageId pool.allocated⟩

inductive Call where
  | freePage (pageId : Nat)
  | allocatePage
  deriving DecidableEq

structure World where
  pager : Pager
  running : Option Call
  pool : Pool

inductive Action where
  | freePage (pageId : Nat)
  | allocatePage (env : Pager.Surroundings)

def Action.call : Action → Call
  | .freePage pageId => .freePage pageId
  | .allocatePage _ => .allocatePage

def World.receive (w : World) (pager : Pager) (call : Call) : Answer → World
  | .again => { w with pager, running := some call }
  | .freed =>
    match call with
    | .freePage pageId => { pager, running := none, pool := w.pool.freePage pageId }
    | .allocatePage => { w with pager, running := none }
  | .allocated pageId => { pager, running := none, pool := w.pool.allocatePage pageId }
  | .error _ => { w with pager, running := none }

def World.poll (cfg : Config) (w : World) (a : Action) : Option (World × Answer) :=
  if w.running = none ∨ w.running = some a.call then
    match a with
    | .freePage pageId =>
      let (pager, answer) := w.pager.freePage cfg pageId
      some (w.receive pager a.call answer, answer)
    | .allocatePage env =>
      (w.pager.allocatePage cfg env).map fun (pager, answer) =>
        (w.receive pager a.call answer, answer)
  else none

def World.exec (cfg : Config) (w : World) (a : Action) : Option World :=
  (w.poll cfg a).map Prod.fst

end PgMicro.Freelist
