import Mathlib.Data.Finset.Sort
import PgMicro.KeyedLog.Overlay
import PgMicro.Mvcc.Types
import PgMicro.Transition

/-!
# Savepoints of the pager

The part of `Pager` in `core/storage/pager.rs` that a write transaction uses up to its commit: the
page cache, the dirty pages, the subjournal and the savepoints. The WAL is the list of the frames
that the connection can find; the database file stays as it is. Offsets in the subjournal count its
entries, each of which has a page number and a page.
-/

namespace PgMicro.Paging

open KeyedLog Function
open Mvcc (SavepointResult)

structure Format (α : Type) where
  databaseSize : α → Nat
  setDatabaseSize : α → Nat → α
  newPage : α
  databaseSize_set : ∀ contents n, databaseSize (setDatabaseSize contents n) = n

/-- A page in the cache with its flags `PAGE_DIRTY` and `PAGE_SPILLED`. -/
structure Page (α : Type) where
  contents : α
  dirty : Bool
  spilled : Bool
  deriving DecidableEq, Repr

inductive SavepointKind where
  | statement
  | named (name : String) (startsTransaction : Bool)
  deriving DecidableEq, Repr

def SavepointKind.isNamed (name : String) : SavepointKind → Bool
  | .statement => false
  | .named name' _ => name' = name

def SavepointKind.startsTransaction : SavepointKind → Bool
  | .statement => false
  | .named _ startsTransaction => startsTransaction

structure Savepoint where
  kind : SavepointKind
  startOffset : Nat
  writeOffset : Nat
  pageBitmap : Finset Nat
  dbSize : Nat
  walMaxFrame : Nat
  deferredFkViolations : Int
  deriving DecidableEq

structure Pager (α : Type) where
  pageCache : Nat → Option (Page α)
  dirtyPages : Finset Nat
  wal : List (Nat × α)
  dbFile : Nat → α
  subjournal : List (Nat × α)
  savepoints : List Savepoint

def writePage {α : Type} (subjournal : List (Nat × α)) (offset : Nat) (entry : Nat × α) :
    List (Nat × α) :=
  subjournal.take offset ++ entry :: subjournal.drop (offset + 1)

namespace Savepoint

def new (kind : SavepointKind) (subjournalOffset dbSize walMaxFrame : Nat)
    (deferredFkViolations : Int) : Savepoint :=
  ⟨kind, subjournalOffset, subjournalOffset, ∅, dbSize, walMaxFrame, deferredFkViolations⟩

def fromSnapshot (savepoint : Savepoint) : Savepoint :=
  { savepoint with writeOffset := savepoint.startOffset, pageBitmap := ∅ }

end Savepoint

def setWriteOffset (offset : Nat) : List Savepoint → List Savepoint
  | [] => []
  | savepoint :: savepoints => { savepoint with writeOffset := offset } :: savepoints

def fromNamed (name : String) (savepoints : List Savepoint) : List Savepoint :=
  savepoints.dropWhile fun savepoint => ¬ savepoint.kind.isNamed name

/-- The loop of `rollback_to_snapshot` over the entries of the subjournal, with the pages restored
so far. A restored page is new, so that its flags are clear. -/
def replay {α : Type} (dbSize : Nat) : List (Nat × α) → Finset Nat →
    (Nat → Option (Page α)) → Nat → Option (Page α)
  | [], _, cache => cache
  | (page, contents) :: entries, rollbackBitset, cache =>
    if page ∈ rollbackBitset then replay dbSize entries rollbackBitset cache
    else if dbSize < page then replay dbSize entries rollbackBitset cache
    else replay dbSize entries (insert page rollbackBitset)
      (update cache page (some ⟨contents, false, false⟩))

namespace Pager

variable {α : Type} (s : Pager α) (page : Nat)

def readPageNoCache : α := overlay s.dbFile s.wal page

def image : α :=
  match s.pageCache page with
  | some cached => cached.contents
  | none => s.readPageNoCache page

def readPage : Pager α :=
  match s.pageCache page with
  | some _ => s
  | none => { s with
      pageCache := update s.pageCache page (some ⟨s.readPageNoCache page, false, false⟩) }

def subjournalPageIfRequired (contents : α) : Pager α :=
  match s.savepoints with
  | [] => s
  | current :: savepoints =>
    if current.dbSize < page then s
    else if page ∈ current.pageBitmap then s
    else { s with
      subjournal := writePage s.subjournal current.writeOffset (page, contents)
      savepoints := { current with
        pageBitmap := insert page current.pageBitmap
        writeOffset := current.writeOffset + 1 } :: savepoints }

def setDirty : Pager α :=
  { s with
    dirtyPages := insert page s.dirtyPages
    pageCache := update s.pageCache page
      ((s.pageCache page).map fun cached => { cached with dirty := true, spilled := false }) }

def addDirty (contents : α) : Pager α :=
  (s.subjournalPageIfRequired page contents).setDirty page

def write (contents : α) : Pager α :=
  { s with
    pageCache := update s.pageCache page
      ((s.pageCache page).map fun cached => { cached with contents }) }

def modify (contents : α) : Pager α :=
  let s := s.readPage page
  (s.addDirty page (s.image page)).write page contents

def insertNewPage (format : Format α) (s : Pager α) (page : Nat) : Pager α :=
  let s := s.addDirty page format.newPage
  { s with
    pageCache := update s.pageCache page (some ⟨format.newPage, true, false⟩) }

/-- `allocate_page` when the freelist is empty; a page from the freelist is had by changing pages.
A pointer map page and the page of the pending byte may come before the page that is asked for. -/
def allocatePage (format : Format α) (s : Pager α) (extra : Nat) : Pager α :=
  let s := s.readPage 1
  let s := s.addDirty 1 (s.image 1)
  let dbSize := format.databaseSize (s.image 1)
  let s := (List.range' (dbSize + 1) (extra + 1)).foldl (insertNewPage format) s
  s.write 1 (format.setDatabaseSize (s.image 1) (dbSize + extra + 1))

/-- `PageCache::evictable`, as far as the flags go. -/
def Evictable : Prop :=
  ∃ cached ∈ s.pageCache page, (cached.dirty = false ∨ cached.spilled = true) ∧ page ≠ 1

instance (s : Pager α) : DecidablePred s.Evictable := fun page =>
  inferInstanceAs (Decidable (∃ cached ∈ s.pageCache page, _ ∧ _))

/-- `PageCache::spillable`, as far as the flags go. -/
def Spillable : Prop :=
  ∃ cached ∈ s.pageCache page, cached.dirty = true ∧ cached.spilled = false ∧ page ≠ 1

instance (s : Pager α) : DecidablePred s.Spillable := fun page =>
  inferInstanceAs (Decidable (∃ cached ∈ s.pageCache page, _ ∧ _ ∧ _))

def evict : Pager α :=
  { s with pageCache := update s.pageCache page none }

def subjournalCached : Pager α :=
  s.subjournalPageIfRequired page (s.image page)

/-- `try_spill_dirty_pages` for the pages that `collect_spillable_pages` gives. The end of the write
clears the dirty flag of a page, which stays in `dirtyPages`. -/
def spill (pages : List Nat) : Pager α :=
  let frames := pages.map fun page => (page, s.image page)
  let s := pages.foldl subjournalCached s
  { s with
    wal := s.wal ++ frames
    pageCache := fun page =>
      if page ∈ pages then
        (s.pageCache page).map fun cached => { cached with dirty := false, spilled := true }
      else s.pageCache page }

/-- `open_savepoint` and `open_named_savepoint`; the size is read from the header. -/
def openSavepoint (format : Format α) (s : Pager α) (kind : SavepointKind)
    (deferredFkViolations : Int) : Pager α :=
  let offset := (s.savepoints.head?.map Savepoint.writeOffset).getD 0
  { s with
    savepoints := .new kind offset (format.databaseSize (s.image 1)) s.wal.length
      deferredFkViolations :: s.savepoints }

def continueAt (offset : Nat) (savepoints : List Savepoint) : Pager α :=
  match savepoints with
  | [] => { s with savepoints := [], subjournal := [] }
  | _ :: _ => { s with savepoints := setWriteOffset offset savepoints }

def releaseSavepoint : Pager α :=
  match s.savepoints with
  | [] => s
  | savepoint :: savepoints =>
    if savepoint.kind = .statement then s.continueAt savepoint.writeOffset savepoints else s

def journalEndOffset : Nat :=
  (s.savepoints.head?.map Savepoint.writeOffset).getD 0

def releaseNamedSavepoint (name : String) : SavepointResult × Pager α :=
  match fromNamed name s.savepoints with
  | [] => (.notFound, s)
  | target :: savepoints =>
    if target.kind.startsTransaction ∧ savepoints = [] then (.commit, s)
    else (.release, s.continueAt s.journalEndOffset savepoints)

def rollbackToSnapshot (savepoint : Savepoint) (journalEndOffset : Nat) : Pager α :=
  let entries := (s.subjournal.drop savepoint.startOffset).take
    (journalEndOffset - savepoint.startOffset)
  let cache := replay savepoint.dbSize entries ∅ s.pageCache
  { s with
    -- the pages beyond the size are cleared and then dropped from the cache
    pageCache := fun page => if savepoint.dbSize < page then none else cache page
    dirtyPages := s.dirtyPages.filter (· ≤ savepoint.dbSize)
    subjournal := s.subjournal.take savepoint.startOffset
    wal := s.wal.take savepoint.walMaxFrame }

def rollbackToNewestSavepoint : Bool × Pager α :=
  match s.savepoints with
  | [] => (false, s)
  | savepoint :: savepoints =>
    if savepoint.kind = .statement then
      (true, { s.rollbackToSnapshot savepoint savepoint.writeOffset with
        savepoints := setWriteOffset savepoint.startOffset savepoints })
    else (false, s)

def rollbackToNamedSavepoint (name : String) : Option Int × Pager α :=
  match fromNamed name s.savepoints with
  | [] => (none, s)
  | target :: savepoints =>
    (some target.deferredFkViolations, { s.rollbackToSnapshot target s.journalEndOffset with
      savepoints := target.fromSnapshot :: setWriteOffset target.startOffset savepoints })

/-- The pages that `commit_dirty_pages` collects. -/
def collectedPages : List (Nat × α) :=
  (s.dirtyPages.sort (· ≤ ·)).map fun page => (page, s.image page)

end Pager

inductive Action (α : Type) where
  | readPage (page : Nat)
  | modify (page : Nat) (contents : α)
  | allocatePage (extra : Nat)
  | evict (page : Nat)
  | spill (pages : List Nat)
  | openSavepoint (kind : SavepointKind) (deferredFkViolations : Int)
  | releaseSavepoint
  | releaseNamedSavepoint (name : String)
  | rollbackToNewestSavepoint
  | rollbackToNamedSavepoint (name : String)

def Pager.exec {α : Type} (format : Format α) (s : Pager α) : Action α → Option (Pager α)
  | .readPage page =>
    if page ≤ format.databaseSize (s.image 1) then some (s.readPage page) else none
  | .modify page contents =>
    let dbSize := format.databaseSize (s.image 1)
    if page ≤ dbSize ∧ (page = 1 → format.databaseSize contents = dbSize) then
      some (s.modify page contents)
    else none
  | .allocatePage extra => some (s.allocatePage format extra)
  | .evict page => if s.Evictable page then some (s.evict page) else none
  | .spill pages =>
    if pages.Pairwise (· < ·) ∧ ∀ page ∈ pages, s.Spillable page then some (s.spill pages) else none
  | .openSavepoint kind deferredFkViolations =>
    some (s.openSavepoint format kind deferredFkViolations)
  | .releaseSavepoint => some s.releaseSavepoint
  | .releaseNamedSavepoint name => some (s.releaseNamedSavepoint name).2
  | .rollbackToNewestSavepoint => some s.rollbackToNewestSavepoint.2
  | .rollbackToNamedSavepoint name => some (s.rollbackToNamedSavepoint name).2

end PgMicro.Paging
