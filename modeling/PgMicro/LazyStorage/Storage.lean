import PgMicro.Transition

/-!
# The lazy database storage

A page missing in the database file is read from the server, with the other pages of its segment
and, if asked for, the pages it points to. Such a read is a generator that is resumed until its
pages have arrived; the page states keep two operations on a page apart.
-/

namespace PgMicro.LazyStorage

open Function

def pageSize : Nat := 4096

inductive PageOperation
  | load
  | write

inductive PageLoadAction
  | load
  | wait

variable {P : Type}

structure PageInfo (P : Type) where
  operation : PageOperation
  loadResult : Option (Option P)
  loadWaits : Nat

/-- `PageStates`, from the zero-based page number. -/
abbrev PageStates (P : Type) : Type := Nat → Option (PageInfo P)

namespace PageStates

variable (s : PageStates P) (page : Nat)

def writeStart : Option (PageStates P) :=
  match s page with
  | some _ => none
  | none => some (update s page (some ⟨.write, none, 0⟩))

def writeEnd : PageStates P := update s page none

def loadStart : Option (PageStates P × PageLoadAction) :=
  match s page with
  | some ⟨.write, _, _⟩ => none
  | some ⟨.load, result, waits⟩ =>
    some (update s page (some ⟨.load, result, waits + 1⟩), .wait)
  | none => some (update s page (some ⟨.load, none, 0⟩), .load)

def loadEnd (result : Option P) : PageStates P :=
  match s page with
  | none => s -- a panic
  | some info =>
    if 0 < info.loadWaits then update s page (some { info with loadResult := some result })
    else update s page none

def loadResult (s : PageStates P) (page : Nat) : Option (Option P) :=
  (s page).bind PageInfo.loadResult

def waitEnd : PageStates P :=
  match s page with
  | none => s -- a panic
  | some info =>
    if info.loadWaits - 1 = 0 ∧ info.loadResult.isSome then update s page none
    else update s page (some { info with loadWaits := info.loadWaits - 1 })

end PageStates

structure PageStatesGuard (P : Type) where
  pageStates : PageStates P
  pagesToLoad : List Nat
  pagesToWait : List Nat

namespace PageStatesGuard

def loadStart (g : PageStatesGuard P) (page : Nat) :
    Option (PageStatesGuard P × PageLoadAction) :=
  match g.pageStates.loadStart page with
  | none => none
  | some (s, .load) => some (⟨s, g.pagesToLoad ++ [page], g.pagesToWait⟩, .load)
  | some (s, .wait) => some (⟨s, g.pagesToLoad, g.pagesToWait ++ [page]⟩, .wait)

def loadEnd (g : PageStatesGuard P) (page : Nat) (result : Option P) : PageStatesGuard P :=
  ⟨g.pageStates.loadEnd page result, g.pagesToLoad.filter (· ≠ page), g.pagesToWait⟩

def waitEnd (g : PageStatesGuard P) (page : Nat) : PageStatesGuard P :=
  ⟨g.pageStates.waitEnd page, g.pagesToLoad, g.pagesToWait.filter (· ≠ page)⟩

def drop (g : PageStatesGuard P) : PageStates P :=
  let g := g.pagesToWait.foldl waitEnd g
  (g.pagesToLoad.foldl (fun g page => g.loadEnd page none) g).pageStates

/-- The loop of `read_page` over a segment, and the one over the pages to prefetch. -/
def lockPages (g : PageStatesGuard P) (pages : List Nat) : PageStatesGuard P :=
  pages.foldl (fun g page =>
    match g.loadStart page with
    | some (g, .wait) => g.waitEnd page
    | some (g, .load) => g
    | none => g) g

end PageStatesGuard

/-- The clean and the dirty file, where a page that is `none` is a hole. -/
structure Files (P : Type) where
  clean : Nat → Option P
  dirty : Option (Nat → Option P)

namespace Files

/-- The page as `read_page` finds it in the files, if it need not be loaded. -/
def stored [DecidableEq P] (f : Files P) (page : Nat) : Option P :=
  match f.clean page, f.dirty.bind (· page) with
  | none, _ => none
  | some data, none => some data
  | some data, some check => if check = data then some data else none

/-- The page is written to the clean file and is a hole in the dirty file afterwards. -/
def put (f : Files P) (page : Nat) (data : P) : Files P :=
  ⟨update f.clean page (some data), f.dirty.map (update · page none)⟩

def truncate (f : Files P) (len : Nat) : Files P :=
  let cut (pages : Nat → Option P) (page : Nat) := if page < len then pages page else none
  ⟨cut f.clean, f.dirty.map cut⟩

end Files

/-- The options of the storage, the pages of the server revision, and the page pointers, one-based,
that `read_page` collects from a valid B-tree page. -/
structure Setup (P : Type) where
  segmentSize : Nat
  prefetch : Bool
  server : Nat → Option P
  pageRefs : P → Option (List Nat)

def Setup.segmentPages (c : Setup P) (page : Nat) : List Nat :=
  let segmentStart := page * pageSize / c.segmentSize * c.segmentSize
  let segmentEnd := segmentStart + c.segmentSize
  (List.range' (segmentStart / pageSize) (segmentEnd / pageSize - segmentStart / pageSize)).filter
    (· ≠ page)

/-- The server has answered: its pages are written to the files. -/
def lazyLoadPages (c : Setup P) (f : Files P) (g : PageStatesGuard P) :
    Files P × PageStatesGuard P :=
  g.pagesToLoad.foldl (fun (f, g) page =>
    match c.server page with
    | none => (f, g)
    | some data => (f.put page data, g.loadEnd page (some data))) (f, g)

/-- A generator of `read_page` where it yields, with the lists of its guard. -/
inductive Reader (P : Type)
  | created (page : Nat)
  | waiting (page : Nat) (toLoad toWait : List Nat)
  | loading (page : Nat) (toLoad toWait : List Nat)
  | prefetching (page : Nat) (data : P) (toLoad toWait : List Nat)

def Reader.toLoad : Reader P → List Nat
  | .created _ => []
  | .waiting _ toLoad _ | .loading _ toLoad _ | .prefetching _ _ toLoad _ => toLoad

/-- The storage with the generators of its reads, the last write of each page, and the read that
the last step completed. -/
structure Storage (P : Type) where
  files : Files P
  cleanFileSize : Nat
  pageStates : PageStates P
  readers : Nat → Option (Reader P)
  written : Nat → Option P
  completed : Option (Nat × Option P)

namespace Storage

def park (s : Storage P) (i : Nat) (g : PageStatesGuard P)
    (reader : List Nat → List Nat → Reader P) : Storage P :=
  { s with pageStates := g.pageStates
           readers := update s.readers i (some (reader g.pagesToLoad g.pagesToWait)) }

def finish (s : Storage P) (i : Nat) (g : PageStatesGuard P) (read : Option (Nat × Option P)) :
    Storage P :=
  { s with pageStates := g.drop, readers := update s.readers i none, completed := read }

/-- The end of `read_page`, from the data of the page on. -/
def prefetch (c : Setup P) (s : Storage P) (i page : Nat) (data : P) (g : PageStatesGuard P) :
    Storage P :=
  match if c.prefetch then c.pageRefs data else none with
  | none => s.finish i g (some (page, some data))
  | some pageRefs =>
    -- the pointers are one-based, and the pages of the guard are not
    let g := g.lockPages pageRefs
    match g.pagesToLoad with
    | [] => s.finish i g (some (page, some data))
    | _ :: _ => s.park i g (.prefetching page data)

def resume (c : Setup P) (s : Storage P) (i : Nat) : Reader P → Storage P
  | .created page =>
    match (PageStatesGuard.mk s.pageStates [] []).loadStart page with
    | none => s.finish i ⟨s.pageStates, [], []⟩ none
    | some (g, .wait) => s.park i g (.waiting page)
    | some (g, .load) => s.park i (g.lockPages (c.segmentPages page)) (.loading page)
  | .waiting page toLoad toWait =>
    let g := ⟨s.pageStates, toLoad, toWait⟩
    match s.pageStates.loadResult page with
    | none => s
    | some none => s.finish i g none
    | some (some data) => s.prefetch c i page data g
  | .loading page toLoad toWait =>
    let (files, g) := lazyLoadPages c s.files ⟨s.pageStates, toLoad, toWait⟩
    match c.server page with
    | none => { s with files }.finish i g (some (page, none))
    | some data => { s with files }.prefetch c i page data g
  | .prefetching page data toLoad toWait =>
    let (files, g) := lazyLoadPages c s.files ⟨s.pageStates, toLoad, toWait⟩
    { s with files }.finish i g (some (page, some data))

def write (s : Storage P) (page : Nat) (data : P) : Storage P :=
  { s with files := s.files.put page data
           cleanFileSize := max s.cleanFileSize (page + 1)
           written := update s.written page (some data) }

def writePage (s : Storage P) (page : Nat) (data : P) : Storage P :=
  match s.pageStates.writeStart page with
  | none => s
  | some pageStates => { s.write page data with pageStates := pageStates.writeEnd page }

def writePages (s : Storage P) (first : Nat) : List P → Storage P
  | [] => s
  | data :: buffers => (s.write first data).writePages (first + 1) buffers

inductive Action (P : Type)
  | readPage (i page : Nat)
  | resume (i : Nat)
  | writePage (page : Nat) (data : P)
  | writePages (first : Nat) (buffers : List P)
  | truncate (len : Nat)

def exec [DecidableEq P] (c : Setup P) (s : Storage P) (a : Action P) : Option (Storage P) :=
  let s := { s with completed := none }
  match a with
  | .readPage i page =>
    if s.cleanFileSize ≤ page then some { s with completed := some (page, none) }
    else match s.files.stored page, s.readers i with
      | some data, _ => some { s with completed := some (page, some data) }
      | none, none =>
        some { s with readers := update s.readers i (some (.created page)) }
      | none, some _ => none
  | .resume i => (s.readers i).map (s.resume c i)
  | .writePage page data => some (s.writePage page data)
  | .writePages first buffers => some (s.writePages first buffers)
  | .truncate len => some { s with files := s.files.truncate len, cleanFileSize := len }

end Storage

end PgMicro.LazyStorage
