import PgMicro.Transition
import Mathlib.Data.List.Nodup

/-!
# The page cache

The cache holds pages in a ring with a clock hand, and an estimate of how many may be evicted. The
flags of the pages change outside of it; the pager keeps the estimate up to date. A spill ends in
two steps: the completion of its write leaves the page clean, and the pager counts it afterwards.
-/

namespace PgMicro.Eviction

open Function

/-- A page object; equal handles are equal pointers. -/
structure Page where
  handle : Nat
  id : Nat
  isLoaded : Bool
  isLocked : Bool
  isDirty : Bool
  isSpilled : Bool
  /-- It was written by a spill that the pager has not finished, and has kept the tag of its WAL
  frame since. -/
  isWritten : Bool
  pinCount : Nat
  strongCount : Nat

structure PageCacheEntry where
  page : Page
  refBit : Nat

def refMax : Nat := 3

def PageCacheEntry.bumpRef (e : PageCacheEntry) : PageCacheEntry :=
  { e with refBit := min (e.refBit + 1) refMax }

def PageCacheEntry.decrementRef (e : PageCacheEntry) : PageCacheEntry :=
  { e with refBit := e.refBit - 1 }

/-- The queue is the ring of keys from the clock hand on, which is null on the empty one; `entry`
is read at these keys. -/
structure PageCache where
  capacity : Nat
  entry : Nat → PageCacheEntry
  queue : List Nat
  spillThreshold : Nat
  spillEnabled : Bool
  evictableCount : Nat

inductive CacheError where
  | internalError
  | locked (pgno : Nat)
  | dirty (pgno : Nat)
  | pinned (pgno : Nat)
  | full
  | keyExists

abbrev Result (α : Type) := Except CacheError α × PageCache

def Result.andThen {α β : Type} : Result α → (α → PageCache → Result β) → Result β
  | (.ok a, c), next => next a c
  | (.error e, c), _ => (.error e, c)

namespace Page

variable (p : Page)

def countedAsEvictable : Bool := p.id ≠ 1 && (!p.isDirty || p.isSpilled)

def evictable : Bool :=
  (!p.isDirty || p.isSpilled) && !p.isLocked && p.pinCount = 0 && p.id ≠ 1 && p.strongCount = 1

end Page

/-- The percentage is taken in `usize`. -/
def defaultSpillThreshold (capacity : Nat) : Nat := max (capacity * 90 % 2 ^ 64 / 100) 1

namespace PageCache

def newWithSpill (capacity : Nat) (spillEnabled : Bool) (entry : Nat → PageCacheEntry) :
    PageCache :=
  ⟨capacity, entry, [], defaultSpillThreshold capacity, spillEnabled, 0⟩

variable (c : PageCache) (key : Nat)

def page : Page := (c.entry key).page

def setEntry (e : PageCacheEntry) : PageCache := { c with entry := update c.entry key e }

def setPage (f : Page → Page) : PageCache :=
  if key ∈ c.queue then c.setEntry key { c.entry key with page := f (c.page key) } else c

def delete : Result Unit :=
  let p := c.page key
  if key ∉ c.queue then (.ok (), c)
  else if p.isLocked then (.error (.locked p.id), c)
  else if p.isDirty then (.error (.dirty p.id), c)
  else if p.pinCount ≠ 0 then (.error (.pinned p.id), c)
  else (.ok (), { c with
    queue := c.queue.erase key
    evictableCount := c.evictableCount - p.countedAsEvictable.toNat })

def sweep : Nat → PageCache → Result Nat
  | 0, c => (.error .full, c)
  | examinations + 1, c =>
    match c.queue with
    | [] => (.error .full, c)
    | key :: queue =>
      if (c.page key).evictable then
        if (c.entry key).refBit = 0 then (.ok key, { c with queue })
        else sweep examinations
          { c.setEntry key (c.entry key).decrementRef with queue := queue ++ [key] }
      else sweep examinations { c with queue := queue ++ [key] }

/-- The assertion on the page taken out is `counted_of_evictable`. -/
def evictOne : Result Unit :=
  if c.queue = [] then (.error .internalError, c)
  else (sweep (c.queue.length * (refMax + 1)) c).andThen fun _ c =>
    (.ok (), { c with evictableCount := c.evictableCount - 1 })

def evictMany (c : PageCache) : Nat → Result Unit
  | 0 => (.ok (), c)
  | n + 1 => c.evictOne.andThen fun _ c => evictMany c n

def makeRoomFor (n : Nat) : Result Unit :=
  if c.capacity < n then (.error .full, c) else c.evictMany (n - (c.capacity - c.queue.length))

def insertNew (p : Page) : Result Unit :=
  (c.makeRoomFor 1).andThen fun _ c => (.ok (), { c.setEntry key ⟨p, 0⟩ with
    queue := c.queue.take 1 ++ key :: c.queue.drop 1
    evictableCount := c.evictableCount + p.countedAsEvictable.toNat })

def recount (count : Nat) : Bool → Bool → Nat
  | true, false => count - 1
  | false, true => count + 1
  | _, _ => count

/-- `_insert`; `none` is the failed assertion that the page under the key is the same. -/
def insert (p : Page) (updateInPlace : Bool) : Option (Result Unit) :=
  let old := c.page key
  if key ∉ c.queue then some (c.insertNew key p)
  else if !old.isLoaded && !old.isLocked then
    some ((c.delete key).andThen fun _ c => c.insertNew key p)
  else
    let e := (c.entry key).bumpRef
    if updateInPlace then
      some (.ok (), { c.setEntry key { e with page := p } with
        evictableCount :=
          recount c.evictableCount old.countedAsEvictable p.countedAsEvictable })
    else if old.handle = p.handle then some (.error .keyExists, c.setEntry key e)
    else none

def get : Result (Option Page) :=
  let p := c.page key
  if key ∉ c.queue then (.ok none, c)
  else if !p.isLoaded && !p.isLocked then (c.delete key).andThen fun _ c => (.ok none, c)
  else (.ok (some p), c.setEntry key (c.entry key).bumpRef)

/-- Each eviction brings the loop one entry closer to the new capacity; `Err` is the pending
evictions. -/
def resize (newCap : Nat) : Result Unit :=
  if newCap = c.capacity then (.ok (), c)
  else (c.evictMany (c.queue.length - newCap)).andThen fun _ c =>
    (.ok (), { c with capacity := newCap, spillThreshold := defaultSpillThreshold newCap })

def clear (clearDirty : Bool) : Result Unit :=
  match c.queue.find? fun key => (c.page key).isDirty && !clearDirty with
  | some key => (.error (.dirty (c.page key).id), c)
  | none => (.ok (), { c with queue := [], evictableCount := 0 })

/-- The keys come in the order in which the map lists them. -/
def truncate (c : PageCache) : List Nat → Result Unit
  | [] => (.ok (), c)
  | key :: keys => (c.delete key).andThen fun _ c => truncate c keys

def notify (change : Nat → Nat) : PageCache :=
  if key ∈ c.queue ∧ (c.page key).id ≠ 1 then
    { c with evictableCount := change c.evictableCount }
  else c

def notifyPageDirty : PageCache := c.notify key (· - 1)

def notifyPageSpilled : PageCache := c.notify key (· + 1)

def addDirty : Option PageCache :=
  let p := c.page key
  if key ∈ c.queue ∧ p.isLoaded then
    let c := if p.isDirty then c else c.notifyPageDirty p.id
    some (c.setPage key ({ · with isDirty := true, isSpilled := false, isWritten := false }))
  else none

/-- The completion of the write of a spilled page. -/
def spillWritten (handle id : Nat) : PageCache :=
  c.setPage id fun p =>
    if p.handle = handle then { p with isDirty := false, isWritten := true } else p

/-- The end of a spill for a page that still has its tag. The cache may have got another page under
the same number. -/
def finishSpill (handle id : Nat) : PageCache :=
  if (c.page id).handle ≠ handle then c.notifyPageSpilled id
  else if (c.page id).isWritten then
    (c.notifyPageSpilled id).setPage id ({ · with isSpilled := true, isWritten := false })
  else c

def countEvictablePages : Nat := c.queue.countP fun key => (c.page key).evictable

def needsSpill : Bool :=
  let len := c.queue.length
  if len < c.spillThreshold || !c.spillEnabled then false
  else
    let neededEvictable := len - c.spillThreshold
    let emptySlots := c.capacity - len
    if neededEvictable ≤ c.evictableCount + emptySlots then false
    else c.countEvictablePages < neededEvictable

end PageCache

/-- A call of the cache or the pager, or a change of a page's flags by its users. -/
inductive Event where
  | insert (key : Nat) (p : Page)
  | upsertPage (key : Nat) (p : Page)
  | get (key : Nat)
  | delete (key : Nat)
  | makeRoomFor (n : Nat)
  | truncate (maxPageNum : Nat) (keys : List Nat)
  | resize (newCap : Nat)
  | clear (clearDirty : Bool)
  | addDirty (key : Nat)
  | spillWritten (handle id : Nat)
  | finishSpill (handle id : Nat)
  | clearDirty (key : Nat)
  | setSpillEnabled (enabled : Bool)
  | setFlags (key : Nat) (isLoaded isLocked : Bool) (pinCount strongCount : Nat)

def exec (c : PageCache) : Event → Option PageCache
  | .insert key p => (c.insert key p false).map (·.2)
  | .upsertPage key p => (c.insert key p true).map (·.2)
  | .get key => (c.get key).2
  | .delete key => (c.delete key).2
  | .makeRoomFor n => (c.makeRoomFor n).2
  | .truncate maxPageNum keys =>
    if keys.Perm (c.queue.filter (maxPageNum < ·)) then (c.truncate keys).2 else none
  | .resize newCap => (c.resize newCap).2
  | .clear clearDirty => (c.clear clearDirty).2
  | .addDirty key => c.addDirty key
  | .spillWritten handle id => c.spillWritten handle id
  | .finishSpill handle id => c.finishSpill handle id
  | .clearDirty key => c.setPage key ({ · with isDirty := false })
  | .setSpillEnabled enabled => some { c with spillEnabled := enabled }
  | .setFlags key isLoaded isLocked pinCount strongCount =>
    c.setPage key ({ · with isLoaded, isLocked, pinCount, strongCount })

end PgMicro.Eviction
