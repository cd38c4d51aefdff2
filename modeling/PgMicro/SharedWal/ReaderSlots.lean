import Mathlib.Data.BitVec
import PgMicro.Transition

/-!
# Reader slots in shared memory

`register_reader`, `unregister_reader`, `reclaim_stale_reader_slots` and
`min_active_reader_frame` of `core/storage/shared_wal_coordination.rs`, with the byte locks of
Linux. Every load, store, compare-exchange and lock call is one step of its process, which makes one
call at a time and may die at any step.
-/

namespace PgMicro.SharedWal

open Function

def unusedReaderFrame : Nat := 2 ^ 64 - 1

def unownedLock : Nat := 0

structure SharedReaderSlot where
  slotIndex : Nat
  maxFrame : Nat
  owner : Nat
  deriving DecidableEq, Repr

/-- What a call of `register_reader` was given, and whether it retries. -/
structure Registration where
  owner : Nat
  maxFrame : Nat
  retry : Bool
  deriving DecidableEq, Repr

inductive Probing where
  /-- `reclaim_stale_reader_slots`, called by `register_reader`. -/
  | reclaim (reg : Registration)
  /-- `min_active_reader_frame`: the number of registrations when it began, and the smallest
  frame so far. -/
  | minActive (since : Nat) (smallest : Option Nat)
  deriving DecidableEq, Repr

inductive Clearing where
  | frame
  | owner
  | bitmap
  | unlock
  deriving DecidableEq, Repr

/-- `min_active_reader_frame` sees the frame of a reader. -/
def Probing.see : Probing → Nat → Probing
  | .reclaim reg, _ => .reclaim reg
  | .minActive since none, frame => .minActive since (some frame)
  | .minActive since (some smallest), frame => .minActive since (some (min smallest frame))

/-- An error of the lock call counts as a lock that is held; `min_active_reader_frame` panics,
which is left to the death of a process. -/
def Probing.mayFail : Probing → Bool
  | .reclaim _ => true
  | .minActive _ _ => false

inductive Control where
  | idle
  /-- `register_reader` at a slot. -/
  | scan (reg : Registration) (slot : Nat)
  /-- The word of the bitmap was loaded. -/
  | claim (reg : Registration) (slot : Nat) (current : BitVec 64)
  /-- The bit was cleared. -/
  | lock (reg : Registration) (slot : Nat)
  /-- The byte lock is held by another. -/
  | unclaim (reg : Registration) (slot : Nat)
  | storeOwner (reg : Registration) (slot : Nat)
  | storeFrame (reg : Registration) (slot : Nat)
  | probe (probing : Probing) (slot : Nat)
  /-- The slot seems to be in use, with this frame in `min_active_reader_frame`. -/
  | probeLock (probing : Probing) (slot : Nat) (frame : Nat)
  | reclaim (probing : Probing) (slot : Nat) (clearing : Clearing)
  | minReturned (since : Nat) (smallest : Option Nat)
  /-- `unregister_reader`, before its assertions. -/
  | checkOwner (slot : SharedReaderSlot)
  | unlock (slot : SharedReaderSlot)
  /-- `unregister_reader` after the unlock. -/
  | release (slot : Nat) (clearing : Clearing)
  | failed
  deriving DecidableEq, Repr

structure Process where
  alive : Bool
  readerLocks : Nat → Nat
  control : Control
  /-- The slots that `register_reader` returned and that are not being unregistered, with the
  number of registrations before. -/
  held : List (SharedReaderSlot × Nat)

/-- The shared memory, the byte locks and `k` processes. -/
structure Table (k : Nat) where
  readerBitmap : Nat → BitVec 64
  readerFrames : Nat → Nat
  readerOwners : Nat → Nat
  holder : Nat → Option (Fin k)
  processes : Fin k → Process
  registrations : Nat

namespace Table

variable {k : Nat} (t : Table k) (p : Fin k)

def goTo (control : Control) : Table k :=
  { t with processes := update t.processes p { t.processes p with control } }

def storeFrame (slot frame : Nat) : Table k :=
  { t with readerFrames := update t.readerFrames slot frame }

def storeOwner (slot owner : Nat) : Table k :=
  { t with readerOwners := update t.readerOwners slot owner }

def bitOf (slot : Nat) : BitVec 64 := BitVec.twoPow 64 (slot % 64)

def setWord (word : Nat) (bits : BitVec 64) : Table k :=
  { t with readerBitmap := update t.readerBitmap word bits }

def setBit (slot : Nat) : Table k :=
  t.setWord (slot / 64) (t.readerBitmap (slot / 64) ||| bitOf slot)

def CanLock (slot : Nat) : Prop :=
  t.holder slot = none ∨ t.holder slot = some p

instance (t : Table k) (p : Fin k) (slot : Nat) : Decidable (t.CanLock p slot) :=
  inferInstanceAs (Decidable (_ ∨ _))

def lockByte (slot : Nat) : Table k :=
  { t with holder := update t.holder slot (some p) }

def unlockByte (slot : Nat) : Table k :=
  { t with
    holder := update t.holder slot
      (if t.holder slot = some p then none else t.holder slot) }

def setReaderLocks (slot count : Nat) : Table k :=
  { t with processes := update t.processes p { t.processes p with
      readerLocks := update (t.processes p).readerLocks slot count } }

def hold (slot : SharedReaderSlot) : Table k :=
  { t with
    processes := update t.processes p { t.processes p with
      held := (slot, t.registrations) :: (t.processes p).held }
    registrations := t.registrations + 1 }

/-- The next step of the call that the process is making, where `n` is `reader_slot_count`. A
compare-exchange or a lock call may fail although it need not. -/
def step (n : Nat) (t : Table k) (p : Fin k) (spurious : Bool) : Option (Table k) :=
  match (t.processes p).control with
  | .idle | .failed => none
  | .scan reg slot =>
    if n ≤ slot then
      some (t.goTo p (if reg.retry then .idle else .probe (.reclaim { reg with retry := true }) 0))
    else if 0 < (t.processes p).readerLocks slot then some (t.goTo p (.scan reg (slot + 1)))
    else some (t.goTo p (.claim reg slot (t.readerBitmap (slot / 64))))
  | .claim reg slot current =>
    if current &&& bitOf slot = 0 then some (t.goTo p (.scan reg (slot + 1)))
    else if t.readerBitmap (slot / 64) = current ∧ ¬ spurious then
      some ((t.setWord (slot / 64) (current &&& ~~~ bitOf slot)).goTo p (.lock reg slot))
    else some (t.goTo p (.claim reg slot (t.readerBitmap (slot / 64))))
  | .lock reg slot =>
    if t.CanLock p slot ∧ ¬ spurious then
      some (((t.lockByte p slot).setReaderLocks p slot
        ((t.processes p).readerLocks slot + 1)).goTo p (.storeOwner reg slot))
    else some (t.goTo p (.unclaim reg slot))
  | .unclaim reg slot => some ((t.setBit slot).goTo p (.scan reg (slot + 1)))
  | .storeOwner reg slot => some ((t.storeOwner slot reg.owner).goTo p (.storeFrame reg slot))
  | .storeFrame reg slot =>
    some (((t.storeFrame slot reg.maxFrame).goTo p .idle).hold p ⟨slot, reg.maxFrame, reg.owner⟩)
  | .probe (.reclaim reg) slot =>
    if n ≤ slot then some (t.goTo p (.scan reg 0))
    else if t.readerBitmap (slot / 64) &&& bitOf slot = 0 ∧
        (t.processes p).readerLocks slot = 0 then
      some (t.goTo p (.probeLock (.reclaim reg) slot unusedReaderFrame))
    else some (t.goTo p (.probe (.reclaim reg) (slot + 1)))
  | .probe (.minActive since smallest) slot =>
    if n ≤ slot then some (t.goTo p (.minReturned since smallest))
    else if t.readerFrames slot = unusedReaderFrame then
      some (t.goTo p (.probe (.minActive since smallest) (slot + 1)))
    else if 0 < (t.processes p).readerLocks slot then
      some (t.goTo p (.probe ((Probing.minActive since smallest).see (t.readerFrames slot))
        (slot + 1)))
    else some (t.goTo p (.probeLock (.minActive since smallest) slot (t.readerFrames slot)))
  | .probeLock probing slot frame =>
    if t.CanLock p slot ∧ ¬ (spurious ∧ probing.mayFail) then
      some ((t.lockByte p slot).goTo p (.reclaim probing slot .frame))
    else some (t.goTo p (.probe (probing.see frame) (slot + 1)))
  | .reclaim probing slot .frame =>
    some ((t.storeFrame slot unusedReaderFrame).goTo p (.reclaim probing slot .owner))
  | .reclaim probing slot .owner =>
    some ((t.storeOwner slot unownedLock).goTo p (.reclaim probing slot .bitmap))
  | .reclaim probing slot .bitmap =>
    some ((t.setBit slot).goTo p (.reclaim probing slot .unlock))
  | .reclaim probing slot .unlock =>
    some ((t.unlockByte p slot).goTo p (.probe probing (slot + 1)))
  | .minReturned _ _ => some (t.goTo p .idle)
  | .checkOwner slot =>
    if 0 < (t.processes p).readerLocks slot.slotIndex ∧
        t.readerOwners slot.slotIndex = slot.owner then some (t.goTo p (.unlock slot))
    else some (t.goTo p .failed)
  | .unlock slot =>
    some (((t.unlockByte p slot.slotIndex).setReaderLocks p slot.slotIndex
      ((t.processes p).readerLocks slot.slotIndex - 1)).goTo p (.release slot.slotIndex .frame))
  | .release slot .frame =>
    some ((t.storeFrame slot unusedReaderFrame).goTo p (.release slot .owner))
  | .release slot .owner => some ((t.storeOwner slot unownedLock).goTo p (.release slot .bitmap))
  | .release slot .bitmap => some ((t.setBit slot).goTo p (.release slot .unlock))
  | .release _ .unlock => some (t.goTo p .idle)

def die : Table k :=
  { t with
    holder := fun slot => if t.holder slot = some p then none else t.holder slot
    processes := update t.processes p { t.processes p with alive := false } }

def startUnregister (entry : SharedReaderSlot × Nat) : Table k :=
  { t with processes := update t.processes p { t.processes p with
      held := (t.processes p).held.erase entry
      control := .checkOwner entry.1 } }

end Table

inductive Action (k : Nat) where
  | register (p : Fin k) (owner maxFrame : Nat)
  | unregister (p : Fin k) (entry : SharedReaderSlot × Nat)
  | minActive (p : Fin k)
  | step (p : Fin k) (spurious : Bool)
  | die (p : Fin k)
  deriving DecidableEq, Repr

def Action.process {k : Nat} : Action k → Fin k
  | .register p _ _ | .unregister p _ | .minActive p | .step p _ | .die p => p

namespace Table

variable {k : Nat}

def exec (n : Nat) (t : Table k) (a : Action k) : Option (Table k) :=
  if (t.processes a.process).alive then
    match a with
    | .register p owner maxFrame =>
      if (t.processes p).control = .idle ∧ maxFrame < unusedReaderFrame then
        some (t.goTo p (.scan ⟨owner, maxFrame, false⟩ 0))
      else none
    | .unregister p entry =>
      if (t.processes p).control = .idle ∧ entry ∈ (t.processes p).held then
        some (t.startUnregister p entry)
      else none
    | .minActive p =>
      if (t.processes p).control = .idle then
        some (t.goTo p (.probe (.minActive t.registrations none) 0))
      else none
    | .step p spurious => t.step n p spurious
    | .die p => some (t.die p)
  else none

end Table

end PgMicro.SharedWal
