import PgMicro.Mvcc.Frames
import PgMicro.Mvcc.Isolation

/-!
# Allocation of rowids

`op_new_rowid` on one table, its allocator and its lock, beside everything else that the store does.
The compare-exchange loops of the allocator are one step each, the iteration that succeeds.
-/

namespace PgMicro.Mvcc

open Function Option MvStore World Transition

variable {κ η : Type} {r : Except LimboError Bool} {id : RowID κ}

/-- `i64::MAX`. -/
def maxRowid : Int := 2 ^ 63 - 1

namespace RowidAllocator

def getNextRowid (a : RowidAllocator) : Option (RowidAllocator × Int × Option Int) :=
  if a.maxRowid = Mvcc.maxRowid then none
  else
    some ({ a with maxRowid := a.maxRowid + 1 }, a.maxRowid + 1,
      if a.maxRowid = 0 then none else some a.maxRowid)

/-- `initialize`. -/
def initializeTo (a : RowidAllocator) (rowid : Option Int) : RowidAllocator :=
  { a with maxRowid := rowid.getD 0, initialized := true }

end RowidAllocator

/-- Where a transaction stands in `op_new_rowid`; `initialized` lies between
`initialize_max_rowid` and `allocate_next_rowid`. -/
inductive OpNewRowidState where
  | seekingToLast (mvccAlreadyInitialized : Bool)
  | readingMaxRowid (currentMax : Option Int)
  | initialized
  | generatingRandom (attempts : Nat)
  | verifyingCandidate (attempts : Nat) (candidate : Int)
  | goNext
  deriving DecidableEq, Repr

/-- The value that `initialize_max_rowid` is about to store: no row counts as 0. -/
def OpNewRowidState.readMax : OpNewRowidState → Option Int
  | .readingMaxRowid currentMax => some (currentMax.getD 0)
  | _ => none

inductive RowidEvent where
  | inserted (rowid : Int)
  | allocated (rowid : Int)
  deriving DecidableEq, Repr

def RowidEvent.rowid : RowidEvent → Int
  | .inserted rowid | .allocated rowid => rowid

structure RowidWorld (κ η : Type) where
  world : World κ η
  /-- Who holds the lock of the allocator; this is also its `creating_new_rowid`. -/
  lockedBy : Option TxID
  op : TxID → Option OpNewRowidState
  /-- Ghost: the insertions and allocations so far, newest first. -/
  events : List RowidEvent

inductive RowidAction (κ η : Type) where
  | world (a : Action κ η)
  | startNewRowid (txId : TxID)
  | seekToLast (txId : TxID) (currentMax : Option Int)
  | initializeMaxRowid (txId : TxID)
  | allocateNextRowid (txId : TxID)
  | generateRandom (txId : TxID) (random : Int)
  | verifyCandidate (txId : TxID)
  | goNext (txId : TxID)

def RowID.rowidIn (table : MVTableId) (id : RowID κ) : Option Int :=
  match id.rowId with
  | .int rowid => if id.tableId = table then some rowid else none
  | .record _ => none

def Action.insertedRowid (table : MVTableId) (w w' : World κ η) : Action κ η → Option Int
  | .insert _ row | .update _ row =>
    if w.store.versionIdCounter < w'.store.versionIdCounter then row.id.rowidIn table else none
  | _ => none

def World.sees [DecidableEq κ] (w : World κ η) (txId : TxID) (id : RowID κ) : Bool :=
  match w.store.readFromTableOrIndex txId id with
  | .ok (_, some _) => true
  | .ok (s, none) =>
    (w.btree id).isSome &&
      match s.queryBtreeVersionIsValid txId id with
      | .ok (_, valid) => valid
      | .error _ => false
  | .error _ => false

theorem World.sees_of_nil [DecidableEq κ] {w : World κ η} {txId : TxID}
    (hrows : w.store.rows id = []) (hbtree : w.btree id = none) : w.sees txId id = false := by
  unfold sees readFromTableOrIndex
  split
  next hread =>
    split at hread
    · cases hread
    · simp only [hrows, List.reverse_nil] at hread
      cases hread
  · simp [hbtree]
  · rfl

/-- What `seek_to_last` and `rowid` find. -/
def World.IsMaxVisible [DecidableEq κ] (w : World κ η) (table : MVTableId) (txId : TxID) :
    Option Int → Prop
  | none => ∀ rowid, w.sees txId ⟨table, .int rowid⟩ = false
  | some max => w.sees txId ⟨table, .int max⟩ = true ∧
      ∀ rowid, max < rowid → w.sees txId ⟨table, .int rowid⟩ = false

open RowidWorld

namespace RowidWorld

variable (w : RowidWorld κ η) (table : MVTableId)

def allocator : RowidAllocator :=
  w.world.store.rowidAllocators table

def withAllocator (a : RowidAllocator) : RowidWorld κ η :=
  { w with
    world := w.world.withStore { w.world.store with
      rowidAllocators := update w.world.store.rowidAllocators table a } }

def withOp (txId : TxID) (state : OpNewRowidState) : RowidWorld κ η :=
  { w with op := update w.op txId (some state) }

def endNewRowid (txId : TxID) : RowidWorld κ η :=
  if w.lockedBy = some txId then { w with lockedBy := none } else w

def finish (txId : TxID) : RowidWorld κ η :=
  { w.endNewRowid txId with op := update w.op txId none }

def noteAllocated (rowid : Int) : RowidWorld κ η :=
  { w with events := .allocated rowid :: w.events }

/-- `start_new_rowid`; the lock is kept only for the initialization. -/
def startNewRowid (txId : TxID) : RowidWorld κ η :=
  if w.lockedBy.isSome then w
  else if !(w.allocator table).initialized then
    { w.withOp txId (.seekingToLast false) with lockedBy := some txId }
  else
    match (w.allocator table).getNextRowid with
    | some (a, rowid, _) =>
      ((w.withAllocator table a).noteAllocated rowid).withOp txId (.seekingToLast true)
    | none => w.withOp txId (.generatingRandom 0)

def allocateNextRowid (txId : TxID) : RowidWorld κ η :=
  match (w.allocator table).getNextRowid with
  | some (a, rowid, _) => ((w.withAllocator table a).noteAllocated rowid).withOp txId .goNext
  | none => w.withOp txId (.generatingRandom 0)

variable [DecidableEq κ] [IndexKey κ]

/-- One step; `none` when it is not enabled. -/
def exec (table : MVTableId) (w : RowidWorld κ η) : RowidAction κ η → Option (RowidWorld κ η)
  | .world a =>
    (w.world.exec a).map fun w' =>
      { w with
        world := w'
        events := ((a.insertedRowid table w.world w').map .inserted).toList ++ w.events }
  | .startNewRowid txId =>
    if w.world.isRunning txId && (w.op txId).isNone then some (w.startNewRowid table txId)
    else none
  | .seekToLast txId currentMax =>
    match w.op txId with
    | some (.seekingToLast true) => some (w.withOp txId .goNext)
    | some (.seekingToLast false) => some (w.withOp txId (.readingMaxRowid currentMax))
    | _ => none
  | .initializeMaxRowid txId =>
    match w.op txId with
    | some (.readingMaxRowid currentMax) =>
      some ((w.withAllocator table ((w.allocator table).initializeTo currentMax)).withOp txId
        .initialized)
    | _ => none
  | .allocateNextRowid txId =>
    match w.op txId with
    | some .initialized => some (w.allocateNextRowid table txId)
    | _ => none
  | .generateRandom txId random =>
    match w.op txId with
    | some (.generatingRandom attempts) =>
      if 100 ≤ attempts then some (w.finish txId)
      -- the random number is cut to 62 bits
      else some (w.withOp txId (.verifyingCandidate attempts (random % 2 ^ 62 + 1)))
    | _ => none
  | .verifyCandidate txId =>
    match w.op txId with
    | some (.verifyingCandidate attempts candidate) =>
      if w.world.sees txId ⟨table, .int candidate⟩ then
        some (w.withOp txId (.generatingRandom (attempts + 1)))
      else some ((w.noteAllocated candidate).finish txId)
    | _ => none
  | .goNext txId =>
    match w.op txId with
    | some .goNext => some (w.finish txId)
    | _ => none

end RowidWorld

section

variable [DecidableEq κ] [IndexKey κ] {s s' : MvStore κ η} {w w' : World κ η} {a : Action κ η}
  {t : TxID} {table : MVTableId} {row : Row κ} {rowid : Int}

theorem World.exec_allocators (hexec : w.exec a = some w') (table : MVTableId) :
    (w.store.rowidAllocators table).Grows (w'.store.rowidAllocators table) := by
  by_cases hcommit : ∀ t, a ≠ .commitStep t
  · by_cases hcheckpoint : ∀ old f, a ≠ .checkpoint old f
    · exact (exec_untouched hexec hcommit hcheckpoint).allocators table
    · push Not at hcheckpoint
      obtain ⟨old, f, rfl⟩ := hcheckpoint
      simp only [exec] at hexec
      split at hexec
      · split at hexec <;> cases hexec
        rename_i hrun
        rw [(checkpoint_frame hrun).2.2]
        exact .refl _
      · cases hexec
  · push Not at hcommit
    obtain ⟨t, rfl⟩ := hcommit
    obtain ⟨sm, -, hexec⟩ := bind_eq_some_iff.1 hexec
    obtain ⟨⟨s, sm', result⟩, hstep, rfl⟩ := map_eq_some_iff.1 hexec
    cases (CommitStateMachine.step_effect hstep).1 with
    | untouched h => exact h.allocators table
    | header _ _ hs' => exact hs' ▸ .refl _
    | logged _ _ hs' => exact hs' ▸ .refl _
    | published _ _ _ hs' =>
      exact hs' ▸ (MvStore.Keeps.unlockCommitLockIfHeld w.store t).allocators table

theorem MvStore.insertToTableOrIndex_noted (h : s.insertToTableOrIndex t row = .ok s')
    (hid : row.id = ⟨table, .int rowid⟩) : rowid ≤ (s'.rowidAllocators table).maxRowid := by
  unfold insertToTableOrIndex at h
  split at h
  · cases h
  · refine le_trans ?_ ((MvStore.Local.addVersion h).allocators table).maxRowid
    simp only [hid, noteRowid, update_self]
    exact le_max_right _ _

omit [IndexKey κ] in
theorem MvStore.deleteFromTableOrIndex_versionIdCounter
    (h : s.deleteFromTableOrIndex t id = .ok (s', r)) :
    s'.versionIdCounter = s.versionIdCounter := by
  unfold deleteFromTableOrIndex at h
  split at h
  · cases h
    rfl
  split at h
  · cases h
  · split at h
    · cases h
      rfl
    · split at h <;> cases h <;> rfl

theorem MvStore.updateToTableOrIndex_noted (h : s.updateToTableOrIndex t row = .ok (s', r))
    (hid : row.id = ⟨table, .int rowid⟩) (hadded : s.versionIdCounter < s'.versionIdCounter) :
    rowid ≤ (s'.rowidAllocators table).maxRowid := by
  unfold updateToTableOrIndex at h
  split at h
  · cases h
  · obtain ⟨s2, hinsert, heq⟩ := except_map_ok h
    cases heq
    exact insertToTableOrIndex_noted hinsert hid
  next hdelete =>
    cases h
    rw [deleteFromTableOrIndex_versionIdCounter hdelete] at hadded
    exact absurd hadded (Nat.lt_irrefl _)
  next hdelete =>
    cases h
    rw [deleteFromTableOrIndex_versionIdCounter hdelete] at hadded
    exact absurd hadded (Nat.lt_irrefl _)

omit [DecidableEq κ] [IndexKey κ] in
theorem RowID.rowidIn_eq_some (h : id.rowidIn table = some rowid) : id = ⟨table, .int rowid⟩ := by
  obtain ⟨tableId, key⟩ := id
  cases key with
  | record k => cases h
  | int r =>
    simp only [RowID.rowidIn, ite_none_right_eq_some, some.injEq] at h
    rw [h.1, h.2]

omit [IndexKey κ] in
theorem World.runWrite_store {value : Option (Row κ)}
    {op : Except Failure (MvStore κ η × Except LimboError Bool)}
    (hexec : w.runWrite t id value op = some w') : ∃ r, op = .ok (w'.store, r) := by
  unfold runWrite at hexec
  split at hexec
  · split at hexec <;> cases hexec <;> exact ⟨_, rfl⟩
  · cases hexec

theorem World.exec_inserted_le (hexec : w.exec a = some w')
    (h : a.insertedRowid table w w' = some rowid) :
    rowid ≤ (w'.store.rowidAllocators table).maxRowid := by
  unfold Action.insertedRowid at h
  split at h
  · rw [ite_none_right_eq_some] at h
    obtain ⟨r, hop⟩ := runWrite_store hexec
    obtain ⟨s, hinsert, heq⟩ := except_map_ok hop
    cases heq
    exact insertToTableOrIndex_noted hinsert (RowID.rowidIn_eq_some h.2)
  · rw [ite_none_right_eq_some] at h
    obtain ⟨r, hop⟩ := runWrite_store hexec
    exact updateToTableOrIndex_noted hop (RowID.rowidIn_eq_some h.2) h.1
  · cases h

end

section

def CollisionFree : List RowidEvent → Prop
  | [] => True
  | .inserted _ :: earlier => CollisionFree earlier
  | .allocated rowid :: earlier =>
    .allocated rowid ∉ earlier ∧ .inserted rowid ∉ earlier ∧ CollisionFree earlier

namespace RowidWorld

variable {table : MVTableId} {w w' : RowidWorld κ η}

/-- Nobody is in `op_new_rowid`. Every rowid that is stored counts as inserted, and the allocator
covers them if it has been initialized. -/
structure Init (table : MVTableId) (w : RowidWorld κ η) : Prop where
  op : ∀ t, w.op t = none
  stored : ∀ rowid, w.world.store.rows ⟨table, .int rowid⟩ ≠ [] ∨
    w.world.btree ⟨table, .int rowid⟩ ≠ none → .inserted rowid ∈ w.events
  events : ∀ e ∈ w.events, ∃ rowid, e = .inserted rowid
  allocator : (w.allocator table).initialized = true →
    ∀ e ∈ w.events, e.rowid ≤ (w.allocator table).maxRowid

def KeepsCounter (table : MVTableId) (w : RowidWorld κ η) : RowidAction κ η → Prop
  | .initializeMaxRowid txId =>
    ∀ m ∈ (w.op txId).bind OpNewRowidState.readMax, (w.allocator table).maxRowid ≤ m
  | .startNewRowid _ | .allocateNextRowid _ => (w.allocator table).maxRowid ≠ maxRowid
  | _ => True

instance (w : RowidWorld κ η) : DecidablePred (w.KeepsCounter table) := fun action => by
  unfold KeepsCounter
  split <;> infer_instance

/-- The cursor finds the largest rowid that its transaction sees, and no rowid that was inserted or
handed out and that it does not see lies above. -/
def SeesLargest [DecidableEq κ] (table : MVTableId) (w : RowidWorld κ η) : RowidAction κ η → Prop
  | .seekToLast txId max => w.op txId = some (.seekingToLast false) →
    w.world.IsMaxVisible table txId max ∧ ∀ e ∈ w.events,
      w.world.sees txId ⟨table, .int e.rowid⟩ = false → e.rowid ≤ max.getD 0
  | _ => True

theorem SeesLargest.le [DecidableEq κ] {t : TxID} {max : Option Int}
    (h : w.SeesLargest table (.seekToLast t max)) (hop : w.op t = some (.seekingToLast false))
    {e : RowidEvent} (he : e ∈ w.events) : e.rowid ≤ max.getD 0 := by
  obtain ⟨hmax, hunseen⟩ := h hop
  cases hsees : w.world.sees t ⟨table, .int e.rowid⟩ with
  | false => exact hunseen e he hsees
  | true =>
    by_contra hlt
    cases max with
    | none => exact Bool.false_ne_true ((hmax e.rowid).symm.trans hsees)
    | some max => exact Bool.false_ne_true ((hmax.2 e.rowid (not_le.1 hlt)).symm.trans hsees)

/-- What a transaction in `op_new_rowid` relies on. -/
def Relies (table : MVTableId) (w : RowidWorld κ η) : OpNewRowidState → Prop
  | .readingMaxRowid currentMax =>
    ∀ e ∈ w.events, e.rowid ≤ max (currentMax.getD 0) (w.allocator table).maxRowid
  | .initialized => (w.allocator table).initialized = true
  | .generatingRandom _ | .verifyingCandidate _ _ => False
  | _ => True

structure Covered (table : MVTableId) (w : RowidWorld κ η) : Prop where
  events : (w.allocator table).initialized = true →
    ∀ e ∈ w.events, e.rowid ≤ (w.allocator table).maxRowid
  op : ∀ t, ∀ state ∈ w.op t, w.Relies table state
  collisionFree : CollisionFree w.events

theorem Init.covered (h : w.Init table) : w.Covered table where
  events := h.allocator
  op t state hstate := by
    rw [h.op t] at hstate
    cases hstate
  collisionFree := by
    have hinserted := h.events
    revert hinserted
    induction w.events with
    | nil => exact fun _ => trivial
    | cons e earlier ih =>
      intro hinserted
      obtain ⟨rowid, rfl⟩ := hinserted e List.mem_cons_self
      exact ih fun e he => hinserted e (List.mem_cons_of_mem _ he)

theorem Covered.withOp (h : w.Covered table) (t : TxID) {state : OpNewRowidState}
    (hstate : w.Relies table state) : (w.withOp t state).Covered table where
  events := h.events
  op u state' hstate' := by
    rcases eq_or_ne u t with rfl | hne
    · obtain rfl : state = state' := by simpa [RowidWorld.withOp] using hstate'
      exact hstate
    · exact h.op u state' ((update_of_ne hne ..).symm.trans hstate')
  collisionFree := h.collisionFree

/-- What happened since is covered by the counter. -/
theorem Covered.grow (h : w.Covered table) (hop : w'.op = w.op)
    (hgrows : (w.allocator table).Grows (w'.allocator table))
    (hevents : ∀ e ∈ w'.events, e ∈ w.events ∨ e.rowid ≤ (w'.allocator table).maxRowid)
    (hfree : CollisionFree w'.events) : w'.Covered table where
  events hinit e he := by
    rcases hevents e he with he | hle
    · exact (h.events (hgrows.initialized ▸ hinit) e he).trans hgrows.maxRowid
    · exact hle
  op t state hstate := by
    have hrelies := h.op t state (hop ▸ hstate)
    cases state with
    | readingMaxRowid m =>
      intro e he
      rcases hevents e he with he | hle
      · exact (hrelies e he).trans (max_le_max_left _ hgrows.maxRowid)
      · exact hle.trans (le_max_right _ _)
    | initialized => exact hgrows.initialized.trans hrelies
    | _ => exact hrelies
  collisionFree := hfree

theorem Covered.initialized (h : w.Covered table) {t : TxID} {currentMax : Option Int}
    (hop : w.op t = some (.readingMaxRowid currentMax))
    (hle : (w.allocator table).maxRowid ≤ currentMax.getD 0) :
    (w.withAllocator table ((w.allocator table).initializeTo currentMax)).Covered table := by
  have hallocator : (w.withAllocator table ((w.allocator table).initializeTo currentMax)).allocator
      table = ⟨currentMax.getD 0, true⟩ := update_self ..
  have hevents : ∀ e ∈ w.events, e.rowid ≤ currentMax.getD 0 := fun e he =>
    (h.op t _ hop e he).trans (max_le le_rfl hle)
  refine ⟨fun _ => ?_, fun u state hstate => ?_, h.collisionFree⟩
  · rw [hallocator]
    exact hevents
  · have hrelies := h.op u state hstate
    cases state with
    | readingMaxRowid m =>
      intro e he
      rw [hallocator]
      exact (hevents e he).trans (le_max_right _ _)
    | initialized => rw [Relies, hallocator]
    | _ => exact hrelies

theorem Covered.allocated (h : w.Covered table) {a : RowidAllocator} {rowid : Int}
    {prev : Option Int} (hinit : (w.allocator table).initialized = true)
    (hnext : (w.allocator table).getNextRowid = some (a, rowid, prev)) :
    ((w.withAllocator table a).noteAllocated rowid).Covered table := by
  unfold RowidAllocator.getNextRowid at hnext
  split at hnext <;> cases hnext
  have hfresh : ∀ e ∈ w.events, e.rowid ≠ (w.allocator table).maxRowid + 1 := by
    intro e he heq
    have hle := h.events hinit e he
    omega
  refine h.grow rfl ?_ ?_ ⟨fun hmem => hfresh _ hmem rfl, fun hmem => hfresh _ hmem rfl,
    h.collisionFree⟩
  · refine ⟨?_, ?_⟩ <;>
      simp [RowidWorld.noteAllocated, RowidWorld.withAllocator, RowidWorld.allocator, withStore]
  · intro e he
    rcases List.mem_cons.1 he with rfl | he
    · exact .inr (by simp [RowidWorld.noteAllocated, RowidWorld.withAllocator, RowidEvent.rowid,
        RowidWorld.allocator, withStore])
    · exact .inl he

theorem Covered.finish (h : w.Covered table) (t : TxID) : (w.finish t).Covered table := by
  have hend : (w.endNewRowid t).Covered table := by
    unfold endNewRowid
    split
    · exact ⟨h.events, h.op, h.collisionFree⟩
    · exact h
  refine ⟨hend.events, fun u state hstate => ?_, hend.collisionFree⟩
  rcases eq_or_ne u t with rfl | hne
  · simp [RowidWorld.finish] at hstate
  · have hop : (w.endNewRowid t).op = w.op := by
      unfold endNewRowid
      split <;> rfl
    exact hend.op u state (hop ▸ (update_of_ne hne ..).symm.trans hstate)

variable [DecidableEq κ] [IndexKey κ] {a : RowidAction κ η}

theorem Covered.exec (h : w.Covered table) (hkeeps : w.KeepsCounter table a)
    (hlargest : w.SeesLargest table a) (hexec : w.exec table a = some w') : w'.Covered table := by
  cases a with
  | world b =>
    obtain ⟨w1, hb, rfl⟩ := map_eq_some_iff.1 hexec
    refine h.grow rfl (exec_allocators hb table) (fun e he => ?_) ?_
    · rcases List.mem_append.1 he with he | he
      · obtain ⟨rowid, hins, rfl⟩ := map_eq_some_iff.1 (mem_toList.1 he)
        exact .inr (exec_inserted_le hb hins)
      · exact .inl he
    · cases b.insertedRowid table w.world w1 <;> exact h.collisionFree
  | startNewRowid t =>
    simp only [exec, ite_none_right_eq_some, some.injEq] at hexec
    rw [← hexec.2]
    unfold startNewRowid
    split
    · exact h
    split
    · have hop : (w.withOp t (.seekingToLast false)).Covered table := h.withOp t trivial
      exact ⟨hop.events, hop.op, hop.collisionFree⟩
    next hinit =>
      split
      next hnext => exact (h.allocated (by simpa using hinit) hnext).withOp t trivial
      next hnext =>
        rw [RowidAllocator.getNextRowid, if_neg hkeeps] at hnext
        cases hnext
  | seekToLast t max =>
    simp only [exec] at hexec
    split at hexec <;> cases hexec
    · exact h.withOp t trivial
    next hop => exact h.withOp t fun e he => (hlargest.le hop he).trans (le_max_left _ _)
  | initializeMaxRowid t =>
    simp only [exec] at hexec
    split at hexec <;> cases hexec
    next max hop =>
      have hle := hkeeps (max.getD 0) (by rw [hop]; rfl)
      refine (h.initialized hop hle).withOp t ?_
      simp [Relies, RowidWorld.allocator, RowidWorld.withAllocator, withStore,
        RowidAllocator.initializeTo]
  | allocateNextRowid t =>
    simp only [exec] at hexec
    split at hexec <;> cases hexec
    next hop =>
      unfold allocateNextRowid
      split
      next hnext => exact (h.allocated (h.op t _ hop) hnext).withOp t trivial
      next hnext =>
        rw [RowidAllocator.getNextRowid, if_neg hkeeps] at hnext
        cases hnext
  | generateRandom t random =>
    simp only [exec] at hexec
    split at hexec
    next n hop => exact (h.op t _ hop).elim
    · cases hexec
  | verifyCandidate t =>
    simp only [exec] at hexec
    split at hexec
    next n c hop => exact (h.op t _ hop).elim
    · cases hexec
  | goNext t =>
    simp only [exec] at hexec
    split at hexec <;> cases hexec
    exact h.finish t

end RowidWorld

/-- Rowids do not collide, neither with stored ones, in a run in which the allocator is initialized
above everything there is, the counter is never lowered and it is never exhausted. -/
theorem new_rowids_collision_free [DecidableEq κ] [IndexKey κ] {table : MVTableId}
    {w0 w : RowidWorld κ η} {as : List (RowidAction κ η)} (hinit : w0.Init table)
    (hrun : run (exec table) w0 as = some w)
    (hkeeps : Meets (exec table) (RowidWorld.KeepsCounter table) w0 as)
    (hlargest : Meets (exec table) (RowidWorld.SeesLargest table) w0 as) :
    CollisionFree w.events :=
  (run_preserves (fun hsafe h hexec => RowidWorld.Covered.exec h hsafe.1 hsafe.2 hexec)
    (hkeeps.and hlargest) hinit.covered hrun).collisionFree

def storedFive (id : RowID Empty) : Option (Row Empty) :=
  if id = (tableRow 5 []).id then some (tableRow 5 []) else none

/-- The table holds a row in the B-tree. The next rowid is handed out and inserted, then another. -/
theorem new_rowids_collision_free_stored :
    ∃ w : RowidWorld Empty Unit,
      run (exec (-2)) ⟨.opened () storedFive 0, none, fun _ => none, [.inserted 5]⟩
        [.world .beginTx, .startNewRowid 1, .seekToLast 1 (some 5), .initializeMaxRowid 1,
          .allocateNextRowid 1, .goNext 1, .world (.insert 1 (tableRow 6 [])),
          .startNewRowid 1] = some w ∧
      w.events = [.allocated 7, .inserted 6, .allocated 6, .inserted 5] ∧
      CollisionFree w.events := by
  let w0 : RowidWorld Empty Unit :=
    ⟨.opened () storedFive 0, none, fun _ => none, [.inserted 5]⟩
  have hnone {rowid : Int} (hne : rowid ≠ 5) : storedFive ⟨-2, .int rowid⟩ = none :=
    if_neg (by simpa [tableRow] using hne)
  have hinit : w0.Init (-2) := by
    refine ⟨fun _ => rfl, fun rowid hstored => ?_, fun e he => ?_, nofun⟩
    · rcases eq_or_ne rowid 5 with rfl | hne
      · exact List.mem_cons_self
      · exact absurd hstored (by simpa [w0, opened, MvStore.new] using hnone hne)
    · exact ⟨5, List.mem_singleton.1 he⟩
  have hlargest (w : RowidWorld Empty Unit)
      (hrun : run (exec (-2)) w0 [.world .beginTx, .startNewRowid 1] = some w) :
      w.SeesLargest (-2) (.seekToLast 1 (some 5)) := by
    have hfive : (run (exec (-2)) w0 [.world .beginTx, .startNewRowid 1]).map (fun w =>
        (w.world.sees 1 ⟨-2, .int 5⟩, w.events)) = some (true, [.inserted 5]) := by decide +kernel
    rw [hrun, map_some, some.injEq, Prod.mk.injEq] at hfive
    refine fun _ => ⟨⟨hfive.1, fun rowid hlt => ?_⟩, fun e he _ => ?_⟩
    · have hrows : (run (exec (-2)) w0 [.world .beginTx, .startNewRowid 1]).map (fun w =>
          (w.world.store.rows ⟨-2, .int rowid⟩, w.world.btree ⟨-2, .int rowid⟩)) =
            some ([], none) := congrArg (fun row => some ([], row)) (hnone hlt.ne')
      rw [hrun, map_some, some.injEq, Prod.mk.injEq] at hrows
      exact sees_of_nil hrows.1 hrows.2
    · rw [hfive.2, List.mem_singleton] at he
      rw [he]
      exact le_rfl
  obtain ⟨w, hrun, hevents⟩ := map_eq_some_iff.1 (show
    (run (exec (-2)) w0 [.world .beginTx, .startNewRowid 1, .seekToLast 1 (some 5),
      .initializeMaxRowid 1, .allocateNextRowid 1, .goNext 1, .world (.insert 1 (tableRow 6 [])),
      .startNewRowid 1]).map (fun w : RowidWorld Empty Unit => w.events) =
      some [.allocated 7, .inserted 6, .allocated 6, .inserted 5] by decide +kernel)
  refine ⟨w, hrun, hevents, new_rowids_collision_free hinit hrun (by decide +kernel)
    ⟨trivial, fun w1 h1 => ⟨trivial, fun w2 h2 => ⟨hlargest w2 ?_, fun w3 _ => ?_⟩⟩⟩⟩
  · exact bind_eq_some_iff.2 ⟨w1, h1, bind_eq_some_iff.2 ⟨w2, h2, rfl⟩⟩
  · exact meets_of_forall (by simp [SeesLargest])

/-- The second transaction sees no row when it initializes the allocator, and is handed the
rowid that the first has inserted. -/
theorem new_rowid_collides :
    ∃ w1 w : RowidWorld Empty Unit,
      run (exec (-2)) ⟨.opened () (fun _ => none) 0, none, fun _ => none, []⟩
        [.world .beginTx, .world .beginTx, .world (.insert 1 (tableRow 1 [])),
          .startNewRowid 2] = some w1 ∧
      w1.world.IsMaxVisible (-2) 2 none ∧
      run (exec (-2)) w1
        [.seekToLast 2 none, .initializeMaxRowid 2, .allocateNextRowid 2] = some w ∧
      w.events = [.allocated 1, .inserted 1] := by
  let w0 : RowidWorld Empty Unit := ⟨.opened () (fun _ => none) 0, none, fun _ => none, []⟩
  let start : List (RowidAction Empty Unit) :=
    [.world .beginTx, .world .beginTx, .world (.insert 1 (tableRow 1 [])), .startNewRowid 2]
  let rest : List (RowidAction Empty Unit) :=
    [.seekToLast 2 none, .initializeMaxRowid 2, .allocateNextRowid 2]
  obtain ⟨w1, hstart, hrest⟩ := map_eq_some_iff.1 (show
    (run (exec (-2)) w0 start).map (fun w1 =>
      (run (exec (-2)) w1 rest).map events) =
      some (some [.allocated 1, .inserted 1]) by decide +kernel)
  obtain ⟨w, hrun, hevents⟩ := map_eq_some_iff.1 hrest
  refine ⟨w1, w, hstart, fun rowid => ?_, hrun, hevents⟩
  rcases eq_or_ne rowid 1 with rfl | hne
  · have hsees : (run (exec (-2)) w0 start).map (fun w1 =>
        w1.world.sees 2 ⟨-2, .int 1⟩) = some false := by decide +kernel
    simpa [hstart] using hsees
  have hid : (⟨-2, .int rowid⟩ : RowID Empty) ≠ (tableRow 1 []).id := by
    simpa [tableRow] using hne
  have hrows : (run (exec (-2)) w0 start).map (fun w1 =>
      (w1.world.store.rows ⟨-2, .int rowid⟩, w1.world.btree ⟨-2, .int rowid⟩)) =
        some ([], none) :=
    congrArg (fun c => some (c, none)) (update_of_ne hid _ _)
  rw [hstart, map_some, some.injEq, Prod.mk.injEq] at hrows
  exact sees_of_nil hrows.1 hrows.2

end

end PgMicro.Mvcc
