import PgMicro.Transition

/-!
# Captured row changes

Every emitter that writes a row also appends a record of it to the change table, with the images of
the row before and after. They are built from the registers of the new row or read through the table
cursor, at the point where the emitter puts them.
-/

namespace PgMicro.ChangeCapture

open Transition Function List Option

variable {V : Type} {newRowid : Option Int64}

/-- The storable columns of a table; `affinity` is what `MakeRecord` does to a column. -/
structure Columns (V : Type) where
  rowidAlias : Option Nat
  integer : Int64 → V
  affinity : Nat → V → V
  affinity_idem : ∀ i v, affinity i (affinity i v) = affinity i v
  affinity_rowid : ∀ i ∈ rowidAlias, ∀ rowid, affinity i (integer rowid) = integer rowid

namespace Columns

variable (cols : Columns V)

/-- `emit_make_record`. -/
def makeRecord (registers : List V) : List V := registers.mapIdx cols.affinity

/-- A row with the rowid in the column that is an alias of it. -/
def image (rowid : Int64) (row : List V) : List V :=
  match cols.rowidAlias with
  | none => row
  | some i => row.set i (cols.integer rowid)

def emitCdcPatchRecord (registers : List V) (rowid : Int64) : List V :=
  match cols.rowidAlias with
  | none => cols.makeRecord registers
  | some i => cols.makeRecord (registers.set i (cols.integer rowid))

def Stored : Type := { row : List V // cols.makeRecord row = row }

theorem makeRecord_idem (registers : List V) :
    cols.makeRecord (cols.makeRecord registers) = cols.makeRecord registers := by
  have hidem (i : Nat) : cols.affinity i ∘ cols.affinity i = cols.affinity i :=
    funext (cols.affinity_idem i)
  simp [makeRecord, mapIdx_mapIdx, hidem]

def store (registers : List V) : cols.Stored :=
  ⟨cols.makeRecord registers, cols.makeRecord_idem registers⟩

theorem makeRecord_image (rowid : Int64) (registers : List V) :
    cols.makeRecord (cols.image rowid registers) = cols.image rowid
      (cols.makeRecord registers) := by
  unfold image makeRecord
  cases halias : cols.rowidAlias with
  | none => rfl
  | some i => rw [mapIdx_set, cols.affinity_rowid i halias]

theorem emitCdcPatchRecord_eq (registers : List V) (rowid : Int64) :
    cols.emitCdcPatchRecord registers rowid = cols.image rowid (cols.store registers).1 := by
  rw [store, ← makeRecord_image, emitCdcPatchRecord, image]
  cases cols.rowidAlias <;> rfl

end Columns

inductive ChangeType where
  | insert
  | update
  | delete
  deriving DecidableEq

structure Change (V : Type) where
  changeType : ChangeType
  id : Int64
  before : Option (List V)
  after : Option (List V)

structure State (cols : Columns V) where
  rows : Int64 → Option cols.Stored
  cursor : Int64
  changes : List (Change V)

namespace State

variable {cols : Columns V} (s : State cols)

/-- `SeekRowid` or `NotExists`; `none` where it jumps. -/
def seekRowid (rowid : Int64) : Option (State cols) :=
  if (s.rows rowid).isSome then some { s with cursor := rowid } else none

def delete : State cols := { s with rows := update s.rows s.cursor none }

def insert (key : Int64) (registers : List V) : State cols :=
  { s with rows := update s.rows key (some (cols.store registers)), cursor := key }

/-- `emit_cdc_full_record`, of the row that the cursor stands on at this point. -/
def emitCdcFullRecord (rowid : Int64) : Option (List V) :=
  (s.rows s.cursor).map fun row => cols.makeRecord (cols.image rowid row.1)

def emitCdcInsns (changeType : ChangeType) (rowid : Int64) (before after : Option (List V)) :
    State cols :=
  { s with changes := s.changes ++ [⟨changeType, rowid, before, after⟩] }

/-- `emit_replace_delete_conflicting_row` of INSERT. -/
def replaceDeleteConflictingRow (conflict : Int64) : Option (State cols) := do
  let s ← s.seekRowid conflict
  some (s.emitCdcInsns .delete conflict (s.emitCdcFullRecord conflict) none).delete

def insertRow (key : Int64) (registers : List V) : Option (State cols) :=
  if (s.rows key).isSome then none
  else some ((s.insert key registers).emitCdcInsns .insert key none
    (some (cols.emitCdcPatchRecord registers key)))

/-- `emit_upsert`: the row is written first, then its images are taken. The cursor then reads the
new row here; if it overwrote the row in place, without balancing, it still has the record of the
old one cached. -/
def emitUpsert (conflict : Int64) (newRowid : Option Int64) (registers : List V) :
    Option (State cols) :=
  match s.seekRowid conflict, newRowid with
  | none, _ => some s
  | some s, none =>
    let s := s.insert conflict registers
    some (s.emitCdcInsns .update conflict (s.emitCdcFullRecord conflict)
      (some (cols.emitCdcPatchRecord registers conflict)))
  | some s, some rowid =>
    if rowid ≠ conflict ∧ (s.rows rowid).isSome then none
    else
      let s := s.delete.insert rowid registers
      some ((s.emitCdcInsns .delete conflict (s.emitCdcFullRecord conflict) none).emitCdcInsns
        .insert rowid none (some (cols.emitCdcPatchRecord registers rowid)))

def emitReplaceDelete (conflict : Int64) : State cols :=
  match s.seekRowid conflict with
  | none => s
  | some s => s.delete

/-- The end of `emit_update_insns`; `newRowid` is given when the statement sets the rowid. Without
it an `Insert` replaces the row, and a `Delete` in front of it makes no difference. -/
def updateRow (rowid : Int64) (newRowid : Option Int64) (registers : List V) :
    Option (State cols) :=
  let before := s.emitCdcFullRecord rowid
  match newRowid with
  | none => some ((s.insert rowid registers).emitCdcInsns .update rowid before
      (some (cols.emitCdcPatchRecord registers rowid)))
  | some new =>
    if new ≠ rowid ∧ (s.rows new).isSome then none
    else
      -- the after image is handed over in the place of the before image
      some (((s.delete.insert new registers).emitCdcInsns .delete rowid before none).emitCdcInsns
        .insert new (some (cols.emitCdcPatchRecord registers new)) none)

/-- `emit_update_insns` for one row, with the rows that conflict resolution by REPLACE removes. -/
def emitUpdateInsns (rowid : Int64) (replaced : List Int64) (newRowid : Option Int64)
    (registers : List V) : Option (State cols) :=
  match s.seekRowid rowid with
  | none => some s
  | some s =>
    let s := replaced.foldl emitReplaceDelete s
    match s.seekRowid rowid with
    | none => some s
    | some s => s.updateRow rowid newRowid registers

def deleteRow (rowid : Int64) : Option (State cols) :=
  match s.seekRowid rowid with
  | none => some s
  | some s => some (s.emitCdcInsns .delete rowid (s.emitCdcFullRecord rowid) none).delete

end State

/-- What a statement does for one of its rows; the rows in conflict are those it finds. -/
inductive RowWrite (V : Type) where
  | insert (replaced : List Int64) (key : Int64) (registers : List V)
  | upsert (replaced : List Int64) (conflict : Int64) (newRowid : Option Int64) (registers : List V)
  | update (rowid : Int64) (replaced : List Int64) (newRowid : Option Int64) (registers : List V)
  | delete (rowid : Int64)

variable {cols : Columns V}

open State

def State.exec (s : State cols) : RowWrite V → Option (State cols)
  | .insert replaced key registers => do
    (← replaced.foldlM replaceDeleteConflictingRow s).insertRow key registers
  | .upsert replaced conflict newRowid registers => do
    (← replaced.foldlM replaceDeleteConflictingRow s).emitUpsert conflict newRowid registers
  | .update rowid replaced newRowid registers => s.emitUpdateInsns rowid replaced newRowid registers
  | .delete rowid => s.deleteRow rowid

def ChangeType.Fits : ChangeType → Option (List V) → Option (List V) → Prop
  | .insert, before, after => before = none ∧ after.isSome
  | .update, before, after => before.isSome ∧ after.isSome
  | .delete, before, after => before.isSome ∧ after = none

/-- The record is that of a change of `rows` into `rows'`. -/
structure Change.Records (c : Change V) (rows rows' : Int64 → Option cols.Stored) : Prop where
  fits : c.changeType.Fits c.before c.after
  before : c.before = (rows c.id).map fun row => cols.image c.id row.1
  after : c.after = (rows' c.id).map fun row => cols.image c.id row.1
  others : ∀ rowid, rowid ≠ c.id → rows' rowid = rows rowid

def Describes : (Int64 → Option cols.Stored) → List (Change V) →
    (Int64 → Option cols.Stored) → Prop
  | rows, [], rows' => rows' = rows
  | rows, c :: cs, rows' => ∃ next, c.Records rows next ∧ Describes next cs rows'

def State.Captured (s s' : State cols) : Prop :=
  ∃ cs, s'.changes = s.changes ++ cs ∧ Describes s.rows cs s'.rows

theorem Describes.append {rows rows' rows'' : Int64 → Option cols.Stored} {cs ds : List (Change V)}
    (h : Describes rows cs rows') (h' : Describes rows' ds rows'') :
    Describes rows (cs ++ ds) rows'' := by
  induction cs generalizing rows with
  | nil => exact (show rows' = rows from h) ▸ h'
  | cons c cs ih =>
    obtain ⟨next, hc, hcs⟩ := h
    exact ⟨next, hc, ih hcs⟩

theorem records_update (rows : Int64 → Option cols.Stored) (changeType : ChangeType) (id : Int64)
    (value : Option cols.Stored) {before after : Option (List V)}
    (hbefore : before = (rows id).map fun row => cols.image id row.1)
    (hafter : after = value.map fun row => cols.image id row.1)
    (hfits : changeType.Fits before after) :
    Change.Records ⟨changeType, id, before, after⟩ rows (update rows id value) where
  fits := hfits
  before := hbefore
  after := by rw [update_self, hafter]
  others := fun _ hne => update_of_ne hne ..

namespace State

variable {s s' s'' : State cols} {rowid : Int64} {row : cols.Stored} {registers : List V}

theorem Captured.refl (s : State cols) : s.Captured s := ⟨[], (append_nil _).symm, rfl⟩

theorem Captured.trans (h : s.Captured s') (h' : s'.Captured s'') : s.Captured s'' := by
  obtain ⟨cs, hcs, hrows⟩ := h
  obtain ⟨ds, hds, hrows'⟩ := h'
  exact ⟨cs ++ ds, by rw [hds, hcs, append_assoc], hrows.append hrows'⟩

theorem seekRowid_eq_some (h : s.seekRowid rowid = some s') :
    (∃ row, s.rows rowid = some row) ∧ s' = { s with cursor := rowid } := by
  rw [seekRowid] at h
  split at h <;> cases h
  exact ⟨isSome_iff_exists.1 ‹_›, rfl⟩

theorem emitCdcFullRecord_eq (hrow : s.rows s.cursor = some row) (rowid : Int64) :
    s.emitCdcFullRecord rowid = some (cols.image rowid row.1) := by
  rw [emitCdcFullRecord, hrow, map_some, cols.makeRecord_image, row.2]

theorem captured_delete (hseek : s.seekRowid rowid = some s') :
    s.Captured (s'.emitCdcInsns .delete rowid (s'.emitCdcFullRecord rowid) none).delete := by
  obtain ⟨⟨row, hrow⟩, rfl⟩ := seekRowid_eq_some hseek
  rw [emitCdcFullRecord_eq hrow]
  refine ⟨_, rfl, _, records_update s.rows _ _ none ?_ rfl ⟨rfl, rfl⟩, rfl⟩
  rw [hrow, map_some]

theorem captured_deleteRow (h : s.deleteRow rowid = some s') : s.Captured s' := by
  rw [deleteRow] at h
  split at h <;> cases h
  · exact .refl s
  · exact captured_delete ‹_›

variable {replaced : List Int64}

theorem captured_replaced (h : replaced.foldlM replaceDeleteConflictingRow s = some s') :
    s.Captured s' ∧ ∀ rowid row, s'.rows rowid = some row →
      rowid ∉ replaced ∧ s.rows rowid = some row := by
  induction replaced generalizing s with
  | nil =>
    cases h
    exact ⟨.refl _, fun _ _ hrow => ⟨not_mem_nil, hrow⟩⟩
  | cons conflict replaced ih =>
    obtain ⟨s1, hfirst, hrest⟩ := bind_eq_some_iff.1 h
    obtain ⟨s0, hseek, hdelete⟩ := bind_eq_some_iff.1 hfirst
    have hdeleted := captured_delete hseek
    obtain ⟨-, rfl⟩ := seekRowid_eq_some hseek
    cases hdelete
    obtain ⟨hcaptured, hrows⟩ := ih hrest
    refine ⟨hdeleted.trans hcaptured, fun rowid row hrow => ?_⟩
    obtain ⟨hnot, hrow⟩ := hrows rowid row hrow
    have hne : rowid ≠ conflict := by
      rintro rfl
      simp [delete, emitCdcInsns] at hrow
    refine ⟨not_mem_cons_of_ne_of_not_mem hne hnot, ?_⟩
    rwa [← show _ = s.rows rowid from update_of_ne hne none s.rows]

theorem captured_insertRow (h : s.insertRow rowid registers = some s') : s.Captured s' := by
  rw [insertRow] at h
  split at h <;> cases h
  rename_i hfree
  rw [not_isSome_iff_eq_none] at hfree
  refine ⟨_, rfl, _, records_update s.rows _ _ (some (cols.store registers)) ?_ ?_ ⟨rfl, rfl⟩, rfl⟩
  · rw [hfree, map_none]
  · rw [map_some, cols.emitCdcPatchRecord_eq]

theorem captured_emitUpsert (hsame : ∀ row, s.rows rowid = some row →
      cols.image rowid (cols.store registers).1 = cols.image rowid row.1)
    (h : s.emitUpsert rowid newRowid registers = some s') : s.Captured s' := by
  unfold emitUpsert at h
  cases hseek : s.seekRowid rowid with
  | none =>
    simp only [hseek, some.injEq] at h
    exact h ▸ .refl s
  | some s1 =>
    obtain ⟨⟨row, hrow⟩, rfl⟩ := seekRowid_eq_some hseek
    -- the row under the cursor is the new one by now
    have hbefore (s2 : State cols) (new : Int64) :
        (s2.insert new registers).emitCdcFullRecord rowid =
          (s.rows rowid).map fun row => cols.image rowid row.1 := by
      rw [emitCdcFullRecord_eq (update_self ..), hsame row hrow, hrow, map_some]
    have hafter (new : Int64) : some (cols.emitCdcPatchRecord registers new) =
        (some (cols.store registers)).map fun row => cols.image new row.1 := by
      rw [map_some, cols.emitCdcPatchRecord_eq]
    have hsome : ((s.rows rowid).map fun row => cols.image rowid row.1).isSome := by simp [hrow]
    cases newRowid with
    | none =>
      simp only [hseek, hbefore, some.injEq] at h
      subst h
      exact ⟨_, rfl, _, records_update s.rows _ _ _ rfl (hafter rowid) ⟨hsome, rfl⟩, rfl⟩
    | some new =>
      simp only [hseek, hbefore] at h
      split at h <;> cases h
      rename_i hfree
      refine ⟨_, append_assoc .., _, records_update s.rows _ _ none rfl rfl ⟨hsome, rfl⟩, _,
        records_update _ _ _ _ ?_ (hafter new) ⟨rfl, rfl⟩, rfl⟩
      by_cases hne : new = rowid
      · rw [hne, update_self, map_none]
      · have hnone := not_isSome_iff_eq_none.1 fun hsome => hfree ⟨hne, hsome⟩
        rw [update_of_ne hne, hnone, map_none]

theorem foldl_emitReplaceDelete (h : ∀ c ∈ replaced, s.rows c = none) :
    replaced.foldl emitReplaceDelete s = s := by
  induction replaced with
  | nil => rfl
  | cons c replaced ih =>
    have hstays : s.emitReplaceDelete c = s := by
      simp [emitReplaceDelete, seekRowid, h c mem_cons_self]
    rw [foldl_cons, hstays]
    exact ih fun c hc => h c (mem_cons_of_mem _ hc)

theorem captured_emitUpdateInsns
    (hplain : (s.rows rowid).isSome → newRowid = none ∧ ∀ c ∈ replaced, s.rows c = none)
    (h : s.emitUpdateInsns rowid replaced newRowid registers = some s') : s.Captured s' := by
  rw [emitUpdateInsns] at h
  split at h
  · cases h
    exact .refl s
  obtain ⟨⟨row, hrow⟩, rfl⟩ := seekRowid_eq_some ‹_›
  obtain ⟨rfl, hnone⟩ := hplain (isSome_of_eq_some hrow)
  have hstays : replaced.foldl emitReplaceDelete { s with cursor := rowid } =
      { s with cursor := rowid } := foldl_emitReplaceDelete hnone
  rw [hstays] at h
  simp only [seekRowid, hrow, isSome_some, if_true, updateRow, some.injEq] at h
  subst h
  refine ⟨_, rfl, _, records_update s.rows _ _ (some (cols.store registers)) ?_ ?_ ?_, rfl⟩
  · rw [emitCdcFullRecord_eq hrow, hrow, map_some]
  · rw [map_some, cols.emitCdcPatchRecord_eq]
  · rw [emitCdcFullRecord_eq hrow]
    exact ⟨rfl, rfl⟩

end State

/-- The writes whose records are right: an upsert that leaves the row as it is up to the rowid, an
update that neither sets the rowid nor removes other rows. -/
def State.Faithful (s : State cols) : RowWrite V → Prop
  | .insert .. | .delete _ => True
  | .upsert replaced conflict _ registers => conflict ∉ replaced →
    ∀ row, s.rows conflict = some row →
      cols.image conflict (cols.store registers).1 = cols.image conflict row.1
  | .update rowid replaced newRowid _ =>
    (s.rows rowid).isSome → newRowid = none ∧ ∀ c ∈ replaced, s.rows c = none

theorem State.captured_exec {s s' : State cols} {w : RowWrite V} (hfaithful : s.Faithful w)
    (h : s.exec w = some s') : s.Captured s' := by
  cases w with
  | insert replaced key registers =>
    obtain ⟨s1, hreplaced, hinsert⟩ := bind_eq_some_iff.1 h
    exact (captured_replaced hreplaced).1.trans (captured_insertRow hinsert)
  | upsert replaced conflict newRowid registers =>
    obtain ⟨s1, hreplaced, hupsert⟩ := bind_eq_some_iff.1 h
    obtain ⟨hcaptured, hrows⟩ := captured_replaced hreplaced
    refine hcaptured.trans (captured_emitUpsert (fun row hrow => ?_) hupsert)
    obtain ⟨hnot, hrow⟩ := hrows conflict row hrow
    exact hfaithful hnot row hrow
  | update rowid replaced newRowid registers => exact captured_emitUpdateInsns hfaithful h
  | delete rowid => exact captured_deleteRow h

/-- The records a statement appends describe what it does to the table. -/
theorem changes_captured {s s' : State cols} {writes : List (RowWrite V)}
    (hfaithful : Meets exec State.Faithful s writes)
    (hrun : run exec s writes = some s') : s.Captured s' :=
  run_preserves (fun hf hq hexec => hq.trans (captured_exec hf hexec)) hfaithful
    (.refl s) hrun

def twoColumns : Columns Int64 where
  rowidAlias := some 0
  integer := id
  affinity := fun _ v => v
  affinity_idem := fun _ _ => rfl
  affinity_rowid := fun _ _ _ => rfl

def oneRow : State twoColumns :=
  ⟨fun rowid => if rowid = 1 then some (twoColumns.store [0, 7]) else none, 0, []⟩

theorem changes_captured_oneRow :
    ∃ s', run exec oneRow [.update 1 [] none [0, 8], .insert [1] 1 [0, 9]] = some s' ∧
      oneRow.Captured s' := by
  have hfaithful : Meets exec State.Faithful oneRow
      [.update 1 [] none [0, 8], .insert [1] 1 [0, 9]] :=
    ⟨fun _ => ⟨rfl, nofun⟩, fun _ _ => ⟨trivial, fun _ _ => trivial⟩⟩
  exact ⟨_, rfl, changes_captured hfaithful rfl⟩

/-- `UPDATE t SET id = 2 WHERE id = 1`. -/
theorem rowid_update_not_captured :
    ∃ s', oneRow.exec (.update 1 [] (some 2) [0, 7]) = some s' ∧ ¬ oneRow.Captured s' := by
  refine ⟨_, rfl, ?_⟩
  rintro ⟨cs, hcs, hrows⟩
  obtain rfl := nil_append cs ▸ hcs
  obtain ⟨_, -, _, hinsert, -⟩ := hrows
  exact some_ne_none _ hinsert.fits.1

/-- `DatabaseTapeRowChangeType` of `sync/engine/src/types.rs`. -/
inductive TapeRowChange (V : Type) where
  | delete (before : List V)
  | update (before after : List V)
  | insert (after : List V)

def requireImage (image : Option (List V)) (modes : String) : Except String (List V) :=
  image.elim (.error ("cdc_mode must be set to " ++ modes)) .ok

def Change.intoRevert (c : Change V) : Except String (TapeRowChange V) :=
  match c.changeType with
  | .delete => .insert <$> requireImage c.before "either 'full' or 'before'"
  | .update => .update <$> requireImage c.after "'full'" <*>
      requireImage c.before "either 'full' or 'before'"
  | .insert => .delete <$> requireImage c.after "either 'full' or 'after'"

def TapeRowChange.result : TapeRowChange V → Option (List V)
  | .delete _ => none
  | .update _ after | .insert after => some after

def imagesOf (rows : Int64 → Option cols.Stored) (rowid : Int64) : Option (List V) :=
  (rows rowid).map fun row => cols.image rowid row.1

def revert (images : Int64 → Option (List V)) (c : Change V) :
    Except String (Int64 → Option (List V)) :=
  (fun change => update images c.id change.result) <$> c.intoRevert

variable {rows rows' : Int64 → Option cols.Stored}

theorem Change.Records.revert_eq {c : Change V} (h : c.Records rows rows') :
    revert (imagesOf rows') c = .ok (imagesOf rows) := by
  have hback : update (imagesOf rows') c.id c.before = imagesOf rows := by
    funext rowid
    rcases eq_or_ne rowid c.id with rfl | hne
    · rw [update_self, h.before, imagesOf]
    · rw [update_of_ne hne, imagesOf, imagesOf, h.others rowid hne]
  obtain ⟨changeType, id, before, after⟩ := c
  have hfits : changeType.Fits before after := h.fits
  rw [← hback]
  cases changeType with
  | insert =>
    obtain ⟨rfl, hafter⟩ := hfits
    obtain ⟨image, rfl⟩ := isSome_iff_exists.1 hafter
    rfl
  | update =>
    obtain ⟨image, rfl⟩ := isSome_iff_exists.1 hfits.1
    obtain ⟨image', rfl⟩ := isSome_iff_exists.1 hfits.2
    rfl
  | delete =>
    obtain ⟨image, rfl⟩ := isSome_iff_exists.1 hfits.1
    rfl

theorem Describes.revert_eq {cs : List (Change V)} (h : Describes rows cs rows') :
    cs.reverse.foldlM revert (imagesOf rows') = .ok (imagesOf rows) := by
  induction cs generalizing rows with
  | nil =>
    obtain rfl : rows' = rows := h
    rfl
  | cons c cs ih =>
    obtain ⟨next, hc, hcs⟩ := h
    rw [reverse_cons, foldlM_append, ih hcs, ← hc.revert_eq]
    exact bind_pure (revert (imagesOf next) c)

/-- Reverted from the last on, the captured changes lead back to the table before them. -/
theorem captured_changes_revert {s s' : State cols} {writes : List (RowWrite V)}
    (hfaithful : Meets exec State.Faithful s writes) (hrun : run exec s writes = some s') :
    ∃ cs, s'.changes = s.changes ++ cs ∧
      cs.reverse.foldlM revert (imagesOf s'.rows) = .ok (imagesOf s.rows) := by
  obtain ⟨cs, hcs, hrows⟩ : s.Captured s' :=
    run_preserves (fun hf hq hexec => hq.trans (captured_exec hf hexec)) hfaithful (.refl s) hrun
  exact ⟨cs, hcs, hrows.revert_eq⟩

/-- The row is updated, replaced, joined by another one and deleted. -/
theorem captured_changes_revert_four : ∃ s', run exec oneRow
      [.update 1 [] none [0, 8], .insert [1] 1 [0, 9], .insert [] 2 [0, 5], .delete 1] = some s' ∧
    s'.changes.map Change.changeType = [.update, .delete, .insert, .insert, .delete] ∧
    s'.changes.reverse.foldlM revert (imagesOf s'.rows) = .ok (imagesOf oneRow.rows) := by
  have hfaithful : Meets exec State.Faithful oneRow
      [.update 1 [] none [0, 8], .insert [1] 1 [0, 9], .insert [] 2 [0, 5], .delete 1] :=
    ⟨fun _ => ⟨rfl, nofun⟩, fun _ _ => ⟨trivial, fun _ _ => ⟨trivial, fun _ _ => ⟨trivial,
      fun _ _ => trivial⟩⟩⟩⟩
  obtain ⟨cs, hcs, hrevert⟩ := captured_changes_revert hfaithful rfl
  exact ⟨_, rfl, rfl, hcs ▸ hrevert⟩

end PgMicro.ChangeCapture
