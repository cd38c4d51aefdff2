import Mathlib.Logic.Function.Basic

/-!
# AUTOINCREMENT

`core/translate/insert.rs`: what INSERT does to the rowids of the tables and to `sqlite_sequence`,
in which the rowid of a row is its place.
-/

namespace PgMicro.Autoincrement

open Function
open Int64 (maxValue le_trans le_refl le_of_lt le_of_eq lt_of_le_of_lt)

inductive Event where
  | generated (table : String) (rowid : Int64)
  | stored (table : String) (rowid : Int64)

/-- The newest event of the `log` is its first. -/
structure World where
  rowids : String → List Int64
  sequence : List (String × Int64)
  log : List Event

structure DatabaseFull where
  message : String

def memMax (dest src : Int64) : Int64 := if dest < src then src else dest

/-- `NewRowid` outside MVCC mode: the largest rowid so far. -/
def newRowid (random : Nat → Int64) (rowids : List Int64) : Except DatabaseFull Int64 :=
  if rowids.max? = some maxValue ∧
      ∀ attempt < 100, (random attempt &&& maxValue >>> 1) + 1 ∈ rowids then
    .error ⟨"Unable to find an unused rowid after 100 attempts - database is probably full"⟩
  else .ok (rowids.max?.getD 0)

inductive Key where
  | omitted
  | null
  | value (rowid : Int64)

namespace World

variable (w : World) (table : String)

/-- This and `rSeqRowid` are what `reload_autoincrement_state` finds. -/
def rSeq : Int64 := (w.sequence.find? (·.1 = table)).elim 0 (·.2)

def rSeqRowid : Option Nat := w.sequence.findIdx? (·.1 = table)

def updateSqliteSequence (rSeqRowid : Option Nat) (newKey : Int64) : World :=
  { w with
    sequence :=
      match rSeqRowid with
      | none => w.sequence ++ [(table, newKey)]
      | some rowid => w.sequence.set rowid (table, newKey) }

def rowidGeneration (random : Nat → Int64) : Except DatabaseFull (Int64 × World) :=
  (newRowid random (w.rowids table)).bind fun rMax =>
    let key := memMax (w.rSeq table) rMax
    if key = maxValue then .error ⟨"database or disk is full"⟩
    else
      let w' := w.updateSqliteSequence table (w.rSeqRowid table) (key + 1)
      .ok (key + 1, { w' with log := .generated table (key + 1) :: w.log })

/-- A key that is not larger falls through to the code for a missing row. -/
def noteProvided (key : Int64) : World :=
  w.updateSqliteSequence table (w.rSeqRowid table) <|
    if w.rSeqRowid table = none ∨ key ≤ w.rSeq table then memMax (w.rSeq table) key else key

def rowKey (random : Nat → Int64) : Key → Except DatabaseFull (Int64 × World)
  | .omitted => w.rowidGeneration table random
  | .null =>
    (w.rowidGeneration table random).bind fun (key, w) => .ok (key, w.noteProvided table key)
  | .value key => .ok (key, w.noteProvided table key)

def store (key : Int64) : World :=
  { w with
    rowids := update w.rowids table ((w.rowids table).insert key)
    log := .stored table key :: w.log }

/-- Behind the AFTER triggers. -/
def noteStored (key : Int64) : World :=
  if key ≤ w.rSeq table then w else w.updateSqliteSequence table (w.rSeqRowid table) key

def ensureSequenceInitialized : World :=
  if w.rSeqRowid table = none then w.updateSqliteSequence table none 0 else w

def delete (gone : List Int64) : World :=
  { w with rowids := update w.rowids table ((w.rowids table).filter (· ∉ gone)) }

end World

/-- Statements with their triggers, row by row. A row resolves its conflicts by deleting rows or in
an upsert. -/
inductive Script where
  | done
  | ensureSequenceInitialized (table : String) (rest : Script)
  | delete (table : String) (gone : List Int64) (rest : Script)
  | insert (table : String) (key : Key) (random : Nat → Int64) (before resolve : Script)
      (stores : Bool) (after rest : Script)

def Script.run : Script → World → Except DatabaseFull World
  | done, w => .ok w
  | ensureSequenceInitialized table rest, w => rest.run (w.ensureSequenceInitialized table)
  | delete table gone rest, w => rest.run (w.delete table gone)
  | insert table key random before resolve stores after rest, w => do
    let w ← before.run w
    let (rowid, w) ← w.rowKey table random key
    let w ← resolve.run w
    if stores then
      let w ← after.run (w.store table rowid)
      rest.run (w.noteStored table rowid)
    else rest.run w

/-- A later generated rowid is larger than an earlier stored one. -/
def Above : Event → Event → Prop
  | .generated table rowid, .stored table' rowid' => table = table' → rowid' < rowid
  | _, _ => True

structure Dominates (w : World) : Prop where
  stored : ∀ table rowid, .stored table rowid ∈ w.log → rowid ≤ w.rSeq table
  above : w.log.Pairwise Above

structure Grows (w w' : World) : Prop where
  rSeq : ∀ table, w.rSeq table ≤ w'.rSeq table
  dominates : Dominates w → Dominates w'

variable {w w' w'' : World} {table : String} {key : Int64} {random : Nat → Int64}

theorem rSeq_update (w : World) (t : String) :
    (w.updateSqliteSequence table (w.rSeqRowid table) key).rSeq t =
      if t = table then key else w.rSeq t := by
  obtain ⟨_, rows, _⟩ := w
  simp only [World.rSeq, World.rSeqRowid, World.updateSqliteSequence]
  induction rows with
  | nil => grind
  | cons row rows ih => cases h : rows.findIdx? (·.1 = table) <;> grind

theorem bind_ok {α β : Type} {x : Except DatabaseFull α} {f : α → Except DatabaseFull β} {b : β}
    (h : x.bind f = .ok b) : ∃ a, x = .ok a ∧ f a = .ok b := by
  cases x with
  | error e => cases h
  | ok a => exact ⟨a, rfl, h⟩

namespace Grows

theorem of_log (hlog : w'.log = w.log) (hseq : ∀ table, w.rSeq table ≤ w'.rSeq table) :
    Grows w w' := by
  refine ⟨hseq, fun h => ⟨fun table rowid hmem => ?_, hlog ▸ h.above⟩⟩
  exact le_trans (h.stored table rowid (hlog ▸ hmem)) (hseq table)

theorem refl (w : World) : Grows w w := of_log rfl fun _ => le_refl _

theorem trans (h : Grows w w') (h' : Grows w' w'') : Grows w w'' :=
  ⟨fun table => le_trans (h.rSeq table) (h'.rSeq table), h'.dominates ∘ h.dominates⟩

theorem update (hkey : w.rSeq table ≤ key) :
    Grows w (w.updateSqliteSequence table (w.rSeqRowid table) key) := by
  refine of_log rfl fun t => ?_
  rw [rSeq_update]
  split
  next h => exact h ▸ hkey
  next => exact le_refl _

theorem noteProvided (w : World) : Grows w (w.noteProvided table key) ∧
    key ≤ (w.noteProvided table key).rSeq table := by
  rw [World.noteProvided]
  refine ⟨update ?_, ?_⟩
  · grind [memMax]
  · grind [rSeq_update, memMax]

theorem noteStored (w : World) : Grows w (w.noteStored table key) := by
  rw [World.noteStored]
  split
  next => exact refl w
  next h => exact update (le_of_lt (Int64.not_le.1 h))

theorem ensureSequenceInitialized (w : World) : Grows w (w.ensureSequenceInitialized table) := by
  rw [World.ensureSequenceInitialized]
  split
  next h =>
    have hseq : w.rSeq table = 0 := by grind [World.rSeq, World.rSeqRowid]
    have hgrows := update (le_of_eq hseq)
    rwa [h] at hgrows
  next => exact refl w

theorem rowidGeneration (h : w.rowidGeneration table random = .ok (key, w')) :
    Grows w w' ∧ key ≤ w'.rSeq table := by
  obtain ⟨rMax, -, h⟩ := bind_ok h
  dsimp only at h
  split at h
  · cases h
  next hfull =>
    cases h
    have hlt : w.rSeq table < memMax (w.rSeq table) rMax + 1 := by grind [memMax]
    have hgrows := update (le_of_lt hlt)
    refine ⟨⟨hgrows.rSeq, fun hw => ⟨?_, .cons ?_ hw.above⟩⟩, ?_⟩
    · rintro t rowid (_ | ⟨_, hmem⟩)
      exact le_trans (hw.stored t rowid hmem) (hgrows.rSeq t)
    · rintro (_ | ⟨t, rowid⟩) hmem
      · trivial
      · rintro rfl
        exact lt_of_le_of_lt (hw.stored _ rowid hmem) hlt
    · exact le_of_eq ((rSeq_update w table).trans (if_pos rfl)).symm

theorem rowKey {k : Key} (h : w.rowKey table random k = .ok (key, w')) :
    Grows w w' ∧ key ≤ w'.rSeq table := by
  cases k with
  | omitted => exact rowidGeneration h
  | null =>
    obtain ⟨⟨key, w1⟩, hkey, h⟩ := bind_ok h
    cases h
    exact ⟨(rowidGeneration hkey).1.trans (noteProvided w1).1, (noteProvided w1).2⟩
  | value key =>
    cases h
    exact noteProvided w

theorem store (h : key ≤ w.rSeq table) : Grows w (w.store table key) := by
  refine ⟨fun _ => le_refl _, fun hw => ⟨?_, .cons (fun _ _ => trivial) hw.above⟩⟩
  rintro t rowid (_ | ⟨_, hmem⟩)
  · exact h
  · exact hw.stored t rowid hmem

theorem run {script : Script} (h : script.run w = .ok w') : Grows w w' := by
  induction script generalizing w w' with
  | done =>
    cases h
    exact refl w
  | ensureSequenceInitialized table rest ih => exact (ensureSequenceInitialized w).trans (ih h)
  | delete table gone rest ih =>
    have hdelete : Grows w (w.delete table gone) := of_log rfl fun _ => le_refl _
    exact hdelete.trans (ih h)
  | insert table key random before resolve stores after rest ihBefore ihResolve ihAfter ihRest =>
    obtain ⟨w1, hbefore, h⟩ := bind_ok h
    obtain ⟨⟨rowid, w2⟩, hkey, h⟩ := bind_ok h
    obtain ⟨w3, hresolve, h⟩ := bind_ok h
    have hgrows := (ihBefore hbefore).trans ((rowKey hkey).1.trans (ihResolve hresolve))
    cases stores with
    | false => exact hgrows.trans (ihRest h)
    | true =>
      obtain ⟨w4, hafter, h⟩ := bind_ok h
      have hstored := store (le_trans (rowKey hkey).2 ((ihResolve hresolve).rSeq table))
      have hafter := (ihAfter hafter).trans ((noteStored w4).trans (ihRest h))
      exact hgrows.trans (hstored.trans hafter)

end Grows

theorem rowidGeneration_full (h : w.rSeq table = maxValue) (random : Nat → Int64) :
    ∃ e, w.rowidGeneration table random = .error e := by
  rw [World.rowidGeneration, newRowid]
  split
  · exact ⟨_, rfl⟩
  · exact ⟨_, if_pos (by grind [memMax])⟩

/-- Each generated rowid is larger than all that were stored before, and none is generated once the
largest integer was stored. -/
theorem rowids_not_reused (script : Script) (rowids : String → List Int64)
    (sequence : List (String × Int64)) (w : World) (h : script.run ⟨rowids, sequence, []⟩ = .ok w) :
    w.log.Pairwise Above ∧ ∀ table random, .stored table maxValue ∈ w.log →
      ∃ e, w.rowidGeneration table random = .error e := by
  have hw : Dominates w := (Grows.run h).dominates ⟨nofun, .nil⟩
  refine ⟨hw.above, fun table random hmem => rowidGeneration_full ?_ random⟩
  exact Int64.le_antisymm (Int64.le_maxValue _) (hw.stored table _ hmem)

/-- The only row is deleted before a rowid is generated; then the largest integer is stored. -/
def deletedScript : Script :=
  .ensureSequenceInitialized "t" <|
    .insert "t" (.value 7) (fun _ => 0) .done .done true .done <|
      .delete "t" [7] <|
        .insert "t" .omitted (fun _ => 0) .done .done true .done <|
          .insert "t" (.value maxValue) (fun _ => 0) .done .done true .done .done

theorem rowids_not_reused_deleted : ∃ w, deletedScript.run ⟨fun _ => [], [], []⟩ = .ok w ∧
    w.log = [.stored "t" maxValue, .stored "t" 8, .generated "t" 8, .stored "t" 7] ∧
      w.log.Pairwise Above ∧ ∃ e, w.rowidGeneration "t" (fun _ => 0) = .error e := by
  obtain ⟨habove, hfull⟩ := rowids_not_reused deletedScript (fun _ => []) [] _ rfl
  exact ⟨_, rfl, rfl, habove, hfull "t" _ (.head _)⟩

end PgMicro.Autoincrement
