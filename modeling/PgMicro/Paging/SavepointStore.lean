import PgMicro.Paging.Savepoints
import PgMicro.UndoLog.Images

/-!
# What savepoints are for

A store of pages with nested savepoints, each of which keeps the contents of all pages. The pager
refines it: what it reads are the contents of the store.
-/

namespace PgMicro.Paging

open KeyedLog UndoLog List

structure Store (α : Type) where
  contents : Nat → α
  saved : List (SavepointKind × (Nat → α))

namespace Store

variable {α : Type}

def dbSize (format : Format α) (t : Store α) : Nat := format.databaseSize (t.contents 1)

def allocatePage (format : Format α) (t : Store α) (extra : Nat) : Store α :=
  let dbSize := t.dbSize format + extra + 1
  { t with contents := fun page =>
      if page = 1 then format.setDatabaseSize (t.contents 1) dbSize
      else if t.dbSize format < page ∧ page ≤ dbSize then format.newPage
      else t.contents page }

def fromNamed (name : String) (saved : List (SavepointKind × (Nat → α))) :
    List (SavepointKind × (Nat → α)) :=
  saved.dropWhile fun savepoint => ¬ savepoint.1.isNamed name

def releaseSavepoint (t : Store α) : Store α :=
  match t.saved with
  | [] => t
  | (kind, _) :: saved => if kind = .statement then { t with saved } else t

def releaseNamedSavepoint (t : Store α) (name : String) : Store α :=
  match fromNamed name t.saved with
  | [] => t
  | (kind, _) :: saved =>
    if kind.startsTransaction ∧ saved.length = 0 then t else { t with saved }

def rollbackToNewestSavepoint (t : Store α) : Store α :=
  match t.saved with
  | [] => t
  | (kind, contents) :: saved => if kind = .statement then ⟨contents, saved⟩ else t

def rollbackToNamedSavepoint (t : Store α) (name : String) : Store α :=
  match fromNamed name t.saved with
  | [] => t
  | (kind, contents) :: saved => ⟨contents, (kind, contents) :: saved⟩

def exec (format : Format α) (t : Store α) : Action α → Option (Store α)
  | .readPage _ | .evict _ | .spill _ => some t
  | .modify page contents =>
    some { t with contents := Function.update t.contents page contents }
  | .allocatePage extra => some (t.allocatePage format extra)
  | .openSavepoint kind _ => some { t with saved := (kind, t.contents) :: t.saved }
  | .releaseSavepoint => some t.releaseSavepoint
  | .releaseNamedSavepoint name => some (t.releaseNamedSavepoint name)
  | .rollbackToNewestSavepoint => some t.rollbackToNewestSavepoint
  | .rollbackToNamedSavepoint name => some (t.rollbackToNamedSavepoint name)

end Store

variable {α β : Type} {format : Format α} {dirty dirty' : Finset Nat} {n i j : Nat}
  {journal wal : List (Nat × α)} {contents saved : Nat → α} {page : Nat} {value : α}
  {savepoint : Savepoint} {savepoints : List Savepoint} {saves : List (SavepointKind × (Nat → α))}
  {l : List β}

structure Span (dirty : Finset Nat) (savepoint : Savepoint) (entries frames : List (Nat × α))
    (saved contents : Nat → α) : Prop where
  undoes : Undoes entries (· ≤ savepoint.dbSize) saved contents
  bitmap : ∀ page ∈ savepoint.pageBitmap, entries.lookup page ≠ none
  dirty : ∀ page ≤ savepoint.dbSize, entries.lookup page ≠ none → page ∈ dirty
  frames : ∀ page ≤ savepoint.dbSize, entries.lookup page = none → ∀ frame ∈ frames, frame.1 ≠ page

inductive Stacked (format : Format α) (dirty : Finset Nat) :
    Nat → List (Nat × α) → List (Nat × α) → (Nat → α) → List Savepoint →
      List (SavepointKind × (Nat → α)) → Prop
  | nil {n : Nat} {journal wal : List (Nat × α)} {contents : Nat → α} (empty : journal = []) :
    Stacked format dirty n journal wal contents [] []
  | cons {n : Nat} {journal wal : List (Nat × α)} {contents saved : Nat → α}
      {savepoint : Savepoint} {savepoints : List Savepoint}
      {saves : List (SavepointKind × (Nat → α))}
      (size : savepoint.dbSize = format.databaseSize (saved 1))
      (positive : 1 ≤ savepoint.dbSize)
      (bounded : savepoint.dbSize ≤ n)
      (start : savepoint.startOffset ≤ journal.length)
      (walStart : savepoint.walMaxFrame ≤ wal.length)
      (span : Span dirty savepoint (journal.drop savepoint.startOffset)
        (wal.drop savepoint.walMaxFrame) saved contents)
      (below : Stacked format dirty savepoint.dbSize (journal.take savepoint.startOffset)
        (wal.take savepoint.walMaxFrame) saved savepoints saves) :
    Stacked format dirty n journal wal contents (savepoint :: savepoints)
      ((savepoint.kind, saved) :: saves)

section

variable {entries entries' frames frames' : List (Nat × α)} {middle : Nat → α}

theorem Span.mono_dirty (h : Span dirty savepoint entries frames saved contents)
    (hdirty : ∀ page ≤ savepoint.dbSize, page ∈ dirty → page ∈ dirty') :
    Span dirty' savepoint entries frames saved contents :=
  ⟨h.undoes, h.bitmap, fun page hle hlogged => hdirty page hle (h.dirty page hle hlogged), h.frames⟩

theorem Span.append {later : Savepoint} (h : Span dirty savepoint entries frames saved middle)
    (h' : Span dirty later entries' frames' middle contents)
    (hsize : savepoint.dbSize ≤ later.dbSize) :
    Span dirty savepoint (entries ++ entries') (frames ++ frames') saved contents := by
  refine ⟨h.undoes.append (h'.undoes.mono fun page hle => Nat.le_trans hle hsize), ?_, ?_, ?_⟩
  · intro page hpage hnone
    exact h.bitmap page hpage (lookup_append_eq_none.1 hnone).1
  · intro page hle hlogged
    cases hfirst : entries.lookup page with
    | some value => exact h.dirty page hle (by rw [hfirst]; exact Option.some_ne_none _)
    | none =>
      refine h'.dirty page (Nat.le_trans hle hsize) fun hnone => hlogged ?_
      exact lookup_append_eq_none.2 ⟨hfirst, hnone⟩
  · intro page hle hnone frame hframe
    obtain ⟨hfirst, hlater⟩ := lookup_append_eq_none.1 hnone
    rcases mem_append.1 hframe with hframe | hframe
    · exact h.frames page hle hfirst frame hframe
    · exact h'.frames page (Nat.le_trans hle hsize) hlater frame hframe

section

variable (h : Span dirty savepoint entries frames saved contents)

include h

theorem Span.addImage (hdirty : page ∈ dirty) :
    Span dirty { savepoint with
      pageBitmap := insert page savepoint.pageBitmap
      writeOffset := n } (entries ++ [(page, contents page)]) frames saved contents := by
  refine ⟨h.undoes.concat, ?_, ?_, ?_⟩
  · intro page' hpage'
    rcases Finset.mem_insert.1 hpage' with rfl | hpage'
    · exact lookup_concat_ne_none
    · exact fun hnone => h.bitmap page' hpage' (lookup_append_eq_none.1 hnone).1
  · intro page' hle hlogged
    rcases eq_or_ne page' page with rfl | hne
    · exact hdirty
    · refine h.dirty page' hle fun hnone => hlogged (lookup_append_eq_none.2 ⟨hnone, ?_⟩)
      rw [lookup_cons, beq_false_of_ne hne]
      rfl
  · intro page' hle hnone
    exact h.frames page' hle (lookup_append_eq_none.1 hnone).1

theorem Span.write (hlogged : page ≤ savepoint.dbSize → entries.lookup page ≠ none) :
    Span dirty savepoint entries frames saved (Function.update contents page value) :=
  ⟨h.undoes.update hlogged, h.bitmap, h.dirty, h.frames⟩

theorem Span.spill
    (hlogged : ∀ frame ∈ frames', frame.1 ≤ savepoint.dbSize → entries.lookup frame.1 ≠ none) :
    Span dirty savepoint entries (frames ++ frames') saved contents := by
  refine ⟨h.undoes, h.bitmap, h.dirty, ?_⟩
  intro page hle hnone frame hframe
  rcases mem_append.1 hframe with hframe | hframe
  · exact h.frames page hle hnone frame hframe
  · rintro rfl
    exact hlogged frame hframe hle hnone

end

end

namespace Stacked

section

variable (h : Stacked format dirty n journal wal contents savepoints saves)

include h

theorem mono_dirty (hdirty : ∀ page ≤ n, page ∈ dirty → page ∈ dirty') :
    Stacked format dirty' n journal wal contents savepoints saves := by
  induction h with
  | nil empty => exact .nil empty
  | cons size positive bounded start walStart span _ ih =>
    have hdirty' : ∀ page ≤ _, page ∈ dirty → page ∈ dirty' :=
      fun page hle => hdirty page (Nat.le_trans hle bounded)
    exact .cons size positive bounded start walStart (span.mono_dirty hdirty') (ih hdirty')

theorem mono_size {n' : Nat} (hle : n ≤ n') :
    Stacked format dirty n' journal wal contents savepoints saves := by
  cases h with
  | nil empty => exact .nil empty
  | cons size positive bounded start walStart span below =>
    exact .cons size positive (Nat.le_trans bounded hle) start walStart span below

theorem kinds : savepoints.map Savepoint.kind = saves.map Prod.fst := by
  induction h with
  | nil => rfl
  | cons _ _ _ _ _ _ _ ih => rw [map_cons, map_cons, ih]

theorem setWriteOffset (offset : Nat) :
    Stacked format dirty n journal wal contents (setWriteOffset offset savepoints) saves := by
  cases h with
  | nil empty => exact .nil empty
  | cons size positive bounded start walStart span below =>
    exact .cons size positive bounded start walStart
      ⟨span.undoes, span.bitmap, span.dirty, span.frames⟩ below

end

theorem drop_take_append (h : i ≤ (l.take j).length) :
    (l.take j).drop i ++ l.drop j = l.drop i := by
  rw [← drop_append_of_le_length h, take_append_drop]

theorem take_take_of_le (h : i ≤ (l.take j).length) : (l.take j).take i = l.take i := by
  rw [length_take] at h
  rw [take_take, Nat.min_eq_left (by omega)]

theorem pop (h : Stacked format dirty n journal wal contents (savepoint :: savepoints) saves)
    (hne : savepoints ≠ []) :
    Stacked format dirty n journal wal contents savepoints saves.tail := by
  cases h with
  | cons _ _ bounded _ _ span below =>
    cases below with
    | nil => exact absurd rfl hne
    | cons size positive bounded' start' walStart' span' below =>
      have hspan := span'.append span bounded'
      rw [drop_take_append start', drop_take_append walStart'] at hspan
      rw [take_take_of_le start', take_take_of_le walStart'] at below
      rw [length_take] at start' walStart'
      exact .cons size positive (by omega) (by omega) (by omega) hspan below

section

variable (h : Stacked format dirty n journal wal contents savepoints saves)

include h

theorem fromNamed (name : String) :
    (fromNamed name savepoints = [] → Store.fromNamed name saves = []) ∧
      (fromNamed name savepoints ≠ [] →
        Stacked format dirty n journal wal contents (fromNamed name savepoints)
          (Store.fromNamed name saves)) := by
  induction savepoints generalizing saves with
  | nil =>
    cases h with
    | nil empty => exact ⟨fun _ => rfl, fun hne => absurd rfl hne⟩
  | cons savepoint savepoints ih =>
    have hkinds := h.kinds
    cases saves with
    | nil => cases hkinds
    | cons save saves =>
      obtain ⟨hkind, -⟩ := cons.inj hkinds
      rw [Paging.fromNamed, Store.fromNamed, dropWhile_cons, dropWhile_cons, ← hkind]
      split
      · rcases eq_nil_or_concat savepoints with rfl | hconcat
        · have hlength := congrArg length hkinds
          obtain rfl : saves = [] := by
            cases saves with
            | nil => rfl
            | cons => simp at hlength
          exact ⟨fun _ => rfl, fun hne => absurd rfl hne⟩
        · exact ih (h.pop (by obtain ⟨_, _, rfl⟩ := hconcat; simp))
      · refine ⟨fun hnil => ?_, fun _ => h⟩
        cases hnil

theorem push (savepoint : Savepoint) (hsize : savepoint.dbSize = format.databaseSize (contents 1))
    (hpositive : 1 ≤ savepoint.dbSize) (hbounded : n = savepoint.dbSize)
    (hstart : savepoint.startOffset = journal.length) (hwal : savepoint.walMaxFrame = wal.length)
    (hbitmap : savepoint.pageBitmap = ∅) :
    Stacked format dirty n journal wal contents (savepoint :: savepoints)
      ((savepoint.kind, contents) :: saves) := by
  subst hbounded
  refine .cons hsize hpositive (Nat.le_refl _) (Nat.le_of_eq hstart) (Nat.le_of_eq hwal) ?_ ?_
  · rw [hstart, hwal, drop_length, drop_length]
    refine ⟨.refl _ _, ?_, fun _ _ hlogged => absurd rfl hlogged, fun _ _ _ _ hframe => ?_⟩
    · rw [hbitmap]
      exact fun _ hpage => absurd hpage (Finset.notMem_empty _)
    · cases hframe
  · rw [hstart, hwal, take_length, take_length]
    exact h

end

def Logged (journal : List (Nat × α)) (savepoints : List Savepoint) (page : Nat) : Prop :=
  ∀ savepoint ∈ savepoints.head?, page ≤ savepoint.dbSize →
    (journal.drop savepoint.startOffset).lookup page ≠ none

section

variable (h : Stacked format dirty n journal wal contents savepoints saves)

include h

theorem write (hlogged : Logged journal savepoints page) :
    Stacked format dirty n journal wal (Function.update contents page value) savepoints saves := by
  cases h with
  | nil empty => exact .nil empty
  | cons size positive bounded start walStart span below =>
    exact .cons size positive bounded start walStart (span.write (hlogged _ rfl)) below

theorem spill {frames : List (Nat × α)}
    (hlogged : ∀ frame ∈ frames, Logged journal savepoints frame.1) :
    Stacked format dirty n journal (wal ++ frames) contents savepoints saves := by
  cases h with
  | nil empty => exact .nil empty
  | cons size positive bounded start walStart span below =>
    refine .cons size positive bounded start ?_ ?_ ?_
    · rw [length_append]
      omega
    · rw [drop_append_of_le_length walStart]
      exact span.spill fun frame hframe => hlogged frame hframe _ rfl
    · rw [take_append_of_le_length walStart]
      exact below

end

theorem addImage (h : Stacked format dirty n journal wal contents (savepoint :: savepoints) saves)
    (hdirty : page ∈ dirty) {offset : Nat} :
    Stacked format dirty n (journal ++ [(page, contents page)]) wal contents
      ({ savepoint with
        pageBitmap := insert page savepoint.pageBitmap
        writeOffset := offset } :: savepoints) saves := by
  cases h with
  | cons size positive bounded start walStart span below =>
    refine .cons size positive bounded ?_ walStart ?_ ?_
    · rw [length_append]
      exact Nat.le_add_right_of_le start
    · rw [drop_append_of_le_length start]
      exact span.addImage hdirty
    · rw [take_append_of_le_length start]
      exact below

end Stacked

end PgMicro.Paging
