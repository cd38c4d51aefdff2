import PgMicro.Incremental.ViewTransaction
import PgMicro.Transition
import PgMicro.ZSet.Join

/-!
# View deltas and the contents of tables

While nothing is undone on a table with views, and no statement calls its table by another name or
counts a row of the B-tree twice, the delta of the table is the difference between its contents now
and at the start of the transaction.
-/

namespace PgMicro.Incremental

open Function List Option ViewConnection ViewTransactionState Transition

open Types (Value)
open ZSet (ofChanges)

def present (contents : Contents) (row : HashableRow) : ℤ :=
  if contents row.rowid = some row.values then 1 else 0

theorem present_update (contents : Contents) (key : Int64) (values : Option (List Value))
    (row : HashableRow) :
    present (update contents key values) row =
      if row.rowid = key then if values = some row.values then 1 else 0
      else present contents row := by
  rw [present, present, update_apply]
  split_ifs <;> rfl

theorem row_eq_iff {key : Int64} {values : List Value} {row : HashableRow} :
    (⟨key, values⟩ : HashableRow) = row ↔ row.rowid = key ∧ values = row.values := by
  constructor
  · rintro rfl
    exact ⟨rfl, rfl⟩
  · rintro ⟨rfl, rfl⟩
    rfl

noncomputable def deltaWeight (states : AllViewsTxState) (view table : String) (row : HashableRow) :
    ℤ :=
  ofChanges ((states view).tableDelta table) row

theorem deltaWeight_push (states : AllViewsTxState) (views : List String) (table' : String)
    (row' : HashableRow) (weight : ℤ) {view table : String} (row : HashableRow)
    (hview : table' = table → view ∈ views) :
    deltaWeight (states.push views table' row' weight) view table row =
      deltaWeight states view table row + if table' = table ∧ row' = row then weight else 0 := by
  rw [deltaWeight, deltaWeight, AllViewsTxState.push]
  by_cases htable : table' = table
  · rw [if_pos (hview htable), tableDelta, tableDelta,
      push, filter_append, map_append, ZSet.ofChanges_append,
      Finsupp.add_apply]
    simp [htable, Finsupp.single_apply]
  · have hsame : ((if view ∈ views then (states view).push table' row' weight
        else states view).tableDelta table) = (states view).tableDelta table := by
      split_ifs
      · simp [tableDelta, push, htable]
      · rfl
    rw [hsame, if_neg fun h => htable h.1, add_zero]

section

variable {dependents : String → List String} {view table : String}

section

variable (hview : view ∈ dependents table) (tableName : String)

include hview tableName

theorem deltaWeight_opInsert (cursor : TableCursor) (new row : HashableRow)
    (updateRowidChange : Bool) (states : AllViewsTxState) :
    deltaWeight (opInsert dependents tableName cursor new updateRowidChange states) view table row =
      deltaWeight states view table row -
        (if tableName = table ∧ updateRowidChange = false ∧
          captureRecord cursor new.rowid = some row then 1 else 0) +
        if tableName = table ∧ new = row then 1 else 0 := by
  have hdepends : tableName = table → view ∈ dependents tableName := fun h => h ▸ hview
  rw [opInsert, deltaWeight_push _ _ _ _ _ _ hdepends]
  cases updateRowidChange with
  | true => simp
  | false =>
    cases captureRecord cursor new.rowid with
    | none => simp
    | some old =>
      simp only [Bool.false_eq_true, if_false, true_and, some.injEq]
      rw [deltaWeight_push _ _ _ _ _ _ hdepends]
      split_ifs <;> omega

theorem deltaWeight_opDelete (key : Int64) (contents : Contents) (row : HashableRow)
    (states : AllViewsTxState) :
    deltaWeight (opDelete dependents tableName ⟨some key, contents key⟩ states) view table row =
      deltaWeight states view table row +
        if tableName = table then
          present (update contents key none) row - present contents row
        else 0 := by
  have hdepends : tableName = table → view ∈ dependents tableName := fun h => h ▸ hview
  rw [opDelete, present_update, present]
  cases hvalues : contents key with
  | none =>
    split_ifs <;> simp_all
  | some values =>
    rw [deltaWeight_push _ _ _ _ _ _ hdepends]
    simp only [row_eq_iff]
    split_ifs <;> simp_all

theorem deltaWeight_overwrite (key : Int64) (values : List Value) (contents : Contents)
    (row : HashableRow) (states : AllViewsTxState) :
    deltaWeight (opInsert dependents tableName ⟨some key, contents key⟩ ⟨key, values⟩ false states)
        view table row =
      deltaWeight states view table row +
        if tableName = table then
          present (update contents key (some values)) row - present contents row
        else 0 := by
  have hcapture : captureRecord ⟨some key, contents key⟩ key = some row ↔
      row.rowid = key ∧ contents key = some row.values := by
    rw [captureRecord]
    cases contents key with
    | none => simp
    | some values => simp [row_eq_iff]
  rw [deltaWeight_opInsert hview, present_update, present]
  simp only [row_eq_iff]
  split_ifs <;> simp_all [sub_eq_add_neg]

theorem deltaWeight_insertNew (cursor : TableCursor) (key : Int64) (values : List Value)
    (updateRowidChange : Bool)
    (hcapture : updateRowidChange = false → captureRecord cursor key = none) {contents : Contents}
    (hfree : contents key = none) (row : HashableRow) (states : AllViewsTxState) :
    deltaWeight (opInsert dependents tableName cursor ⟨key, values⟩ updateRowidChange states)
        view table row =
      deltaWeight states view table row +
        if tableName = table then
          present (update contents key (some values)) row - present contents row
        else 0 := by
  rw [deltaWeight_opInsert hview, present_update, present]
  simp only [row_eq_iff]
  split_ifs <;> simp_all

end

end

def RowChange.Tracked (dependents : String → List String) (mvcc : Bool) : RowChange → Prop
  | update table identifier _ _ inBtree =>
    (identifier = table ∨ dependents table = [] ∧ dependents identifier = []) ∧
      (mvcc = true → inBtree = true → dependents table = [])
  | insert table identifier .. | move table identifier .. =>
    identifier = table ∨ dependents table = [] ∧ dependents identifier = []
  | _ => True

theorem deltaWeight_opcodes {dependents : String → List String} {mvcc : Bool} {c : RowChange}
    (htracked : c.Tracked dependents mvcc) {contents contents' : Contents}
    (happly : c.apply contents = some contents') (states : AllViewsTxState) {view table : String}
    (hview : view ∈ dependents table) (row : HashableRow) :
    deltaWeight (c.opcodes dependents mvcc contents states) view table row =
      deltaWeight states view table row +
        if c.table = table then present contents' row - present contents row else 0 := by
  -- a table without views is not the one looked at
  have hviews {name : String} (h : dependents name = []) : name ≠ table := by
    rintro rfl
    rw [h] at hview
    cases hview
  have hname {name identifier : String}
      (h : identifier = name ∨ dependents name = [] ∧ dependents identifier = []) :
      identifier = table ↔ name = table := by
    rcases h with rfl | ⟨hn, hi⟩
    · rfl
    · simp [hviews hn, hviews hi]
  cases c with
  | insert table' identifier key values =>
    obtain ⟨hfree, happly⟩ := ite_none_right_eq_some.1 happly
    cases happly
    rw [RowChange.opcodes, deltaWeight_insertNew hview identifier _ key values false (fun _ => rfl)
      hfree, RowChange.table, if_congr (hname htracked) rfl rfl]
  | delete table' key =>
    obtain ⟨-, happly⟩ := ite_none_left_eq_some.1 happly
    cases happly
    exact deltaWeight_opDelete hview table' key contents row states
  | upsert table' key values =>
    obtain ⟨-, happly⟩ := ite_none_left_eq_some.1 happly
    cases happly
    exact deltaWeight_overwrite hview table' key values contents row states
  | update table' identifier key values inBtree =>
    obtain ⟨-, happly⟩ := ite_none_left_eq_some.1 happly
    cases happly
    obtain ⟨hidentifier, hresident⟩ := htracked
    rw [RowChange.opcodes]
    cases mvcc with
    | false =>
      simp only [Bool.false_eq_true, if_false]
      rw [deltaWeight_overwrite hview, RowChange.table, if_congr (hname hidentifier) rfl rfl]
    | true =>
      cases inBtree with
      | false =>
        have hfree : update contents key none key = none := update_self ..
        simp only [if_true, Bool.false_eq_true]
        rw [deltaWeight_insertNew hview identifier _ key values false (fun _ => rfl) hfree,
          deltaWeight_opDelete hview, update_idem, RowChange.table,
          if_congr (hname hidentifier) rfl rfl]
        split_ifs <;> omega
      | true =>
        have htable := hviews (hresident rfl rfl)
        have hother := mt (hname hidentifier).1 htable
        simp only [if_true]
        rw [deltaWeight_opInsert hview, deltaWeight_opDelete hview, RowChange.table]
        simp [htable, hother]
  | move table' identifier key newKey values =>
    obtain ⟨hfree, happly⟩ := ite_none_left_eq_some.1 happly
    cases happly
    rw [not_or, not_not] at hfree
    rw [RowChange.opcodes, deltaWeight_insertNew hview identifier _ newKey values true (by simp)
      hfree.2, deltaWeight_opDelete hview]
    rw [RowChange.table, if_congr (hname htracked) rfl rfl]
    split_ifs <;> omega

def Harmless (dependents : String → List String) (now restored : String → Contents) : Prop :=
  ∀ table, dependents table ≠ [] → restored table = now table

def Follows (dependents : String → List String) (mvcc : Bool) (s : ViewConnection) :
    ViewAction → Prop
  | .change c => c.Tracked dependents mvcc
  | .rollbackStatement => Harmless dependents s.tables s.statement
  | .rollbackTo name => ∀ sp ∈ s.savepointNamed name, Harmless dependents s.tables sp.2
  | .abortTransaction => Harmless dependents s.tables s.start
  | _ => True

structure Agrees (dependents : String → List String) (s : ViewConnection) : Prop where
  deltas : ∀ table view, view ∈ dependents table → ∀ row,
    deltaWeight s.states view table row =
      present (s.tables table) row - present (s.start table) row
  cursors : ∀ cursor ∈ s.cursors,
    cursor.uncommitted.changes <+: (s.states cursor.view).changes ∧
      cursor.lastTxStateLen = cursor.uncommitted.len

open MaterializedViewCursor

section

variable (dependents : String → List String) (states : AllViewsTxState) (view : String)

theorem push_grows (views : List String) (table : String) (row : HashableRow) (weight : ℤ) :
    (states view).changes <+: (states.push views table row weight view).changes := by
  rw [AllViewsTxState.push]
  split_ifs
  · exact prefix_append _ _
  · exact prefix_rfl

theorem opDelete_grows (tableName : String) (cursor : TableCursor) :
    (states view).changes <+: (opDelete dependents tableName cursor states view).changes := by
  obtain ⟨rowid, record⟩ := cursor
  cases rowid with
  | none => exact prefix_rfl
  | some key =>
    cases record with
    | none => exact prefix_rfl
    | some values => exact push_grows states view _ _ _ _

theorem opInsert_grows (tableName : String) (cursor : TableCursor) (row : HashableRow)
    (updateRowidChange : Bool) :
    (states view).changes <+:
      (opInsert dependents tableName cursor row updateRowidChange states view).changes := by
  refine List.IsPrefix.trans ?_ (push_grows _ view _ _ _ _)
  cases (if updateRowidChange then none else captureRecord cursor row.rowid) with
  | none => exact prefix_rfl
  | some old => exact push_grows states view _ _ _ _

theorem opcodes_grows (mvcc : Bool) (contents : Contents) (c : RowChange) :
    (states view).changes <+: (c.opcodes dependents mvcc contents states view).changes := by
  cases c with
  | insert => exact opInsert_grows dependents states view _ _ _ _
  | delete => exact opDelete_grows dependents states view _ _
  | upsert => exact opInsert_grows dependents states view _ _ _ _
  | update =>
    rw [RowChange.opcodes]
    split
    · exact (opDelete_grows dependents states view _ _).trans
        (opInsert_grows dependents _ view _ _ _ _)
    · exact opInsert_grows dependents states view _ _ _ _
  | move =>
    exact (opDelete_grows dependents states view _ _).trans
      (opInsert_grows dependents _ view _ _ _ _)

end

theorem ensureTxChangesComputed_eq {cursor : MaterializedViewCursor} {states : AllViewsTxState}
    (hseen : cursor.uncommitted.changes <+: (states cursor.view).changes)
    (hlen : cursor.lastTxStateLen = cursor.uncommitted.len) :
    (cursor.ensureTxChangesComputed states).uncommitted = states cursor.view := by
  rw [ensureTxChangesComputed]
  split
  next hsame =>
    exact ViewTransactionState.ext (hseen.eq_of_length (hlen.symm.trans hsame.symm))
  · rfl

namespace Agrees

variable {dependents : String → List String} {mvcc : Bool} {s s' : ViewConnection}

theorem endTransaction (tables : String → Contents) {states : AllViewsTxState}
    (hstates : ∀ table view, view ∈ dependents table → ∀ row,
      deltaWeight states view table row = 0) :
    Agrees dependents (endTransaction tables states) := by
  constructor
  · intro table view hview row
    rw [ViewConnection.endTransaction, sub_self]
    exact hstates table view hview row
  · intro cursor hcursor
    cases hcursor

theorem restore (h : Agrees dependents s) {restored : String → Contents}
    (hharmless : Harmless dependents s.tables restored) {table view : String}
    (hview : view ∈ dependents table) (row : HashableRow) :
    deltaWeight s.states view table row =
      present (restored table) row - present (s.start table) row := by
  rw [hharmless table (ne_nil_of_mem hview)]
  exact h.deltas table view hview row

theorem exec {a : ViewAction} (hfollows : Follows dependents mvcc s a) (h : Agrees dependents s)
    (hexec : s.exec dependents mvcc a = some s') : Agrees dependents s' := by
  cases a with
  | change c =>
    obtain ⟨contents, happly, rfl⟩ := map_eq_some_iff.1 hexec
    constructor
    · intro table view hview row
      have hold := h.deltas table view hview row
      simp only
      rw [deltaWeight_opcodes hfollows happly s.states hview row, hold, update_apply]
      by_cases htable : table = c.table
      · subst htable
        rw [if_pos rfl, if_pos rfl]
        omega
      · rw [if_neg (Ne.symm htable), if_neg htable, add_zero]
    · intro cursor hcursor
      obtain ⟨hseen, hlen⟩ := h.cursors cursor hcursor
      exact ⟨hseen.trans (opcodes_grows _ _ _ _ _ _), hlen⟩
  | rollbackStatement =>
    cases hexec
    exact ⟨fun _ _ hview => h.restore hfollows hview, h.cursors⟩
  | rollbackTo name =>
    obtain ⟨sp, hsp, rfl⟩ := map_eq_some_iff.1 hexec
    exact ⟨fun _ _ hview => h.restore (hfollows sp hsp) hview, h.cursors⟩
  | release name =>
    obtain ⟨sp, -, rfl⟩ := map_eq_some_iff.1 hexec
    exact ⟨h.deltas, h.cursors⟩
  | openCursor view =>
    cases hexec
    refine ⟨h.deltas, fun cursor hcursor => ?_⟩
    rcases mem_cons.1 hcursor with rfl | hcursor
    · exact ⟨List.nil_prefix, rfl⟩
    · exact h.cursors cursor hcursor
  | readCursors =>
    cases hexec
    refine ⟨h.deltas, fun cursor hcursor => ?_⟩
    obtain ⟨old, hold, rfl⟩ := mem_map.1 hcursor
    obtain ⟨hseen, hlen⟩ := h.cursors old hold
    have hview : (old.ensureTxChangesComputed s.states).view = old.view := by
      rw [ensureTxChangesComputed]
      split <;> rfl
    rw [hview, ensureTxChangesComputed_eq hseen hlen]
    refine ⟨prefix_rfl, ?_⟩
    rw [ensureTxChangesComputed]
    split
    next hsame =>
      exact hsame.symm
    · rfl
  | commit =>
    cases hexec
    exact endTransaction _ fun _ _ _ _ => rfl
  | rollback =>
    cases hexec
    exact endTransaction _ fun _ _ _ _ => rfl
  | abortTransaction =>
    cases hexec
    refine endTransaction _ fun table view hview row => ?_
    rw [h.restore hfollows hview, sub_self]
  | beginStatement =>
    cases hexec
    exact ⟨h.deltas, h.cursors⟩
  | savepoint name =>
    cases hexec
    exact ⟨h.deltas, h.cursors⟩

end Agrees

variable {dependents : String → List String} {mvcc : Bool}

/-- In every state of a run that undoes nothing on tables with views, what a commit would merge into
a view that calls the table by its name is the difference of the contents, and so is what cursors on
the view compute with. -/
theorem viewDeltas_follow_contents {tables : String → Contents} {actions : List ViewAction}
    {s : ViewConnection} (hmeets : Transition.Meets (exec dependents mvcc) (Follows dependents mvcc)
      (.initial tables) actions)
    (hrun : run (exec dependents mvcc) (.initial tables) actions = some s)
    {table scanned view : String} (hview : view ∈ dependents table) (hscanned : scanned = table)
    (row : HashableRow) :
    ofChanges (s.mergedDelta view scanned) row =
        present (s.tables table) row - present (s.start table) row ∧
      ∀ cursor ∈ s.cursors, cursor.view = view →
        ofChanges (s.cursorDelta cursor scanned) row =
          present (s.tables table) row - present (s.start table) row := by
  subst hscanned
  have hagrees : Agrees dependents s :=
    run_preserves (Q := Agrees dependents)
      (fun hfollows h hexec => h.exec hfollows hexec) hmeets
      (Agrees.endTransaction tables fun _ _ _ _ => rfl) hrun
  constructor
  · exact hagrees.deltas scanned view hview row
  · rintro cursor hcursor rfl
    obtain ⟨hseen, hlen⟩ := hagrees.cursors cursor hcursor
    rw [cursorDelta, ensureTxChangesComputed_eq hseen hlen]
    exact hagrees.deltas scanned cursor.view hview row

def oneView (table : String) : List String := if table = "t" ∨ table = "T" then ["v"] else []

def otherTableUndone : List ViewAction :=
  [.change (.insert "t" "t" 1 []), .savepoint "p", .change (.insert "u" "u" 1 []), .rollbackTo "p"]

theorem viewDeltas_follow_contents_otherTable :
    ∃ s, run (exec oneView false) (.initial fun _ _ => none)
        otherTableUndone = some s ∧ ofChanges (s.mergedDelta "v" "t") ⟨1, []⟩ = 1 - 0 := by
  have hmeets : Transition.Meets (exec oneView false) (Follows oneView false)
      (.initial fun _ _ => none) otherTableUndone := by
    simp only [otherTableUndone, Transition.Meets, Follows, RowChange.Tracked, true_or, true_and]
    rintro s1 ⟨⟩ s2 ⟨⟩ s3 ⟨⟩
    refine ⟨?_, fun _ _ => trivial⟩
    rintro sp ⟨⟩ table htable
    have htable : table = "t" ∨ table = "T" := by
      by_contra hne
      exact htable (if_neg hne)
    rcases htable with rfl | rfl <;> rfl
  refine ⟨_, rfl, ?_⟩
  exact (viewDeltas_follow_contents hmeets rfl (show "v" ∈ oneView "t" by decide) rfl ⟨1, []⟩).1

/-- What is rolled back, to a savepoint or with a statement that fails, stays in the delta, and the
rows of a transaction that is aborted are found in the delta of the next one. An UPDATE under an
alias and an INSERT that writes the name in another case do not reach the delta, and an UPDATE of a
row of the B-tree in MVCC mode deletes the old row from it twice. -/
theorem rolledBack_rows_stay_in_delta :
    (∃ s, run (exec oneView false) (.initial fun _ _ => none)
        [.savepoint "p", .change (.insert "t" "t" 1 []), .rollbackTo "p"] = some s ∧
      ofChanges (s.mergedDelta "v" "t") ⟨1, []⟩ = 1 ∧
      present (s.tables "t") ⟨1, []⟩ - present (s.start "t") ⟨1, []⟩ = 0) ∧
    (∃ s, run (exec oneView false) (.initial fun _ _ => none)
        [.beginStatement, .change (.insert "t" "t" 1 []), .rollbackStatement] = some s ∧
      ofChanges (s.mergedDelta "v" "t") ⟨1, []⟩ = 1 ∧
      present (s.tables "t") ⟨1, []⟩ - present (s.start "t") ⟨1, []⟩ = 0) ∧
    (∃ s, run (exec oneView false) (.initial fun _ _ => none)
        [.change (.insert "t" "t" 1 []), .abortTransaction] = some s ∧
      ofChanges (s.mergedDelta "v" "t") ⟨1, []⟩ = 1 ∧
      present (s.tables "t") ⟨1, []⟩ - present (s.start "t") ⟨1, []⟩ = 0) ∧
    (∃ s, run (exec oneView false) (.initial fun _ _ => none)
        [.change (.insert "t" "t" 1 []), .change (.update "t" "x" 1 [.null] false)] = some s ∧
      ofChanges (s.mergedDelta "v" "t") ⟨1, []⟩ = 1 ∧
      present (s.tables "t") ⟨1, []⟩ - present (s.start "t") ⟨1, []⟩ = 0) ∧
    (∃ s, run (exec oneView false) (.initial fun _ _ => none)
        [.change (.insert "t" "T" 1 [])] = some s ∧
      ofChanges (s.mergedDelta "v" "t") ⟨1, []⟩ = 0 ∧
      present (s.tables "t") ⟨1, []⟩ - present (s.start "t") ⟨1, []⟩ = 1) ∧
    ∃ s, run (exec oneView true) (.initial fun _ _ => none)
        [.change (.insert "t" "t" 1 []), .change (.update "t" "t" 1 [.null] true)] = some s ∧
      ofChanges (s.mergedDelta "v" "t") ⟨1, []⟩ = -1 ∧
      present (s.tables "t") ⟨1, []⟩ - present (s.start "t") ⟨1, []⟩ = 0 := by
  have hone : ofChanges [((⟨1, []⟩ : HashableRow), 1)] ⟨1, []⟩ = 1 := by
    simp
  have htwice : ofChanges [((⟨1, []⟩ : HashableRow), 1), (⟨1, []⟩, -1), (⟨1, []⟩, -1),
      (⟨1, [.null]⟩, 1)] ⟨1, []⟩ = -1 := by
    simp
  exact ⟨⟨_, rfl, hone, rfl⟩, ⟨_, rfl, hone, rfl⟩, ⟨_, rfl, hone, rfl⟩, ⟨_, rfl, hone, rfl⟩,
    ⟨_, rfl, rfl, rfl⟩, ⟨_, rfl, htwice, rfl⟩⟩

end PgMicro.Incremental
