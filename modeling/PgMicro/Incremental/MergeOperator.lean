import PgMicro.Arrivals
import PgMicro.Incremental.Dbsp
import PgMicro.Types.ValueOrder

/-!
# The merge operator

`core/incremental/merge_operator.rs`, with the source identifiers that `compile_union` gives it. Its
map lives in memory: a circuit that is compiled again starts with an empty one, and numbers the rows
that come to it from 1 on. The hash functions are parameters, and a history does not run out of
rowids.
-/

namespace PgMicro.Incremental

open Arrivals
open Types (Value)

/-- A plan as far as `extract_source_identifier` reads it. A union that does not have two inputs
is not compiled. -/
inductive LogicalPlan where
  | tableScan (tableName : String)
  | projection (input : LogicalPlan)
  | filter (input : LogicalPlan)
  | aggregate (input : LogicalPlan)
  | sort (input : LogicalPlan)
  | limit (input : LogicalPlan)
  | join (left right : LogicalPlan)
  | union (left right : LogicalPlan)
  | distinct (input : LogicalPlan)
  | withCTE (body : LogicalPlan)
  | cteRef (name : String)
  | emptyRelation
  | values

@[simp] def extractSourceIdentifier : LogicalPlan → String
  | .tableScan tableName => tableName
  | .projection input | .filter input | .sort input | .limit input => extractSourceIdentifier input
  | .aggregate input => "agg_" ++ extractSourceIdentifier input
  | .join left right =>
    "join_" ++ extractSourceIdentifier left ++ "_" ++ extractSourceIdentifier right
  | .union left right =>
    "union_" ++ extractSourceIdentifier left ++ "_" ++ extractSourceIdentifier right
  | .distinct input => "distinct_" ++ extractSourceIdentifier input
  | .withCTE body => extractSourceIdentifier body
  | .cteRef name => "cte_" ++ name
  | .emptyRelation => "empty"
  | .values => "values"

inductive UnionMode where
  | distinct
  | all (leftTable rightTable : String)

@[simp] def compileUnion (all : Bool) (left right : LogicalPlan) : UnionMode :=
  if all then .all (extractSourceIdentifier left) (extractSourceIdentifier right) else .distinct

/-- A row of one of the two input deltas. -/
structure SourceRow where
  isLeft : Bool
  row : HashableRow
  weight : Int

/-- An output row with the row it stems from, which has its values and weight. -/
structure MergedRow where
  source : SourceRow
  rowid : Nat

structure MergeOperator where
  seenRows : UInt64 → Option Nat
  nextRowid : Nat

@[simp] def MergeOperator.new : MergeOperator := ⟨fun _ => none, 1⟩

@[simp] def MergeOperator.assign (op : MergeOperator) (key : UInt64) : MergeOperator × Nat :=
  match op.seenRows key with
  | some existing => (op, existing)
  | none =>
    (⟨Function.update op.seenRows key (some op.nextRowid), op.nextRowid + 1⟩, op.nextRowid)

/-- The text that `hash_values` makes of the values alone. -/
def HashableRow.valuesText (row : HashableRow) : List UInt8 :=
  [0].intercalate ((.integer 0 :: row.values).map hashText)

/-- The hash of a text and the two uses of `DefaultHasher`. -/
structure Hashes where
  text : List UInt8 → Hash128
  name : String → UInt64
  pair : UInt64 → Int64 → UInt64

def SourceRow.table (x : SourceRow) (leftTable rightTable : String) : String :=
  if x.isLeft then leftTable else rightTable

@[simp] def UnionMode.key (hashes : Hashes) (mode : UnionMode) (x : SourceRow) : UInt64 :=
  match mode with
  | .distinct => (HashableRow.cachedHash hashes.text ⟨0, x.row.values⟩).asI64.toUInt64
  | .all leftTable rightTable =>
    hashes.pair (hashes.name (x.table leftTable rightTable)) x.row.rowid

variable (hashes : Hashes) (mode : UnionMode)

namespace MergeOperator

@[simp] def transform (op : MergeOperator) : List SourceRow → MergeOperator × List MergedRow
  | [] => (op, [])
  | x :: xs =>
    let (op, rowid) := op.assign (mode.key hashes x)
    let (op, output) := transform op xs
    (op, ⟨x, rowid⟩ :: output)

@[simp] def transformDelta (op : MergeOperator) (isLeft : Bool) (delta : Delta) :
    MergeOperator × List MergedRow :=
  op.transform hashes mode (delta.map fun (row, weight) => ⟨isLeft, row, weight⟩)

/-- `commit`, and `eval` where a transaction reads its own changes. -/
@[simp] def commit (op : MergeOperator) (deltas : DeltaPair) : MergeOperator × List MergedRow :=
  let (op, left) := op.transformDelta hashes mode true deltas.left
  let (op, right) := op.transformDelta hashes mode false deltas.right
  (op, left ++ right)

end MergeOperator

inductive MergeEvent where
  | delta (deltas : DeltaPair)
  | reopen

/-- The operator and all that it has put out since the view was created. -/
structure MergeHistory where
  operator : MergeOperator := .new
  output : List MergedRow := []

@[simp] def MergeHistory.step (h : MergeHistory) : MergeEvent → MergeHistory
  | .delta deltas =>
    let (op, output) := h.operator.commit hashes mode deltas
    ⟨op, h.output ++ output⟩
  | .reopen => ⟨.new, h.output⟩

@[simp] def MergeHistory.run (events : List MergeEvent) : MergeHistory :=
  events.foldl (step hashes mode) {}

/-- The rows that a union takes for one: those of one branch and one rowid, or, without `ALL`,
those of equal values. -/
@[simp] def UnionMode.Same : UnionMode → SourceRow → SourceRow → Prop
  | .all .., x, y => x.isLeft = y.isLeft ∧ x.row.rowid = y.row.rowid
  | .distinct, x, y => List.Forall₂ (fun v w => Value.eq v w = true) x.row.values y.row.values

open MergeHistory

/-- Two rows that are put out at any time have the same rowid exactly if they are the same. -/
def KeepsIdentities (events : List MergeEvent) : Prop :=
  ∀ x ∈ (run hashes mode events).output, ∀ y ∈ (run hashes mode events).output,
    x.rowid = y.rowid ↔ mode.Same x.source y.source

def DeltaPair.sources (deltas : DeltaPair) : List SourceRow :=
  (deltas.left.map fun (row, weight) => ⟨true, row, weight⟩) ++
    deltas.right.map fun (row, weight) => ⟨false, row, weight⟩

/-- The rows that come to the operator, from one compilation of the circuit to the next. -/
def segments : List MergeEvent → List (List SourceRow)
  | [] => [[]]
  | .reopen :: events => [] :: segments events
  | .delta deltas :: events => (segments events).modifyHead (deltas.sources ++ ·)

/-- What is hashed tells the rows apart that are not the same, and only those: for `UNION ALL` by
the identifiers of the branches. -/
def UnionMode.Distinguishes (rows : List SourceRow) : UnionMode → Prop
  | .all leftTable rightTable => leftTable = rightTable →
      ∀ x ∈ rows, ∀ y ∈ rows, x.row.rowid = y.row.rowid → x.isLeft = y.isLeft
  | .distinct => ∀ x ∈ rows, ∀ y ∈ rows, x.row.valuesText = y.row.valuesText ↔
      List.Forall₂ (fun v w => Value.eq v w = true) x.row.values y.row.values

/-- No two inputs of the hash functions that occur collide. -/
def Hashes.Separate (rows : List SourceRow) : UnionMode → Prop
  | mode@(.all leftTable rightTable) => ∀ x ∈ rows, ∀ y ∈ rows,
      mode.key hashes x = mode.key hashes y →
        x.table leftTable rightTable = y.table leftTable rightTable ∧ x.row.rowid = y.row.rowid
  | .distinct => ∀ x ∈ rows, ∀ y ∈ rows,
      UnionMode.distinct.key hashes x = UnionMode.distinct.key hashes y →
        x.row.valuesText = y.row.valuesText

abbrev UnionMode.SameKey (x y : SourceRow) : Prop := mode.key hashes x = mode.key hashes y

namespace MergeOperator

/-- The rows that came with a new key are numbered in the order of their arrival. -/
structure Holds (op : MergeOperator) (seen : List SourceRow) : Prop where
  next : op.nextRowid = seen.length + 1
  found : ∀ key rowid, op.seenRows key = some rowid ↔
    ∃ n y, seen[n]? = some y ∧ mode.key hashes y = key ∧ rowid = n + 1

/-- The rowid is the place of the row that came first with the key. -/
def Numbered (seen : List SourceRow) (x : SourceRow) (rowid : Nat) : Prop :=
  ∃ n y, seen[n]? = some y ∧ mode.SameKey hashes y x ∧ rowid = n + 1

variable {hashes mode} {op : MergeOperator} {seen : List SourceRow}

theorem holds_new : MergeOperator.new.Holds hashes mode [] := ⟨rfl, by simp⟩

theorem Holds.assign (h : op.Holds hashes mode seen) (x : SourceRow) :
    (op.assign (mode.key hashes x)).1.Holds hashes mode (arrive (mode.SameKey hashes) seen x) ∧
      Numbered hashes mode (arrive (mode.SameKey hashes) seen x) x
        (op.assign (mode.key hashes x)).2 := by
  cases hseen : op.seenRows (mode.key hashes x) with
  | some rowid =>
    obtain ⟨n, y, hy, hkey, rfl⟩ := (h.found _ _).1 hseen
    have harrive : arrive (mode.SameKey hashes) seen x = seen :=
      if_pos ⟨y, List.mem_of_getElem? hy, hkey⟩
    rw [harrive, MergeOperator.assign, hseen]
    exact ⟨h, n, y, hy, hkey, rfl⟩
  | none =>
    have hnew : ∀ y ∈ seen, mode.key hashes y ≠ mode.key hashes x := by
      intro y hy hkey
      obtain ⟨n, hn⟩ := List.mem_iff_getElem?.1 hy
      have hsome := (h.found _ _).2 ⟨n, y, hn, hkey, rfl⟩
      rw [hseen] at hsome
      cases hsome
    have harrive : arrive (mode.SameKey hashes) seen x = seen ++ [x] :=
      if_neg fun ⟨y, hy, hkey⟩ => hnew y hy hkey
    have hlast : (seen ++ [x])[seen.length]? = some x := by simp
    rw [harrive, MergeOperator.assign, hseen]
    refine ⟨⟨by simp [h.next], fun key rowid => ?_⟩, seen.length, x, hlast, rfl, h.next⟩
    simp only [Function.update_apply]
    split
    next hkey =>
      subst hkey
      constructor
      · rintro ⟨⟩
        exact ⟨seen.length, x, hlast, rfl, h.next⟩
      · rintro ⟨n, y, hy, hkey, rfl⟩
        rcases Nat.lt_or_ge n seen.length with hn | hn
        · rw [List.getElem?_append_left hn] at hy
          exact absurd hkey (hnew y (List.mem_of_getElem? hy))
        · have hn' := (List.getElem?_eq_some_iff.1 hy).1
          simp only [List.length_append, List.length_singleton] at hn'
          rw [h.next, show n = seen.length by omega]
    next hkey =>
      rw [h.found]
      refine exists₂_congr fun n y => and_congr_left fun ⟨hy, _⟩ => ?_
      rcases Nat.lt_trichotomy n seen.length with hn | rfl | hn
      · rw [List.getElem?_append_left hn]
      · rw [hlast, List.getElem?_eq_none le_rfl]
        simp only [reduceCtorEq, Option.some.injEq, false_iff]
        rintro rfl
        exact hkey hy.symm
      · rw [List.getElem?_eq_none hn.le, List.getElem?_eq_none (by simp; omega)]

theorem Numbered.mono {x : SourceRow} {rowid : Nat} (h : Numbered hashes mode seen x rowid)
    {seen' : List SourceRow} (hpre : seen <+: seen') : Numbered hashes mode seen' x rowid := by
  obtain ⟨n, y, hy, hkey, hrowid⟩ := h
  obtain ⟨rest, rfl⟩ := hpre
  exact ⟨n, y, (List.getElem?_append_left (List.getElem?_eq_some_iff.1 hy).1).trans hy, hkey,
    hrowid⟩

theorem Holds.transform (h : op.Holds hashes mode seen) (xs : List SourceRow) :
    ∀ z ∈ (op.transform hashes mode xs).2,
      Numbered hashes mode (xs.foldl (arrive (mode.SameKey hashes)) seen) z.source z.rowid := by
  induction xs generalizing op seen with
  | nil => nofun
  | cons x xs ih =>
    obtain ⟨hop, hnumbered⟩ := h.assign x
    refine List.forall_mem_cons.2 ⟨?_, ih hop⟩
    exact hnumbered.mono (prefix_foldl_arrive _ _ _)

variable (hashes mode) in
theorem map_source_transform (op : MergeOperator) (xs : List SourceRow) :
    (op.transform hashes mode xs).2.map MergedRow.source = xs := by
  induction xs generalizing op with
  | nil => rfl
  | cons x xs ih => exact congrArg (x :: ·) (ih _)

theorem transform_append (op : MergeOperator) (xs ys : List SourceRow) :
    op.transform hashes mode (xs ++ ys) =
      (((op.transform hashes mode xs).1.transform hashes mode ys).1,
        (op.transform hashes mode xs).2 ++
          ((op.transform hashes mode xs).1.transform hashes mode ys).2) := by
  induction xs generalizing op with
  | nil => rfl
  | cons x xs ih =>
    simp only [List.cons_append, MergeOperator.transform, ih]

end MergeOperator

variable {hashes mode}

theorem segments_ne_nil (events : List MergeEvent) : segments events ≠ [] := by
  induction events with
  | nil => exact List.cons_ne_nil _ _
  | cons event events ih =>
    cases event with
    | reopen => exact List.cons_ne_nil _ _
    | delta deltas =>
      obtain ⟨segment, segments', h⟩ := List.exists_cons_of_ne_nil ih
      rw [segments, h]
      exact List.cons_ne_nil _ _

/-- A history that goes on puts out the rows of the rest of its segment and of the later ones. -/
theorem foldl_step_output (events : List MergeEvent) (h : MergeHistory) {segment : List SourceRow}
    {later : List (List SourceRow)} (hsegments : segments events = segment :: later) :
    (events.foldl (step hashes mode) h).output =
      h.output ++ (h.operator.transform hashes mode segment).2 ++
        later.flatMap fun segment => (MergeOperator.new.transform hashes mode segment).2 := by
  induction events generalizing h segment later with
  | nil =>
    cases hsegments
    simp
  | cons event events ih =>
    obtain ⟨segment', later', hrest⟩ := List.exists_cons_of_ne_nil (segments_ne_nil events)
    rw [List.foldl_cons, ih _ hrest]
    cases event with
    | reopen =>
      rw [segments, hrest] at hsegments
      cases hsegments
      simp [MergeHistory.step]
    | delta deltas =>
      rw [segments, hrest] at hsegments
      cases hsegments
      rw [DeltaPair.sources, MergeOperator.transform_append, MergeOperator.transform_append]
      simp [MergeHistory.step]

theorem output_run (events : List MergeEvent) :
    (run hashes mode events).output = (segments events).flatMap fun segment =>
      (MergeOperator.new.transform hashes mode segment).2 := by
  obtain ⟨segment, later, h⟩ := List.exists_cons_of_ne_nil (segments_ne_nil events)
  rw [run, foldl_step_output events _ h, h]
  rfl

theorem Value.eq_iff_sortKey (v w : Value) : Value.eq v w = true ↔ v.sortKey = w.sortKey := by
  have hbytes {t u : List UInt8} : Types.compareBytes t u = .eq ↔ t = u :=
    Std.LawfulEqCmp.compare_eq_iff_eq
  have hbeq (t u : List UInt8) : (t == u) = (Types.compareBytes t u == .eq) := by
    rw [Bool.eq_iff_iff, beq_iff_eq, beq_iff_eq, hbytes]
  have hcompare : Value.eq v w = (v.cmp w == .eq) := by
    cases v <;> cases w <;> first | rfl | exact hbeq _ _
  rw [hcompare, Types.Value.cmp_eq_compareKeys, Types.compareKeys, beq_iff_eq, Ordering.then_eq_eq,
    Ordering.then_eq_eq, compare_eq_iff_eq, compare_eq_iff_eq, hbytes, Prod.ext_iff, Prod.ext_iff]

theorem forall₂_valueEq_iff {l l' : List Value} :
    List.Forall₂ (fun v w => Value.eq v w = true) l l' ↔
      l.map Value.sortKey = l'.map Value.sortKey := by
  simp only [Value.eq_iff_sortKey]
  rw [← List.forall₂_eq_eq_eq, List.forall₂_map_left_iff, List.forall₂_map_right_iff]

theorem UnionMode.same_equivalence : (mode : UnionMode) → Equivalence mode.Same
  | .all .. => ⟨fun _ => ⟨rfl, rfl⟩, fun h => ⟨h.1.symm, h.2.symm⟩,
      fun h h' => ⟨h.1.trans h'.1, h.2.trans h'.2⟩⟩
  | .distinct => ⟨fun _ => forall₂_valueEq_iff.2 rfl,
      fun h => forall₂_valueEq_iff.2 (forall₂_valueEq_iff.1 h).symm,
      fun h h' => forall₂_valueEq_iff.2
        ((forall₂_valueEq_iff.1 h).trans (forall₂_valueEq_iff.1 h'))⟩

instance : (mode : UnionMode) → DecidableRel mode.Same
  | .all .., _, _ => inferInstanceAs (Decidable (_ ∧ _))
  | .distinct, _, _ => decidable_of_iff _ forall₂_valueEq_iff.symm

theorem Hashes.Separate.subset {rows rows' : List SourceRow} (h : hashes.Separate rows mode)
    (hsub : ∀ x ∈ rows', x ∈ rows) : hashes.Separate rows' mode := by
  cases mode with
  | all => exact fun x hx y hy => h x (hsub x hx) y (hsub y hy)
  | distinct => exact fun x hx y hy => h x (hsub x hx) y (hsub y hy)

theorem distinguishes_iff {rows : List SourceRow} (h : hashes.Separate rows mode) :
    mode.Distinguishes rows ↔
      ∀ x ∈ rows, ∀ y ∈ rows, mode.SameKey hashes x y ↔ mode.Same x y := by
  cases mode with
  | distinct =>
    refine forall₄_congr fun x hx y hy => iff_congr ⟨fun heq => ?_, h x hx y hy⟩ Iff.rfl
    exact congrArg (fun text => (hashes.text text).asI64.toUInt64) heq
  | all leftTable rightTable =>
    have hkey : ∀ x ∈ rows, ∀ y ∈ rows, (UnionMode.all leftTable rightTable).SameKey hashes x y ↔
        x.table leftTable rightTable = y.table leftTable rightTable ∧
          x.row.rowid = y.row.rowid := by
      refine fun x hx y hy => ⟨h x hx y hy, fun ⟨htable, hrowid⟩ => ?_⟩
      rw [UnionMode.SameKey, UnionMode.key, UnionMode.key, htable, hrowid]
    constructor
    · intro hdistinct x hx y hy
      rw [hkey x hx y hy]
      refine and_congr_left fun hrowid => ⟨fun htable => ?_, fun hleft => ?_⟩
      · by_contra hne
        refine hne (hdistinct ?_ x hx y hy hrowid)
        cases hxl : x.isLeft <;> cases hyl : y.isLeft <;>
          simp [SourceRow.table, hxl, hyl] at htable hne
        · exact htable.symm
        · exact htable
      · rw [SourceRow.table, SourceRow.table, hleft]
    · rintro hsame rfl x hx y hy hrowid
      refine ((hsame x hx y hy).1 ((hkey x hx y hy).2 ⟨?_, hrowid⟩)).1
      rw [SourceRow.table, SourceRow.table, ite_self, ite_self]

theorem sameKey_equivalence (hashes : Hashes) (mode : UnionMode) :
    Equivalence (mode.SameKey hashes) :=
  ⟨fun _ => rfl, Eq.symm, Eq.trans⟩

section

variable {segment : List SourceRow} {n : Nat} {x : SourceRow} {z w : MergedRow}

theorem numbered_output (hz : z ∈ (MergeOperator.new.transform hashes mode segment).2) :
    z.source ∈ segment ∧
      MergeOperator.Numbered hashes mode (arrivals (mode.SameKey hashes) segment) z.source
        z.rowid := by
  refine ⟨?_, MergeOperator.holds_new.transform segment z hz⟩
  rw [← MergeOperator.map_source_transform hashes mode .new segment]
  exact List.mem_map_of_mem hz

variable (hashes mode) in
theorem exists_output (hx : x ∈ segment) :
    ∃ z ∈ (MergeOperator.new.transform hashes mode segment).2, z.source = x := by
  rw [← MergeOperator.map_source_transform hashes mode .new segment] at hx
  exact List.mem_map.1 hx

theorem rowid_eq_iff (hz : z ∈ (MergeOperator.new.transform hashes mode segment).2)
    (hw : w ∈ (MergeOperator.new.transform hashes mode segment).2) :
    z.rowid = w.rowid ↔ mode.SameKey hashes z.source w.source := by
  obtain ⟨-, n, a, ha, hza, hn⟩ := numbered_output hz
  obtain ⟨-, m, b, hb, hwb, hm⟩ := numbered_output hw
  rw [hn, hm, Nat.add_right_cancel_iff]
  constructor
  · rintro rfl
    cases ha.symm.trans hb
    exact hza.symm.trans hwb
  · exact fun hkey => arrivals_index_unique _ (sameKey_equivalence hashes mode) ha hb
      (hza.trans (hkey.trans hwb.symm))

theorem rowid_of_arrival (hx : (arrivals (mode.SameKey hashes) segment)[n]? = some x) :
    ∃ z ∈ (MergeOperator.new.transform hashes mode segment).2, z.source = x ∧ z.rowid = n + 1 := by
  obtain ⟨z, hz, rfl⟩ := exists_output hashes mode (mem_of_mem_arrivals _ (List.mem_of_getElem? hx))
  obtain ⟨-, m, a, ha, hkey, hrowid⟩ := numbered_output hz
  rw [arrivals_index_unique _ (sameKey_equivalence hashes mode) ha hx hkey] at hrowid
  exact ⟨z, hz, rfl, hrowid⟩

end

/-- Rows keep their identities exactly if in every segment the identifiers of the branches, or the
texts of the values, tell the rows apart, and the rows that are new to a segment come in the same
order in all segments, as far as they go. -/
theorem keepsIdentities_iff (hashes : Hashes) (all : Bool) (left right : LogicalPlan)
    (events : List MergeEvent)
    (hseparate : hashes.Separate (segments events).flatten (compileUnion all left right)) :
    let mode := compileUnion all left right
    KeepsIdentities hashes mode events ↔ ∀ segment ∈ segments events,
      mode.Distinguishes segment ∧
        ∀ segment' ∈ segments events, ∀ (n : Nat) x y, (arrivals mode.Same segment)[n]? = some x →
          (arrivals mode.Same segment')[n]? = some y → mode.Same x y := by
  intro mode
  have hdistinguishes : ∀ segment ∈ segments events, mode.Distinguishes segment ↔
      ∀ x ∈ segment, ∀ y ∈ segment, mode.SameKey hashes x y ↔ mode.Same x y := by
    intro segment hsegment
    exact distinguishes_iff (hseparate.subset fun x hx => List.mem_flatten_of_mem hsegment hx)
  have hmem {z : MergedRow} : z ∈ (run hashes mode events).output ↔
      ∃ segment ∈ segments events, z ∈ (MergeOperator.new.transform hashes mode segment).2 := by
    rw [output_run, List.mem_flatMap]
  constructor
  · intro hkeeps
    have hsame : ∀ segment ∈ segments events, ∀ x ∈ segment, ∀ y ∈ segment,
        mode.SameKey hashes x y ↔ mode.Same x y := by
      intro segment hsegment x hx y hy
      obtain ⟨z, hz, rfl⟩ := exists_output hashes mode hx
      obtain ⟨w, hw, rfl⟩ := exists_output hashes mode hy
      rw [← rowid_eq_iff hz hw]
      exact hkeeps z (hmem.2 ⟨segment, hsegment, hz⟩) w (hmem.2 ⟨segment, hsegment, hw⟩)
    intro segment hsegment
    refine ⟨(hdistinguishes segment hsegment).2 (hsame segment hsegment), ?_⟩
    intro segment' hsegment' n x y hx hy
    rw [← arrivals_congr _ (hsame segment hsegment)] at hx
    rw [← arrivals_congr _ (hsame segment' hsegment')] at hy
    obtain ⟨z, hz, rfl, hzn⟩ := rowid_of_arrival hx
    obtain ⟨w, hw, rfl, hwn⟩ := rowid_of_arrival hy
    exact (hkeeps z (hmem.2 ⟨segment, hsegment, hz⟩) w (hmem.2 ⟨segment', hsegment', hw⟩)).1
      (hzn.trans hwn.symm)
  · intro hcond z hz w hw
    obtain ⟨segment, hsegment, hz⟩ := hmem.1 hz
    obtain ⟨segment', hsegment', hw⟩ := hmem.1 hw
    have hsame := (hdistinguishes segment hsegment).1 (hcond segment hsegment).1
    have hsame' := (hdistinguishes segment' hsegment').1 (hcond segment' hsegment').1
    have horder := (hcond segment hsegment).2 segment' hsegment'
    obtain ⟨hzmem, n, a, ha, hza, hn⟩ := numbered_output hz
    obtain ⟨hwmem, m, b, hb, hwb, hm⟩ := numbered_output hw
    have hsameA := (hsame a (mem_of_mem_arrivals _ (List.mem_of_getElem? ha)) _ hzmem).1 hza
    have hsameB := (hsame' b (mem_of_mem_arrivals _ (List.mem_of_getElem? hb)) _ hwmem).1 hwb
    rw [arrivals_congr _ hsame] at ha
    rw [arrivals_congr _ hsame'] at hb
    have hequiv := mode.same_equivalence
    rw [hn, hm, Nat.add_right_cancel_iff, arrivals_aligned _ hequiv horder ha hb]
    constructor
    · exact fun hab => hequiv.trans (hequiv.symm hsameA) (hequiv.trans hab hsameB)
    · exact fun hzw => hequiv.trans hsameA (hequiv.trans hzw (hequiv.symm hsameB))

/-- A row of each of two tables, and after a reopen the first row again. -/
def insertedAndRetracted : List MergeEvent :=
  [.delta ⟨[(⟨5, []⟩, 1)], [(⟨5, []⟩, 1)]⟩, .reopen, .delta ⟨[(⟨5, []⟩, -1)], []⟩]

theorem keepsIdentities_two_tables :
    KeepsIdentities
      ⟨fun _ => 0, fun name => if name = "t" then 0 else 1, fun name r => name + r.toUInt64⟩
      (compileUnion true (.tableScan "t") (.tableScan "u")) insertedAndRetracted := by
  have hsegments : segments insertedAndRetracted = [[⟨true, ⟨5, []⟩, 1⟩, ⟨false, ⟨5, []⟩, 1⟩],
    [⟨true, ⟨5, []⟩, -1⟩]] := rfl
  apply (keepsIdentities_iff _ _ _ _ _ ?_).2
  · rw [hsegments]
    refine fun segment hsegment => ⟨fun heq => absurd heq (by decide), ?_⟩
    intro segment' hsegment' n x y hx hy
    rcases List.mem_pair.1 hsegment with rfl | rfl <;>
      rcases List.mem_pair.1 hsegment' with rfl | rfl <;> rcases n with _ | _ | n <;>
      simp [arrivals, arrive] at hx hy <;> simp [← hx, ← hy]
  · rw [hsegments]
    simp [Hashes.Separate, SourceRow.table]

/-- The rows of the two uses of a table are taken for each other, and after a reopen a new row is
given the rowid of a stored one, whatever the hashes are. -/
theorem identities_lost :
    (∀ hashes, ¬KeepsIdentities hashes
      (compileUnion true (.tableScan "t") (.filter (.tableScan "t")))
      [.delta ⟨[(⟨5, []⟩, 1)], [(⟨5, []⟩, 1)]⟩]) ∧
    ∀ hashes left right, ¬KeepsIdentities hashes (compileUnion true left right)
      [.delta ⟨[(⟨5, []⟩, 1)], []⟩, .reopen, .delta ⟨[(⟨7, []⟩, 1)], []⟩] := by
  constructor
  · intro hashes h
    simp [KeepsIdentities, SourceRow.table] at h
  · intro hashes left right h
    have hsame := h ⟨⟨true, ⟨5, []⟩, 1⟩, 1⟩ (.head _) ⟨⟨true, ⟨7, []⟩, 1⟩, 1⟩ (.tail _ (.head _))
    cases (hsame.1 rfl).2

end PgMicro.Incremental
