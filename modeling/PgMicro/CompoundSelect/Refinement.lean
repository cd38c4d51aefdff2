import PgMicro.CompoundSelect.Delivery

/-!
# Compound selects evaluate to set algebra

With ORDER BY the arms go into a collection first, which numbers the rows, and from there through a
sorter. Without it they go to the destination of the statement at once.
-/

namespace PgMicro.CompoundSelect

open Types List
open OrderedSet (DistinctOf Sorted lex transCmp_lex)

variable {n bound cursorId : Nat} {collation : Collations n} {conv : Conversions}
  {orderBy : List (OrderByTerm n)} {rows : List (Row n)}

open OrderedSet

section

variable [UncasedStr]

theorem insert_numbered (collation : Collations n) {l : List (Row n × Nat)} (r : Row n)
    (hl : ∀ e ∈ l, e.2 < l.length) :
    (insert (entryCmp collation) (r, l.length) l).Perm ((r, l.length) :: l) := by
  have hperm := @OrderedSet.insert_perm _ (entryCmp collation) (r, l.length) l
  rwa [erase_eq_self] at hperm
  refine Bool.eq_false_iff.2 fun hcontains => ?_
  obtain ⟨e, he, heq⟩ := contains_iff.1 hcontains
  rw [entryCmp, compareLex, Ordering.then_eq_eq] at heq
  have hnumber : l.length = e.2 := compare_eq_iff_eq.1 heq.2
  exact absurd (hl e he) (by omega)

theorem collected_emitAll (rows : List (Row n)) (st : State n)
    (hnumbers : ∀ e ∈ st.collected cursorId, e.2 < (st.collected cursorId).length) :
    (((emitAll conv (.ephemeralIndex cursorId ⟨collation, true⟩ none false) rows st).collected
      cursorId).map Prod.fst).Perm ((st.collected cursorId).map Prod.fst ++ rows) := by
  induction rows generalizing st with
  | nil => simp [emitAll]
  | cons r rows ih =>
    have hperm := insert_numbered collation r hnumbers
    have hone : (emitColumnsToDestination conv
        (.ephemeralIndex cursorId ⟨collation, true⟩ none false) r st).collected cursorId =
        insert (entryCmp collation) (r, (st.collected cursorId).length)
          (st.collected cursorId) := by
      simp [emitColumnsToDestination, applyAffinity]
    have hrest := ih (emitColumnsToDestination conv
      (.ephemeralIndex cursorId ⟨collation, true⟩ none false) r st) (by
        rw [hone, hperm.length_eq]
        intro e he
        rcases mem_cons.1 (hperm.mem_iff.1 he) with rfl | he
        · exact Nat.lt_succ_self _
        · exact Nat.lt_succ_of_lt (hnumbers e he))
    rw [hone] at hrest
    refine hrest.trans (((hperm.map Prod.fst).append_right rows).trans ?_)
    exact perm_middle.symm

theorem emitAll_collection (rows : List (Row n)) (st : State n) :
    (emitAll conv (.ephemeralIndex cursorId ⟨collation, true⟩ none false) rows st).output =
        st.output ∧
      (emitAll conv (.ephemeralIndex cursorId ⟨collation, true⟩ none false) rows st).sets =
        st.sets := by
  induction rows generalizing st with
  | nil => exact ⟨rfl, rfl⟩
  | cons r rows ih => exact ih _

end

section

variable [UncasedStr]

def orderCmp (orderBy : List (OrderByTerm n)) (collation : Collations n) :
    Row n → Row n → Ordering :=
  lex (orderBy.map fun term r s => term.compare collation (r term.column) (s term.column))

instance (nulls : NullsOrder) : Std.TransCmp (nullsCmp nulls) := by
  have h : Std.TransCmp (compareOn isNull) := inferInstance
  cases nulls with
  | first => exact {
      eq_swap := fun {_ _} => h.eq_swap
      isLE_trans := fun {_ _ _} hab hbc => h.isLE_trans hbc hab }
  | last => exact h

instance (term : OrderByTerm n) (collation : Collations n) :
    Std.TransCmp (term.compare collation) := by
  obtain ⟨column, order, nulls⟩ := term
  let keyInfo : KeyInfo := ⟨order, (collation column).getD .binary⟩
  cases nulls with
  | none => exact inferInstanceAs (Std.TransCmp keyInfo.compare)
  | some nulls => exact inferInstanceAs (Std.TransCmp (compareLex (nullsCmp nulls) keyInfo.compare))

instance (orderBy : List (OrderByTerm n)) (collation : Collations n) :
    Std.TransCmp (orderCmp orderBy collation) :=
  transCmp_lex fun c hc => by
    obtain ⟨term, -, rfl⟩ := mem_map.1 hc
    have htrans : Std.TransCmp (term.compare collation) := inferInstance
    exact transCmp_on htrans fun r : Row n => r term.column

theorem sorterCmp_eq (orderBy : List (OrderByTerm n)) (collation : Collations n)
    (e e' : Row n × Nat) :
    sorterCmp orderBy collation (sorterRecord orderBy e) (sorterRecord orderBy e') =
      (orderCmp orderBy collation e.1 e'.1).then (compare e.2 e'.2) := by
  have hkeys (terms : List (OrderByTerm n)) :
      (terms.zip ((terms.map fun term => e.1 term.column).zip
        (terms.map fun term => e'.1 term.column))).foldr
        (fun key o => (key.1.compare collation key.2.1 key.2.2).then o) Ordering.eq =
      orderCmp terms collation e.1 e'.1 := by
    induction terms with
    | nil => rfl
    | cons term terms ih =>
      simp only [map_cons, zip_cons_cons, foldr_cons, ih]
      rfl
  exact congrArg (Ordering.then · _) (hkeys orderBy)

omit [UncasedStr] in
theorem column_remappings {r : Row n} {record : SorterRecord}
    (hkeys : record.keys = orderBy.map fun term => r term.column) {columns : List (Fin n)}
    (before : List Value) (hdata : record.data = before ++ (columns.filter fun column =>
      !orderBy.any fun term => term.column == column).map r) {i : Nat} {column : Fin n}
    (hi : columns[i]? = some column) :
    record.column (((remappings orderBy columns before.length)[i]?).getD 0) = r column := by
  induction columns generalizing before i with
  | nil => cases hi
  | cons head columns ih =>
    rw [remappings]
    cases hfind : orderBy.findIdx? fun term => term.column == head with
    | some k =>
      obtain ⟨hk, hterm, -⟩ := findIdx?_eq_some_iff_getElem.1 hfind
      have hany : (orderBy.any fun term => term.column == head) = true :=
        any_eq_true.2 ⟨_, getElem_mem hk, hterm⟩
      rw [filter_cons_of_neg (by simp [hany])] at hdata
      cases i with
      | zero =>
        obtain rfl : head = column := Option.some.inj hi
        have hlen : k < record.keys.length := by rw [hkeys, length_map]; exact hk
        simp only [getElem?_cons_zero, Option.getD_some, SorterRecord.column]
        simp [hkeys, hk, beq_iff_eq.1 hterm]
      | succ i => exact ih before hdata hi
    | none =>
      have hany : (orderBy.any fun term => term.column == head) = false := by
        simpa using hfind
      rw [filter_cons_of_pos (by simp [hany]), map_cons] at hdata
      cases i with
      | zero =>
        obtain rfl : head = column := Option.some.inj hi
        have hlen : record.keys.length = orderBy.length := by rw [hkeys, length_map]
        simp only [getElem?_cons_zero, Option.getD_some, SorterRecord.column, hlen]
        rw [if_neg (by omega), hdata]
        simp
      | succ i =>
        have hnext := ih (before ++ [r head]) (by rw [hdata]; simp) hi
        rwa [length_append] at hnext

omit [UncasedStr] in
theorem readRow_sorterRecord (orderBy : List (OrderByTerm n)) (e : Row n × Nat) :
    readRow orderBy (sorterRecord orderBy e) = e.1 := by
  funext i
  exact column_remappings rfl [] rfl (by simp)

theorem SameCollation.orderCmp_eq {collation collation' : Collations n}
    (h : SameCollation collation collation') (orderBy : List (OrderByTerm n)) :
    orderCmp orderBy collation = orderCmp orderBy collation' := by
  rw [orderCmp, orderCmp]
  congr 1
  refine map_congr_left fun term _ => ?_
  simp [OrderByTerm.compare, h term.column]

theorem sorter_sorts (orderBy : List (OrderByTerm n)) (collation : Collations n)
    (entries : List (Row n × Nat))
    (hrows : (((entries.map (sorterRecord orderBy)).mergeSort fun record record' =>
      (sorterCmp orderBy collation record record').isLE).map (readRow orderBy)) = rows) :
    rows.Perm (entries.map Prod.fst) ∧
      rows.Pairwise fun r s => orderCmp orderBy collation r s ≠ .gt := by
  let cmp : Row n × Nat → Row n × Nat → Ordering :=
    compareLex (fun e e' => orderCmp orderBy collation e.1 e'.1) (compareOn Prod.snd)
  have htrans : Std.TransCmp cmp := by
    have horder : Std.TransCmp (orderCmp orderBy collation) := inferInstance
    have := transCmp_on horder (Prod.fst : Row n × Nat → Row n)
    exact inferInstanceAs (Std.TransCmp (compareLex _ _))
  have hsort : rows = (entries.mergeSort fun e e' => (cmp e e').isLE).map Prod.fst := by
    rw [← hrows, ← map_mergeSort (r := fun e e' => (cmp e e').isLE), map_map]
    · exact map_congr_left fun e _ => readRow_sorterRecord orderBy e
    · exact fun e _ e' _ => congrArg Ordering.isLE (sorterCmp_eq orderBy collation e e').symm
  rw [hsort]
  refine ⟨(mergeSort_perm _ _).map _, pairwise_map.2 ?_⟩
  have htotal (e e' : Row n × Nat) : ((cmp e e').isLE || (cmp e' e).isLE) = true := by
    rw [htrans.eq_swap (a := e')]
    cases cmp e e' <;> rfl
  have hsorted := @pairwise_mergeSort _ (fun e e' => (cmp e e').isLE)
    (fun _ _ _ => htrans.isLE_trans) htotal entries
  refine hsorted.imp fun {e e'} hle hgt => ?_
  simp [cmp, compareLex, hgt] at hle

end

def QueryDestination.External (st : State n) : QueryDestination n → Prop
  | .ephemeralIndex cursorId index _ isDelete =>
    index.hasRowid = false ∧ isDelete = false ∧ st.sets cursorId = []
  | _ => True

def QueryDestination.Receives [UncasedStr] (conv : Conversions) (rows : List (Row n))
    (st st' : State n) : QueryDestination n → Prop
  | .ephemeralIndex cursorId index affinity _ =>
    DistinctOf (rowCmp index.collation) (st'.sets cursorId) (rows.map (applyAffinity conv affinity))
  | _ => st'.output = st.output ++ rows

variable (conv) in
/-- The temporary indexes compare by the collations of the chain, the arms that are emitted under
LIMIT tick the counters, and an IN index that is taken over has no affinity to apply and no LIMIT
to keep. -/
def Fits (plan : Plan n) (orderBy : Option (List (OrderByTerm n))) (limits : Limits)
    (destination : QueryDestination n) : Prop :=
  match orderBy, limits, destination with
  | none, none, .ephemeralIndex _ index affinity _ =>
    FitsIndex conv plan.collation plan index.collation affinity
  | none, limits, destination =>
    FitsOutput conv plan.collation destination limits.isSome plan
  | some _, _, _ =>
    SameCollation (pairCollation plan.leftMost plan.rightMost) plan.collation ∧
      FitsOutput conv plan.collation .resultRows false plan

section

variable {destination : QueryDestination n} {limits : Limits} {plan : Plan n} {st st' : State n}

theorem FitsOutput.other {chain : Collations n} (h : FitsOutput conv chain destination false plan)
    {destination' : QueryDestination n} (hreusable : destination'.reusable = none) :
    FitsOutput conv chain destination' false plan := by
  induction plan with
  | select plan => nofun
  | compound left operator rightMost ih =>
    cases operator with
    | unionAll => exact ⟨ih h.1, nofun⟩
    | union | except => exact ⟨hreusable, h.2⟩
    | intersect => exact h

variable [UncasedStr]

theorem receives_of_collected {st'' : State n} (hexternal : destination.External st)
    (hbelow : destination.Below bound) (houtput : st'.output = st.output)
    (hsets : ∀ j < bound, st'.sets j = st.sets j)
    (h : destination.External st' → destination.Receives conv rows st' st'') :
    destination.Receives conv rows st st'' := by
  cases destination with
  | resultRows | coroutineYield | ephemeralTable =>
    exact (h trivial).trans (congrArg (· ++ rows) houtput)
  | ephemeralIndex cursorId index affinity isDelete =>
    obtain ⟨hrowid, hdelete, hempty⟩ := hexternal
    exact h ⟨hrowid, hdelete, (hsets cursorId hbelow).trans hempty⟩

theorem output_emitAll
    (h : ∀ r (st : State n), (emitColumnsToDestination conv destination r st).output =
      st.output ++ [r]) :
    (emitAll conv destination rows st).output = st.output ++ rows := by
  induction rows generalizing st with
  | nil => exact (append_nil _).symm
  | cons r rows ih =>
    refine ih.trans ?_
    rw [h, append_assoc]
    rfl

theorem receives_foldl_tick (h : destination.External st) (hbelow : destination.Below bound)
    (rows : List (Row n)) (hagrees : Agrees bound (rows.foldl
      (tick conv destination (limits.bind Prod.snd).isSome limits.isSome)
      (st.withLimits limits)) st') :
    destination.Receives conv (cut limits rows) st st' := by
  obtain ⟨limit', offset', htick⟩ := foldl_tick_cut limits rows st
  rw [htick] at hagrees
  cases destination with
  | resultRows | coroutineYield | ephemeralTable =>
    exact hagrees.output.trans (output_emitAll fun _ _ => rfl)
  | ephemeralIndex cursorId index affinity isDelete =>
    obtain ⟨hrowid, rfl, hempty⟩ := h
    obtain ⟨collation, hasRowid⟩ := index
    obtain rfl : hasRowid = false := hrowid
    have hnil : Sorted (rowCmp collation) (st.sets cursorId) := hempty ▸ .nil
    obtain ⟨-, hdistinct, -⟩ := insertRows 0 (emitRows_free (cut limits rows) st) hnil
    rw [hempty, nil_append] at hdistinct
    show DistinctOf _ (st'.sets cursorId) _
    rw [hagrees.sets cursorId hbelow]
    exact hdistinct

theorem emitProgramForCompoundSelect_direct (hexternal : destination.External st)
    (hbelow : destination.Below st.nextCursorId) (hfits : Fits conv plan none limits destination) :
    ∃ rows, Evaluates (rowCmp plan.collation) plan rows ∧
      destination.Receives conv (cut limits rows) st
        (emitProgramForCompoundSelect conv plan none limits destination st) := by
  have hoffset : (limits.bind Prod.snd).isSome = true → limits.isSome = true := by
    cases limits <;> simp
  have houtput (h : FitsOutput conv plan.collation destination limits.isSome plan) :
      ∃ rows, Evaluates (rowCmp plan.collation) plan rows ∧
        destination.Receives conv (cut limits rows) st
          (emitProgramForCompoundSelect conv plan none limits destination st) := by
    obtain ⟨rows, hrows, hagrees⟩ :=
      @emitCompoundSelect_output _ _ _ _ _ (st.withLimits limits) _ _ _ h hoffset hbelow
    exact ⟨rows, hrows, receives_foldl_tick hexternal hbelow rows hagrees⟩
  cases destination with
  | resultRows | coroutineYield | ephemeralTable => cases limits <;> exact houtput hfits
  | ephemeralIndex cursorId index affinity isDelete =>
    cases limits with
    | some limits => exact houtput hfits
    | none =>
      obtain ⟨hrowid, rfl, hempty⟩ := hexternal
      obtain ⟨collation, hasRowid⟩ := index
      obtain rfl : hasRowid = false := hrowid
      have hload := emitCompoundSelect_index
        (.ephemeralIndex cursorId ⟨collation, false⟩ affinity false) hfits
        (show cursorId < (st.withLimits none).nextCursorId from hbelow) hempty
      exact hload.evaluates

theorem emitProgramForCompoundSelect_orderBy (hexternal : destination.External st)
    (hbelow : destination.Below st.nextCursorId)
    (hfits : Fits conv plan (some orderBy) limits destination) :
    ∃ rows, Evaluates (rowCmp plan.collation) plan rows ∧
      (rows.Pairwise fun r s => orderCmp orderBy plan.collation r s ≠ .gt) ∧
      destination.Receives conv (cut limits rows) st
        (emitProgramForCompoundSelect conv plan (some orderBy) limits destination st) := by
  obtain ⟨hsame, hfits⟩ := hfits
  let collation := pairCollation plan.leftMost plan.rightMost
  let collection : QueryDestination n :=
    .ephemeralIndex st.nextCursorId ⟨collation, true⟩ none false
  let st' := emitCompoundSelect conv collection plan collection false false (openEphemeral st).2
  obtain ⟨rows, hrows, hagrees⟩ : Delivers conv plan.collation plan collection false false
      (openEphemeral st).2 st' :=
    emitCompoundSelect_output (hfits.other rfl) nofun (openEphemeral_cursor st)
  -- The collection has the rows of the chain.
  have hentries : ((st'.collected st.nextCursorId).map Prod.fst).Perm rows := by
    rw [hagrees.collected _ (openEphemeral_cursor st)]
    have hnil : (openEphemeral st).2.collected st.nextCursorId = [] := Function.update_self ..
    have hperm := @collected_emitAll _ st.nextCursorId collation conv _ rows (openEphemeral st).2
      (by rw [hnil]; nofun)
    rwa [hnil] at hperm
  obtain ⟨hperm, hsorted⟩ :=
    sorter_sorts orderBy collation (st'.collected st.nextCursorId) rfl
  refine ⟨_, hrows.perm (hperm.trans hentries).symm, hsame.orderCmp_eq orderBy ▸ hsorted, ?_⟩
  obtain ⟨houtput, hsets⟩ := @emitAll_collection _ st.nextCursorId collation conv _ rows
    (openEphemeral st).2
  refine receives_of_collected hexternal hbelow (hagrees.output.trans houtput)
    (fun j hj => ?_) fun hexternal' => receives_foldl_tick hexternal' hbelow _ ?_
  · refine (hagrees.sets j (hj.trans (openEphemeral_cursor st))).trans ((congrFun hsets j).trans ?_)
    exact Function.update_of_ne hj.ne _ _
  · rw [← emitRows_or_done]
    exact .refl _ _

end

local instance : UncasedStr := .lowercase

def integerRow (i : Int64) : Row 1 := fun _ => .integer i

def armOf (kind : ArmKind) (rows : List (Row 1)) : SelectPlan 1 := ⟨kind, rows, fun _ => none⟩

def initialState : State 1 := ⟨[], fun _ => [], fun _ => [], 0, 0, 0⟩

/-- `SELECT 2 .. UNION SELECT .. UNION ALL SELECT ..` -/
def unionThenAll : Plan 1 :=
  .compound (.compound (.select (armOf .loop [integerRow 2, integerRow 1, integerRow 2])) .union
    (armOf .loop [integerRow 1])) .unionAll (armOf .loop [integerRow 1])

open QueryDestination

/-- `SELECT count(*) FROM t UNION ALL SELECT 1`, with three rows in `t`. -/
def countThenOne : Plan 1 :=
  .compound (.select (armOf .simpleCount [integerRow 3])) .unionAll (armOf .loop [integerRow 1])

end PgMicro.CompoundSelect
