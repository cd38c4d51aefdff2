import PgMicro.CompoundSelect.Emit

/-!
# Set algebra

What a compound select is to deliver: its operators from left to right over lists of rows. A
temporary index that an arm, or a whole chain of arms, is written to holds one of each class of
equal rows of what the chain evaluates to.
-/

namespace PgMicro.CompoundSelect

open Types Function List Nat
open OrderedSet (DistinctOf Sorted)

variable {n cursorId : Nat} {st'' st st' : State n} {rows : List (Row n)}
  {affinity : Option (Fin n → Affinity)} {plan : Plan n}

instance [UncasedStr] (collation : Collations n) : Std.TransCmp (rowCmp collation) :=
  OrderedSet.transCmp_lex fun c hc => by
    obtain ⟨i, -, rfl⟩ := mem_map.1 hc
    have htrans : Std.TransCmp (KeyInfo.compare ⟨.asc, (collation i).getD .binary⟩) := inferInstance
    exact OrderedSet.transCmp_on htrans fun r : Row n => r i

def SameCollation (collation collation' : Collations n) : Prop :=
  ∀ i, (collation i).getD .binary = (collation' i).getD .binary

theorem SameCollation.rowCmp_eq [UncasedStr] {collation collation' : Collations n}
    (h : SameCollation collation collation') : rowCmp collation = rowCmp collation' := by
  rw [rowCmp, rowCmp]
  congr 1
  refine map_congr_left fun i _ => ?_
  rw [h i]

def Plan.collation : Plan n → Collations n
  | .select plan => plan.collation
  | .compound left _ rightMost => fun i => (left.collation i).or (rightMost.collation i)

open OrderedSet

def Evaluates (cmp : Row n → Row n → Ordering) : Plan n → List (Row n) → Prop
  | .select plan, rows => rows.Perm plan.rows
  | .compound left .unionAll rightMost, rows =>
    ∃ ls, Evaluates cmp left ls ∧ rows.Perm (ls ++ rightMost.rows)
  | .compound left .union rightMost, rows =>
    ∃ ls, Evaluates cmp left ls ∧ DistinctOf cmp rows (ls ++ rightMost.rows)
  | .compound left .intersect rightMost, rows =>
    ∃ ls, Evaluates cmp left ls ∧
      DistinctOf cmp rows (ls.filter fun r => contains cmp r rightMost.rows)
  | .compound left .except rightMost, rows =>
    ∃ ls, Evaluates cmp left ls ∧
      DistinctOf cmp rows (ls.filter fun r => !contains cmp r rightMost.rows)

def Plan.armRows : Plan n → List (Row n)
  | .select plan => plan.rows
  | .compound left _ rightMost => left.armRows ++ rightMost.rows

section

variable {cmp : Row n → Row n → Ordering}

theorem Evaluates.subset (h : Evaluates cmp plan rows) : ∀ r ∈ rows, r ∈ plan.armRows := by
  induction plan generalizing rows with
  | select plan => exact fun r hr => (List.Perm.mem_iff h).1 hr
  | compound left operator rightMost ih =>
    intro r hr
    have happend {ls : List (Row n)} (hleft : Evaluates cmp left ls)
        (hmem : r ∈ ls ++ rightMost.rows) : r ∈ left.armRows ++ rightMost.rows := by
      rcases mem_append.1 hmem with hmem | hmem
      · exact mem_append.2 (.inl (ih hleft r hmem))
      · exact mem_append.2 (.inr hmem)
    cases operator with
    | unionAll =>
      obtain ⟨ls, hleft, hrows⟩ := h
      exact happend hleft (hrows.mem_iff.1 hr)
    | union =>
      obtain ⟨ls, hleft, hrows⟩ := h
      exact happend hleft (hrows.subset r hr)
    | intersect | except =>
      obtain ⟨ls, hleft, hrows⟩ := h
      exact happend hleft (mem_append.2 (.inl (mem_filter.1 (hrows.subset r hr)).1))

variable [Std.TransCmp cmp]

theorem exists_distinctOf (rows : List (Row n)) : ∃ l, DistinctOf cmp l rows :=
  ⟨_, (distinctOf_insertAll rows (l := []) .nil).2⟩

theorem exists_evaluates (plan : Plan n) : ∃ rows, Evaluates cmp plan rows := by
  induction plan with
  | select plan => exact ⟨plan.rows, .refl _⟩
  | compound left operator rightMost ih =>
    obtain ⟨ls, hls⟩ := ih
    cases operator with
    | unionAll => exact ⟨ls ++ rightMost.rows, ls, hls, .refl _⟩
    | union | intersect | except =>
      have hdistinct (rows : List (Row n)) : ∃ l, DistinctOf cmp l rows := exists_distinctOf rows
      obtain ⟨l, hl⟩ := hdistinct _
      exact ⟨l, ls, hls, hl⟩

theorem Evaluates.perm {rows' : List (Row n)} (h : Evaluates cmp plan rows)
    (hperm : rows.Perm rows') : Evaluates cmp plan rows' := by
  cases plan with
  | select plan => exact hperm.symm.trans h
  | compound left operator rightMost =>
    cases operator with
    | unionAll =>
      obtain ⟨ls, hleft, hrows⟩ := h
      exact ⟨ls, hleft, hperm.symm.trans hrows⟩
    | union | intersect | except =>
      obtain ⟨ls, hleft, hrows⟩ := h
      exact ⟨ls, hleft, hrows.perm hperm⟩

end

section

variable {conv : Conversions}

section

variable [UncasedStr]

theorem emitQuery_free (plan : SelectPlan n) (destination : QueryDestination n) (st : State n) :
    emitQuery conv plan destination false false st =
      emitRows conv destination false false plan.rows st := by
  simp only [emitQuery]
  cases plan.kind with
  | loop | aggregate | simpleCount => rfl
  | values => cases destination <;> rfl

theorem emitRows_set (isDelete : Bool) (cursorId : Nat) (collation : Collations n)
    (affinity : Option (Fin n → Affinity)) (rows : List (Row n)) (st : State n) :
    emitRows conv (.ephemeralIndex cursorId ⟨collation, false⟩ affinity isDelete) false false rows
        st =
      { st with
        sets := update st.sets cursorId (rows.foldl
          (fun l r => if isDelete then erase (rowCmp collation) r l
            else insert (rowCmp collation) (applyAffinity conv affinity r) l)
          (st.sets cursorId)) } := by
  induction rows generalizing st with
  | nil => simp [emitRows]
  | cons r rows ih =>
    rw [emitRows]
    simp only [Bool.false_and, Bool.false_eq_true, if_false]
    rw [ih]
    cases isDelete <;> simp [emitColumnsToDestination]

end

variable (st)

theorem openEphemeral_cursor :
    st.nextCursorId < (openEphemeral st).2.nextCursorId := lt_succ_self _

theorem openEphemeral_sets : (openEphemeral st).2.sets st.nextCursorId = [] :=
  update_self ..

theorem openEphemeral_twice_cursor :
    st.nextCursorId < (openEphemeral (openEphemeral st).2).2.nextCursorId :=
  lt_succ_of_lt (lt_succ_self _)

theorem openEphemeral_twice_sets :
    (openEphemeral (openEphemeral st).2).2.sets st.nextCursorId = [] := by
  simp [openEphemeral]

variable {st}

/-- Of what there was below the cursor `bound`, only the index under `cursorId` is written. -/
structure Frame (bound cursorId : Nat) (st st' : State n) : Prop where
  output : st'.output = st.output
  limit : st'.limit = st.limit
  offset : st'.offset = st.offset
  nextCursorId_le : st.nextCursorId ≤ st'.nextCursorId
  sets : ∀ j < bound, j ≠ cursorId → st'.sets j = st.sets j
  collected : ∀ j < bound, st'.collected j = st.collected j

namespace Frame

variable {bound : Nat}

theorem trans (h : Frame bound cursorId st st') (h' : Frame bound cursorId st' st'') :
    Frame bound cursorId st st'' where
  output := h'.output.trans h.output
  limit := h'.limit.trans h.limit
  offset := h'.offset.trans h.offset
  nextCursorId_le := h.nextCursorId_le.trans h'.nextCursorId_le
  sets := fun j hj hne => (h'.sets j hj hne).trans (h.sets j hj hne)
  collected := fun j hj => (h'.collected j hj).trans (h.collected j hj)

theorem of_temporary {bound' temporary : Nat} (h : Frame bound' temporary st st')
    (hbound : bound ≤ bound') (htemporary : bound ≤ temporary) (cursorId : Nat) :
    Frame bound cursorId st st' where
  output := h.output
  limit := h.limit
  offset := h.offset
  nextCursorId_le := h.nextCursorId_le
  sets := fun j hj _ => h.sets j (hj.trans_le hbound) (hj.trans_le htemporary).ne
  collected := fun j hj => h.collected j (hj.trans_le hbound)

theorem write (bound cursorId : Nat) (st : State n) (l : List (Row n)) :
    Frame bound cursorId st { st with sets := update st.sets cursorId l } where
  output := rfl
  limit := rfl
  offset := rfl
  nextCursorId_le := le_refl _
  sets := fun _ _ hne => update_of_ne hne _ _
  collected := fun _ _ => rfl

theorem openEphemeral (hbound : bound ≤ st.nextCursorId) (cursorId : Nat) :
    Frame bound cursorId st (openEphemeral st).2 where
  output := rfl
  limit := rfl
  offset := rfl
  nextCursorId_le := le_succ _
  sets := fun _ hj _ => update_of_ne (hj.trans_le hbound).ne _ _
  collected := fun _ hj => update_of_ne (hj.trans_le hbound).ne _ _

end Frame

variable (conv) in
/-- The chain evaluates under the one collation where it goes into an index: the indexes that its
operators make or take over compare by it, and what goes into one of the latter is not converted by
its affinity. -/
def FitsIndex (chain : Collations n) : Plan n → Collations n → Option (Fin n → Affinity) → Prop
  | .select _, _, _ => True
  | .compound left .unionAll _, collation, affinity => FitsIndex chain left collation affinity
  | .compound left .intersect rightMost, _, _ =>
    SameCollation (pairCollation left.rightMost rightMost) chain ∧
      FitsIndex chain left (pairCollation left.rightMost rightMost) none
  | .compound left .union rightMost, collation, affinity
  | .compound left .except rightMost, collation, affinity =>
    SameCollation collation chain ∧
      (∀ r ∈ left.armRows ++ rightMost.rows, applyAffinity conv affinity r = r) ∧
      FitsIndex chain left collation none

variable [UncasedStr]

structure Loaded (conv : Conversions) (chain : Collations n) (plan : Plan n) (cursorId : Nat)
    (collation : Collations n) (affinity : Option (Fin n → Affinity)) (st st' : State n) :
    Prop where
  evaluates : ∃ rows, Evaluates (rowCmp chain) plan rows ∧
    DistinctOf (rowCmp collation) (st'.sets cursorId) (rows.map (applyAffinity conv affinity))
  sorted : Sorted (rowCmp collation) (st'.sets cursorId)
  frame : Frame st.nextCursorId cursorId st st'

variable {collation : Collations n}

theorem insertRows (bound : Nat)
    (hrun : emitRows conv (.ephemeralIndex cursorId ⟨collation, false⟩ affinity false) false false
      rows st = st') (hsorted : Sorted (rowCmp collation) (st.sets cursorId)) :
    Sorted (rowCmp collation) (st'.sets cursorId) ∧
      DistinctOf (rowCmp collation) (st'.sets cursorId)
        (st.sets cursorId ++ rows.map (applyAffinity conv affinity)) ∧
      Frame bound cursorId st st' := by
  rw [emitRows_set] at hrun
  subst hrun
  obtain ⟨hsorted', hdistinct⟩ :=
    distinctOf_insertAll (rows.map (applyAffinity conv affinity)) hsorted
  simp only [foldl_map] at hsorted' hdistinct
  simp only [update_self]
  exact ⟨hsorted', hdistinct, Frame.write _ _ _ _⟩

theorem eraseRows (bound : Nat)
    (hrun : emitRows conv (.ephemeralIndex cursorId ⟨collation, false⟩ affinity true) false false
      rows st = st') (hsorted : Sorted (rowCmp collation) (st.sets cursorId)) :
    Sorted (rowCmp collation) (st'.sets cursorId) ∧
      DistinctOf (rowCmp collation) (st'.sets cursorId)
        ((st.sets cursorId).filter fun r => !contains (rowCmp collation) r rows) ∧
      Frame bound cursorId st st' := by
  rw [emitRows_set] at hrun
  subst hrun
  obtain ⟨hsorted', hmem⟩ := mem_eraseAll rows hsorted
  simp only [update_self]
  exact ⟨hsorted', (DistinctOf.refl hsorted'.distinct).congr_right hmem, Frame.write _ _ _ _⟩

section

variable {chain : Collations n} {left : Plan n} {rightMost : SelectPlan n}

omit [UncasedStr] in
theorem applyAffinity_none : (applyAffinity conv none : Row n → Row n) = id := rfl

section

variable (h : Loaded conv chain left cursorId collation none st st')

include h

theorem Loaded.union (hsame : SameCollation collation chain)
    (hrun : emitQuery conv rightMost (.ephemeralIndex cursorId ⟨collation, false⟩ none false)
      false false st' = st'') :
    Evaluates (rowCmp chain) (.compound left .union rightMost) (st''.sets cursorId) ∧
      Sorted (rowCmp collation) (st''.sets cursorId) ∧
      Frame st.nextCursorId cursorId st st'' := by
  rw [emitQuery_free] at hrun
  obtain ⟨hsorted, hdistinct, hframe⟩ := insertRows _ hrun h.sorted
  obtain ⟨ls, hleft, hls⟩ := h.evaluates
  rw [applyAffinity_none, map_id] at hls hdistinct
  refine ⟨⟨ls, hleft, ?_⟩, hsorted, h.frame.trans hframe⟩
  rw [← hsame.rowCmp_eq]
  exact hls.append hdistinct

theorem Loaded.except (hsame : SameCollation collation chain)
    (hrun : emitQuery conv rightMost (.ephemeralIndex cursorId ⟨collation, false⟩ none true)
      false false st' = st'') :
    Evaluates (rowCmp chain) (.compound left .except rightMost) (st''.sets cursorId) ∧
      Sorted (rowCmp collation) (st''.sets cursorId) ∧
      Frame st.nextCursorId cursorId st st'' := by
  rw [emitQuery_free] at hrun
  obtain ⟨hsorted, hdistinct, hframe⟩ := eraseRows _ hrun h.sorted
  obtain ⟨ls, hleft, hls⟩ := h.evaluates
  rw [applyAffinity_none, map_id] at hls
  refine ⟨⟨ls, hleft, ?_⟩, hsorted, h.frame.trans hframe⟩
  rw [← hsame.rowCmp_eq]
  refine hdistinct.trans (hls.filter fun a b hab => ?_)
  rw [contains_congr hab]

end

theorem Loaded.intersect {bound : Nat} (cursorId : Nat) (rightMost : SelectPlan n)
    (hbound : bound ≤ st.nextCursorId) (h : Loaded conv chain left st.nextCursorId collation none
      (openEphemeral (openEphemeral st).2).2 st')
    (hsame : SameCollation collation chain)
    (hrun : emitQuery conv rightMost
      (.ephemeralIndex (st.nextCursorId + 1) ⟨collation, false⟩ none false) false false
        st' = st'') :
    Evaluates (rowCmp chain) (.compound left .intersect rightMost)
        ((st''.sets st.nextCursorId).filter fun r =>
          contains (rowCmp collation) r (st''.sets (st.nextCursorId + 1))) ∧
      Frame bound cursorId st st'' := by
  rw [emitQuery_free] at hrun
  have hne : st.nextCursorId ≠ st.nextCursorId + 1 := (lt_succ_self _).ne
  have hempty : st'.sets (st.nextCursorId + 1) = [] :=
    (h.frame.sets _ (lt_succ_self _) hne.symm).trans (update_self ..)
  have hnil : Sorted (rowCmp collation) (st'.sets (st.nextCursorId + 1)) := hempty ▸ .nil
  obtain ⟨-, hdistinct, hframe⟩ := insertRows _ hrun hnil
  obtain ⟨ls, hleft, hls⟩ := h.evaluates
  rw [applyAffinity_none, map_id] at hls hdistinct
  rw [hempty, nil_append] at hdistinct
  constructor
  · refine ⟨ls, hleft, ?_⟩
    rw [hframe.sets st.nextCursorId (lt_succ_self _) hne, ← hsame.rowCmp_eq]
    simp only [hdistinct.contains_eq]
    exact hls.filter fun a b hab => contains_congr hab _
  · have hopen := Frame.openEphemeral hbound cursorId
    have hopen' := Frame.openEphemeral (hbound.trans hopen.nextCursorId_le) cursorId
    have hbound' := (hbound.trans hopen.nextCursorId_le).trans hopen'.nextCursorId_le
    have hleft := h.frame.of_temporary hbound' hbound cursorId
    have hright := hframe.of_temporary (hbound.trans (le_succ _))
      (hbound.trans (le_succ _)) cursorId
    exact ((hopen.trans hopen').trans hleft).trans hright

theorem distinctOf_map_self (hsorted : Sorted (rowCmp collation) rows)
    (haffinity : ∀ r ∈ rows, applyAffinity conv affinity r = r) :
    DistinctOf (rowCmp collation) rows (rows.map (applyAffinity conv affinity)) := by
  have hmap : rows.map (applyAffinity conv affinity) = rows := by
    rw [map_congr_left haffinity, map_id']
  rw [hmap]
  exact .refl hsorted.distinct

end

theorem emitCompoundSelect_index {chain : Collations n} (queryDestination : QueryDestination n)
    (hfits : FitsIndex conv chain plan collation affinity)
    (hcursor : cursorId < st.nextCursorId) (hempty : st.sets cursorId = []) :
    Loaded conv chain plan cursorId collation affinity st
      (emitCompoundSelect conv queryDestination plan
        (.ephemeralIndex cursorId ⟨collation, false⟩ affinity false) false false st) := by
  induction plan generalizing cursorId collation affinity st with
  | select plan =>
    simp only [emitCompoundSelect, Bool.false_and, Bool.false_eq_true, if_false, emitQuery_free]
    have hnil : Sorted (rowCmp collation) (st.sets cursorId) := hempty ▸ .nil
    obtain ⟨hsorted, hdistinct, hframe⟩ := insertRows _ rfl hnil
    rw [hempty, nil_append] at hdistinct
    exact ⟨⟨plan.rows, .refl _, hdistinct⟩, hsorted, hframe⟩
  | compound left operator rightMost ih =>
    cases operator with
    | unionAll =>
      have h := ih hfits hcursor hempty
      simp only [emitCompoundSelect, Bool.false_and, Bool.false_eq_true, if_false, emitQuery_free]
      obtain ⟨hsorted, hdistinct, hframe⟩ := insertRows _ rfl h.sorted
      obtain ⟨ls, hleft, hls⟩ := h.evaluates
      refine ⟨⟨ls ++ rightMost.rows, ⟨ls, hleft, .refl _⟩, ?_⟩, hsorted, h.frame.trans hframe⟩
      rw [map_append]
      exact hls.append hdistinct
    | union =>
      obtain ⟨hsame, haffinity, hfits⟩ := hfits
      have h := ih hfits hcursor hempty
      obtain ⟨heval, hsorted, hframe⟩ := h.union hsame rfl
      refine ⟨⟨_, heval, ?_⟩, hsorted, hframe⟩
      exact distinctOf_map_self hsorted fun r hr => haffinity r (heval.subset r hr)
    | except =>
      obtain ⟨hsame, haffinity, hfits⟩ := hfits
      have h := ih hfits hcursor hempty
      obtain ⟨heval, hsorted, hframe⟩ := h.except hsame rfl
      refine ⟨⟨_, heval, ?_⟩, hsorted, hframe⟩
      exact distinctOf_map_self hsorted fun r hr => haffinity r (heval.subset r hr)
    | intersect =>
      obtain ⟨hsame, hfits⟩ := hfits
      have h := ih hfits (openEphemeral_twice_cursor st) (openEphemeral_twice_sets st)
      obtain ⟨heval, hframe⟩ := h.intersect st.nextCursorId rightMost (le_refl _) hsame rfl
      have hempty' := (hframe.sets cursorId hcursor hcursor.ne).trans hempty
      have hnil := hempty' ▸ (List.Pairwise.nil : Sorted (rowCmp collation) [])
      obtain ⟨hsorted, hdistinct, hframe'⟩ := insertRows _ rfl hnil
      rw [hempty', nil_append] at hdistinct
      exact ⟨⟨_, heval, hdistinct⟩, hsorted,
        (hframe.of_temporary (le_refl _) (le_refl _) cursorId).trans hframe'⟩

end

end PgMicro.CompoundSelect
