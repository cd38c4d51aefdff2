import PgMicro.CompoundSelect.SetAlgebra

/-!
# Delivery

The arms of a chain of UNION ALL, and the temporary index at its left end, go to the destination
one after the other under the shared counters. If each ticks the counters this is one loop over the
rows of all, which lets through what OFFSET and LIMIT leave.
-/

namespace PgMicro.CompoundSelect

open Types Function List
open OrderedSet (DistinctOf Sorted)

variable {n : Nat} {conv : Conversions} {destination : QueryDestination n} {offset limit : Bool}
  {st : State n}

section

variable [UncasedStr]

def tick (conv : Conversions) (destination : QueryDestination n) (offset limit : Bool)
    (st : State n) (r : Row n) : State n :=
  if limit && decide (st.limit = 0) then st
  else if offset && decide (0 < st.offset) then { st with offset := st.offset - 1 }
  else
    let st := emitColumnsToDestination conv destination r st
    if limit then { st with limit := st.limit - 1 } else st

theorem foldl_tick_done (rows : List (Row n)) (hdone : (limit && decide (st.limit = 0)) = true) :
    rows.foldl (tick conv destination offset limit) st = st := by
  induction rows with
  | nil => rfl
  | cons r rows ih =>
    have htick : tick conv destination offset limit st r = st := by rw [tick, if_pos hdone]
    rw [foldl_cons, htick, ih]

theorem emitRows_eq_foldl (rows : List (Row n)) (hopen : (limit && decide (st.limit = 0)) = false) :
    emitRows conv destination offset limit rows st =
      rows.foldl (tick conv destination offset limit) st := by
  induction rows generalizing st with
  | nil => rfl
  | cons r rows ih =>
    rw [foldl_cons, emitRows, tick, hopen]
    simp only [Bool.false_eq_true, if_false]
    split
    · exact ih hopen
    cases limit with
    | false => exact ih (by rw [Bool.false_and])
    | true =>
      simp only [if_true]
      split
      next hzero =>
        rw [foldl_tick_done]
        simpa using hzero
      next hzero =>
        exact ih (by simpa using hzero)

theorem emitRows_or_done (rows : List (Row n)) :
    (if limit && decide (st.limit = 0) then st
      else emitRows conv destination offset limit rows st) =
      rows.foldl (tick conv destination offset limit) st := by
  cases hdone : limit && decide (st.limit = 0) with
  | true => rw [foldl_tick_done rows hdone, if_pos rfl]
  | false => rw [emitRows_eq_foldl rows hdone, if_neg (by decide)]

def Counted (destination : QueryDestination n) (plan : SelectPlan n) : Prop :=
  match plan.kind, destination with
  | .loop, _ => True
  | .values, .resultRows => True
  | _, _ => False

theorem emitQuery_counted {plan : SelectPlan n} (hoffset : offset = true → limit = true)
    (hcounted : limit = true → Counted destination plan) :
    (if limit && decide (st.limit = 0) then st
      else emitQuery conv plan destination limit offset st) =
      plan.rows.foldl (tick conv destination offset limit) st := by
  rw [← emitRows_or_done]
  cases hdone : limit && decide (st.limit = 0) with
  | true => rfl
  | false =>
    cases limit with
    | false =>
      obtain rfl : offset = false := by simpa using hoffset
      exact emitQuery_free plan destination st
    | true =>
      simp only [emitQuery, hdone, Bool.false_eq_true]
      cases hkind : plan.kind with
      | loop => rfl
      | values =>
        cases destination with
        | resultRows => rfl
        | _ => simp [Counted, hkind] at hcounted
      | aggregate | simpleCount => simp [Counted, hkind] at hcounted

end

structure Agrees (bound : Nat) (st st' : State n) : Prop where
  output : st'.output = st.output
  limit : st'.limit = st.limit
  offset : st'.offset = st.offset
  sets : ∀ j < bound, st'.sets j = st.sets j
  collected : ∀ j < bound, st'.collected j = st.collected j

theorem Agrees.refl (bound : Nat) (st : State n) : Agrees bound st st :=
  ⟨rfl, rfl, rfl, fun _ _ => rfl, fun _ _ => rfl⟩

def QueryDestination.Below (bound : Nat) : QueryDestination n → Prop
  | .ephemeralIndex cursorId .. => cursorId < bound
  | _ => True

section

variable {bound : Nat} {st' : State n}

theorem Frame.agrees {cursorId : Nat} (h : Frame bound cursorId st st')
    (hcursor : bound ≤ cursorId) : Agrees bound st st' where
  output := h.output
  limit := h.limit
  offset := h.offset
  sets := fun j hj => h.sets j hj (hj.trans_le hcursor).ne
  collected := h.collected

theorem agrees_of_temporary
    (h : Frame (openEphemeral st).2.nextCursorId st.nextCursorId (openEphemeral st).2 st') :
    Agrees st.nextCursorId st st' := by
  have hopen := Frame.openEphemeral (Nat.le_refl st.nextCursorId) st.nextCursorId
  have hframe := h.of_temporary hopen.nextCursorId_le (Nat.le_refl _) st.nextCursorId
  exact (hopen.trans hframe).agrees (Nat.le_refl _)

section

variable [UncasedStr] (h : Agrees bound st st') (hbelow : destination.Below bound)

include h hbelow

theorem Agrees.emitColumns (r : Row n) :
    Agrees bound (emitColumnsToDestination conv destination r st)
      (emitColumnsToDestination conv destination r st') := by
  cases destination with
  | resultRows | coroutineYield | ephemeralTable =>
    exact ⟨congrArg (· ++ [r]) h.output, h.limit, h.offset, h.sets, h.collected⟩
  | ephemeralIndex cursorId index affinity isDelete =>
    have hsets := h.sets cursorId hbelow
    have hcollected := h.collected cursorId hbelow
    simp only [emitColumnsToDestination, hsets, hcollected]
    have hupdate {α : Type} {f g : Nat → α} (hfg : ∀ j < bound, g j = f j) (a : α) :
        ∀ j < bound, update g cursorId a j = update f cursorId a j := by
      intro j hj
      rcases eq_or_ne j cursorId with rfl | hne
      · rw [update_self, update_self]
      · rw [update_of_ne hne, update_of_ne hne, hfg j hj]
    cases isDelete with
    | true => exact ⟨h.output, h.limit, h.offset, hupdate h.sets _, h.collected⟩
    | false =>
      cases index.hasRowid with
      | true => exact ⟨h.output, h.limit, h.offset, h.sets, hupdate h.collected _⟩
      | false => exact ⟨h.output, h.limit, h.offset, hupdate h.sets _, h.collected⟩

theorem Agrees.tick (r : Row n) :
    Agrees bound (tick conv destination offset limit st r)
      (tick conv destination offset limit st' r) := by
  simp only [CompoundSelect.tick, h.limit, h.offset]
  split
  · exact h
  split
  · exact ⟨h.output, rfl, rfl, h.sets, h.collected⟩
  · have hemit : Agrees bound (emitColumnsToDestination conv destination r st)
        (emitColumnsToDestination conv destination r st') := h.emitColumns hbelow r
    split
    · exact ⟨hemit.output, by rw [hemit.limit], hemit.offset, hemit.sets, hemit.collected⟩
    · exact hemit

theorem Agrees.foldl_tick (rows : List (Row n)) :
    Agrees bound (rows.foldl (CompoundSelect.tick conv destination offset limit) st)
      (rows.foldl (CompoundSelect.tick conv destination offset limit) st') := by
  induction rows generalizing st st' with
  | nil => exact h
  | cons r rows ih => exact ih (h.tick hbelow r)

end

variable (conv) in
/-- The chain evaluates under the one collation where it goes to the destination: its arms tick the
counters, and the temporary index at its left end, which must not be the destination itself,
compares by that collation. -/
def FitsOutput (chain : Collations n) (destination : QueryDestination n) (limit : Bool) :
    Plan n → Prop
  | .select plan => limit = true → Counted destination plan
  | .compound left .unionAll rightMost =>
    FitsOutput chain destination limit left ∧ (limit = true → Counted destination rightMost)
  | .compound left .intersect rightMost =>
    SameCollation (pairCollation left.rightMost rightMost) chain ∧
      FitsIndex conv chain left (pairCollation left.rightMost rightMost) none
  | .compound left .union rightMost | .compound left .except rightMost =>
    destination.reusable = none ∧ SameCollation (pairCollation left.rightMost rightMost) chain ∧
      FitsIndex conv chain left (pairCollation left.rightMost rightMost) none

variable [UncasedStr]

def Delivers (conv : Conversions) (chain : Collations n) (plan : Plan n)
    (destination : QueryDestination n) (offset limit : Bool) (st st' : State n) : Prop :=
  ∃ rows, Evaluates (rowCmp chain) plan rows ∧
    Agrees st.nextCursorId (rows.foldl (tick conv destination offset limit) st) st'

variable {chain : Collations n} {plan : Plan n}

theorem Delivers.of_done (hdone : (limit && decide (st.limit = 0)) = true) :
    Delivers conv chain plan destination offset limit st st := by
  obtain ⟨rows, hrows⟩ : ∃ rows, Evaluates (rowCmp chain) plan rows := exists_evaluates plan
  refine ⟨rows, hrows, ?_⟩
  rw [foldl_tick_done rows hdone]
  exact .refl _ _

theorem Delivers.of_rows {rows : List (Row n)} (hrows : Evaluates (rowCmp chain) plan rows)
    (hopen : (limit && decide (st.limit = 0)) = false) (hagrees : Agrees st.nextCursorId st st')
    (hbelow : destination.Below st.nextCursorId) :
    Delivers conv chain plan destination offset limit st
      (emitRows conv destination offset limit rows st') := by
  refine ⟨rows, hrows, ?_⟩
  rw [emitRows_eq_foldl rows (by rw [hagrees.limit]; exact hopen)]
  exact hagrees.foldl_tick hbelow rows

theorem emitCompoundSelect_output (hfits : FitsOutput conv chain destination limit plan)
    (hoffset : offset = true → limit = true) (hbelow : destination.Below st.nextCursorId) :
    Delivers conv chain plan destination offset limit st
      (emitCompoundSelect conv destination plan destination limit offset st) := by
  induction plan with
  | select plan =>
    rw [emitCompoundSelect, emitQuery_counted hoffset hfits]
    exact ⟨plan.rows, .refl _, .refl _ _⟩
  | compound left operator rightMost ih =>
    cases hdone : limit && decide (st.limit = 0) with
    | true => simpa [emitCompoundSelect, hdone] using Delivers.of_done hdone
    | false =>
      simp only [emitCompoundSelect, hdone, Bool.false_eq_true]
      cases operator with
      | unionAll =>
        obtain ⟨ls, hleft, hagrees⟩ := ih hfits.1
        refine ⟨ls ++ rightMost.rows, ⟨ls, hleft, .refl _⟩, ?_⟩
        rw [foldl_append]
        simp only [emitQuery_counted hoffset hfits.2]
        exact hagrees.foldl_tick hbelow rightMost.rows
      | union =>
        obtain ⟨hreusable, hsame, hfits⟩ := hfits
        simp only [hreusable]
        have h := emitCompoundSelect_index destination hfits (openEphemeral_cursor st)
          (openEphemeral_sets st)
        obtain ⟨heval, -, hframe⟩ := h.union hsame rfl
        exact .of_rows heval hdone (agrees_of_temporary hframe) hbelow
      | except =>
        obtain ⟨hreusable, hsame, hfits⟩ := hfits
        simp only [hreusable]
        have h := emitCompoundSelect_index destination hfits (openEphemeral_cursor st)
          (openEphemeral_sets st)
        obtain ⟨heval, -, hframe⟩ := h.except hsame rfl
        exact .of_rows heval hdone (agrees_of_temporary hframe) hbelow
      | intersect =>
        obtain ⟨hsame, hfits⟩ := hfits
        have h := emitCompoundSelect_index destination hfits (openEphemeral_twice_cursor st)
          (openEphemeral_twice_sets st)
        obtain ⟨heval, hframe⟩ := h.intersect st.nextCursorId rightMost (Nat.le_refl _) hsame rfl
        exact .of_rows heval hdone (hframe.agrees (Nat.le_refl _)) hbelow

end

section

def cut (limits : Limits) (rows : List (Row n)) : List (Row n) :=
  match limits with
  | none => rows
  | some (limit, offset) =>
    let rest := rows.drop (offset.getD 0).toNat
    if limit < 0 then rest else rest.take limit.toNat

variable [UncasedStr]

def emitAll (conv : Conversions) (destination : QueryDestination n) (rows : List (Row n))
    (st : State n) : State n :=
  rows.foldl (fun st r => emitColumnsToDestination conv destination r st) st

def State.counters (st : State n) (limit offset : Int) : State n :=
  { st with limit := limit, offset := offset }

theorem emitColumns_counters (r : Row n) (st : State n) (limit offset : Int) :
    emitColumnsToDestination conv destination r (st.counters limit offset) =
      (emitColumnsToDestination conv destination r st).counters limit offset := by
  cases destination with
  | resultRows | coroutineYield | ephemeralTable => rfl
  | ephemeralIndex cursorId index affinity isDelete =>
    simp only [emitColumnsToDestination]
    cases isDelete with
    | true => rfl
    | false => cases index.hasRowid <;> rfl

theorem emitAll_counters (rows : List (Row n)) (st : State n) (limit offset : Int) :
    emitAll conv destination rows (st.counters limit offset) =
      (emitAll conv destination rows st).counters limit offset := by
  induction rows generalizing st with
  | nil => rfl
  | cons r rows ih =>
    simp only [emitAll, foldl_cons, emitColumns_counters]
    exact ih _

theorem emitRows_free (rows : List (Row n)) (st : State n) :
    emitRows conv destination false false rows st = emitAll conv destination rows st :=
  emitRows_eq_foldl rows rfl

variable {offsetFlag : Bool}

theorem tick_counters (st : State n) (r : Row n) {limit offset : Int}
    (hflag : offsetFlag = false → offset = 0) :
    tick conv destination offsetFlag true (st.counters limit offset) r =
      if limit = 0 then st.counters limit offset
      else if 0 < offset then st.counters limit (offset - 1)
      else (emitColumnsToDestination conv destination r st).counters (limit - 1) offset := by
  have hskip : (offsetFlag && decide (0 < offset)) = decide (0 < offset) := by
    cases offsetFlag with
    | true => rfl
    | false => rw [hflag rfl]; rfl
  have hlimit : (st.counters limit offset).limit = limit := rfl
  have hoffset : (st.counters limit offset).offset = offset := rfl
  simp only [tick, hoffset, hskip, Bool.true_and, decide_eq_true_eq, emitColumns_counters]
  rfl

theorem foldl_tick_some (rows : List (Row n)) (st : State n) (limit offset : Int)
    (hflag : offsetFlag = false → offset = 0) :
    ∃ limit' offset', rows.foldl (tick conv destination offsetFlag true)
        (st.counters limit offset) =
      (emitAll conv destination (cut (some (limit, some offset)) rows) st).counters
        limit' offset' := by
  induction rows generalizing st limit offset with
  | nil => exact ⟨limit, offset, by simp [cut, emitAll]⟩
  | cons r rows ih =>
    rw [foldl_cons, tick_counters st r hflag]
    split
    next hzero =>
      subst hzero
      rw [foldl_tick_done rows (by rfl)]
      exact ⟨0, offset, by simp [cut, emitAll]⟩
    next hlimit =>
      split
      next hoffset =>
        obtain ⟨limit', offset', h⟩ := ih st limit (offset - 1) fun hfalse => by
          have := hflag hfalse
          omega
        have hdrop : offset.toNat = (offset - 1).toNat + 1 := by omega
        refine ⟨limit', offset', h.trans ?_⟩
        simp only [cut, Option.getD_some, hdrop, drop_succ_cons]
      next hoffset =>
        obtain ⟨limit', offset', h⟩ := ih (emitColumnsToDestination conv destination r st)
          (limit - 1) offset hflag
        have hdrop : offset.toNat = 0 := by omega
        refine ⟨limit', offset', h.trans ?_⟩
        simp only [cut, Option.getD_some, hdrop, drop_zero]
        by_cases hneg : limit < 0
        · rw [if_pos hneg, if_pos (by omega), emitAll, emitAll, foldl_cons]
        · have htake : limit.toNat = (limit - 1).toNat + 1 := by omega
          rw [if_neg hneg, if_neg (by omega), htake, take_succ_cons, emitAll, emitAll,
            foldl_cons]

theorem foldl_tick_cut (limits : Limits) (rows : List (Row n)) (st : State n) :
    ∃ limit' offset', rows.foldl
        (tick conv destination (limits.bind Prod.snd).isSome limits.isSome)
        (st.withLimits limits) =
      (emitAll conv destination (cut limits rows) st).counters limit' offset' := by
  rcases limits with _ | ⟨limit, offset⟩
  · exact ⟨0, 0, emitAll_counters rows st 0 0⟩
  · exact foldl_tick_some rows st limit (offset.getD 0) fun hnone => by
      cases offset with
      | none => rfl
      | some offset => cases hnone

end

end PgMicro.CompoundSelect
