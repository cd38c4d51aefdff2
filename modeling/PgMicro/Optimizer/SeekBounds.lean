import PgMicro.Optimizer.SeekLoop

/-!
# The bounds of a seek

The groups that `usable_constraints_for_lhs_mask` returns, and which entries lie between the start
and the end that `build_seek_def` makes of them.
-/

namespace PgMicro.Optimizer.Seek

open Types
open BTree (IterationDirection SeekOp)

section

variable (constraints : List Constraint) (order : Nat → Option SortOrder)

def Refers (ops : List Operator) (pos : Nat) : Prop :=
  ∃ c, constraints[pos]? = some c ∧ c.operator ∈ ops

def lowerOps : List Operator := [.greater, .greaterEquals]

def upperOps : List Operator := [.less, .lessEquals]

structure IsGroup (group : RangeConstraintRef) : Prop where
  sortOrder : order group.indexColPos = some group.sortOrder
  equality : ∀ pos ∈ group.eq, Refers constraints [.equals] pos ∧ group.lowerBound = none ∧
    group.upperBound = none
  lower : ∀ pos ∈ group.lowerBound, Refers constraints lowerOps pos
  upper : ∀ pos ∈ group.upperBound, Refers constraints upperOps pos
  bounded : group.eq = none → group.lowerBound.isSome ∨ group.upperBound.isSome

def Groups : List RangeConstraintRef → Prop
  | [] => True
  | group :: groups => IsGroup constraints order group ∧ group.indexColPos = groups.length ∧
    (∀ g ∈ groups, g.eq.isSome) ∧ Groups groups

variable {constraints order} {group : RangeConstraintRef} {c : Constraint}

theorem IsGroup.merge (h : IsGroup constraints order group) {pos : Nat}
    (hc : constraints[pos]? = some c) : IsGroup constraints order (group.merge c.operator pos) := by
  obtain ⟨tableColPos, indexColPos, sortOrder, eq, lower, upper⟩ := group
  cases eq with
  | some p => exact h
  | none =>
    have hrefers (ops : List Operator) (hop : c.operator ∈ ops) :
        ∀ p ∈ some pos, Refers constraints ops p := by
      rintro p ⟨⟩
      exact ⟨c, hc, hop⟩
    cases hop : c.operator <;> rw [hop] at hrefers
    case greater | greaterEquals =>
      exact ⟨h.sortOrder, nofun, hrefers _ (by decide), h.upper, fun _ => .inl rfl⟩
    case less | lessEquals =>
      exact ⟨h.sortOrder, nofun, h.lower, hrefers _ (by decide), fun _ => .inr rfl⟩
    case equals | other => exact h

theorem isGroup_newGroup {cref : ConstraintRef} (hc : constraints[cref.constraintVecPos]? = some c)
    (horder : order cref.indexColPos = some cref.sortOrder) (h : newGroup c cref = some group) :
    IsGroup constraints order group ∧ group.indexColPos = cref.indexColPos := by
  have hrefers (ops : List Operator) (hop : c.operator ∈ ops) :
      ∀ pos ∈ some cref.constraintVecPos, Refers constraints ops pos := by
    rintro pos ⟨⟩
    exact ⟨c, hc, hop⟩
  rw [newGroup] at h
  cases hop : c.operator <;> rw [hop] at h hrefers <;> cases h
  case equals =>
    exact ⟨⟨horder, fun p hp => ⟨hrefers _ (by decide) p hp, rfl, rfl⟩, nofun, nofun, nofun⟩, rfl⟩
  case greater | greaterEquals =>
    exact ⟨⟨horder, nofun, hrefers _ (by decide), nofun, fun _ => .inl rfl⟩, rfl⟩
  case less | lessEquals =>
    exact ⟨⟨horder, nofun, nofun, hrefers _ (by decide), fun _ => .inr rfl⟩, rfl⟩

theorem merge_indexColPos (group : RangeConstraintRef) (op : Operator) (pos : Nat) :
    (group.merge op pos).indexColPos = group.indexColPos := by
  simp only [RangeConstraintRef.merge]
  split
  · rfl
  · cases op <;> rfl

section

variable {lhsMask : List Nat} {tableIdx : Nat} {refs : List ConstraintRef}
  (hrefs : ∀ cref ∈ refs, order cref.indexColPos = some cref.sortOrder)

include hrefs

theorem groups_usableConstraints {usable : List RangeConstraintRef}
    (h : Groups constraints order usable) :
    Groups constraints order
      (usableConstraints constraints lhsMask tableIdx refs usable usable.length) := by
  induction refs generalizing usable with
  | nil => exact h
  | cons cref refs ih =>
    obtain ⟨horder, hrest⟩ := List.forall_mem_cons.1 hrefs
    rw [usableConstraints]
    cases hc : constraints[cref.constraintVecPos]? with
    | none => exact h
    | some c =>
      dsimp only
      split
      · split
        · exact h
        · exact ih hrest h
      cases usable with
      | nil =>
        dsimp only
        split
        · exact h
        rename_i hpos
        cases hnew : newGroup c cref with
        | none => exact ih hrest h
        | some group =>
          obtain ⟨hgroup, hcol⟩ := isGroup_newGroup hc horder hnew
          refine @ih hrest [group] ⟨hgroup, ?_, nofun, trivial⟩
          rw [hcol]
          exact not_not.1 hpos
      | cons group groups =>
        obtain ⟨hgroup, hcol, heqs, hgroups⟩ := h
        dsimp only
        split
        · refine @ih hrest (group.merge c.operator cref.constraintVecPos :: groups)
            ⟨hgroup.merge hc, ?_, heqs, hgroups⟩
          rw [merge_indexColPos]
          exact hcol
        split
        · exact ⟨hgroup, hcol, heqs, hgroups⟩
        rename_i hpos
        split
        · exact ⟨hgroup, hcol, heqs, hgroups⟩
        rename_i heq
        split
        · exact ih hrest ⟨hgroup, hcol, heqs, hgroups⟩
        cases hnew : newGroup c cref with
        | none => exact ih hrest ⟨hgroup, hcol, heqs, hgroups⟩
        | some next =>
          obtain ⟨hnext, hnextCol⟩ := isGroup_newGroup hc horder hnew
          refine @ih hrest (next :: group :: groups)
            ⟨hnext, ?_, List.forall_mem_cons.2 ⟨?_, heqs⟩, hgroup, hcol, heqs, hgroups⟩
          · rw [hnextCol]
            exact not_not.1 hpos
          · cases hg : group.eq with
            | none =>
              rw [hg] at heq
              exact absurd rfl heq
            | some pos => rfl

theorem groups_usableConstraintsForLhsMask :
    Groups constraints order
      (usableConstraintsForLhsMask constraints refs lhsMask tableIdx).reverse := by
  rw [usableConstraintsForLhsMask, List.reverse_reverse]
  have hnil : Groups constraints order [] := trivial
  exact groups_usableConstraints hrefs hnil

end

end

open SeekRangeConstraint

open SeekDef

section

theorem lasts_meets_of_ascends {α : Type} (op : SeekOp) {c : α → Ordering} {l : List α}
    (h : l.Pairwise fun a a' => (c a = .gt → c a' = .gt) ∧ (c a' = .lt → c a = .lt)) :
    SortedScan.Lasts (fun a => op.meets (c a)) (op.iterationDirection.iterate l) := by
  have hforwards : ∀ o o' : Ordering, (o = .gt → o' = .gt) ∧ (o' = .lt → o = .lt) →
      (o != .lt → o' != .lt) ∧ (o == .gt → o' == .gt) := by decide
  have hbackwards : ∀ o o' : Ordering, (o = .gt → o' = .gt) ∧ (o' = .lt → o = .lt) →
      (o' != .gt → o != .gt) ∧ (o' == .lt → o == .lt) := by decide
  cases op with
  | ge _ => exact h.imp fun h => (hforwards _ _ h).1
  | gt => exact h.imp fun h => (hforwards _ _ h).2
  | le _ => exact List.pairwise_reverse.2 (h.imp fun h => (hbackwards _ _ h).1)
  | lt => exact List.pairwise_reverse.2 (h.imp fun h => (hbackwards _ _ h).2)

/-- How an entry compares with a key, from how it compares with the equality columns (`x`), with
NULL (`n`) and with the expressions. -/
def SeekKeyComponent.ord (order : SortOrder) (x n : Ordering) (c : Expr → Ordering) :
    SeekKeyComponent → Ordering
  | .none => x
  | .null => x.then (order.apply n)
  | .expr e => x.then (order.apply (c e))

def SeekDef.starts (seekDef : SeekDef) (order : SortOrder) (x n : Ordering) (c : Expr → Ordering) :
    Bool :=
  match seekDef.prefixKey, seekDef.start.lastComponent with
  | [], .none =>
    match seekDef.iterDir, order with
    | .forwards, .asc => SeekOp.gt.meets (order.apply n)
    | .backwards, .desc => SeekOp.lt.meets (order.apply n)
    | _, _ => true
  | _, last => seekDef.start.op.meets (last.ord order x n c)

def SeekDef.stops (seekDef : SeekDef) (order : SortOrder) (x n : Ordering) (c : Expr → Ordering) :
    Bool :=
  match seekDef.prefixKey, seekDef.stop.lastComponent with
  | [], .none =>
    match seekDef.iterDir, order with
    | .forwards, .desc => SeekOp.meets (.ge false) (order.apply n)
    | .backwards, .asc => SeekOp.meets (.le false) (order.apply n)
    | _, _ => false
  | _, last => seekDef.stop.op.meets (last.ord order x n c)

def SeekRangeConstraint.holds (range : SeekRangeConstraint) (null upperNull : Bool)
    (c : Expr → Ordering) : Bool :=
  (range.lowerBound.all fun b => !null && b.operator.holds (c b.expr)) &&
    range.upperBound.all fun b => !null && !upperNull && b.operator.holds (c b.expr)

/-- The seek of a range: behind its key the cursor moves in the direction of the scan, its start
and end are the bounds, and the entries between them are those within the bounds. -/
structure IsRangeSeek (iterDir : IterationDirection) (key : List SeekRangeConstraint)
    (range : SeekRangeConstraint) (seekDef : SeekDef) : Prop where
  iterDir_eq : seekDef.iterDir = iterDir
  prefixKey_eq : seekDef.prefixKey = key
  start_iterDir : seekDef.start.op.iterationDirection = iterDir
  stop_iterDir : seekDef.stop.op.iterationDirection = iterDir
  start_all : seekDef.start.op.eqOnly = false
  exprs : ∀ e, (seekDef.start.lastComponent = .expr e ∨ seekDef.stop.lastComponent = .expr e) ↔
    (∃ b ∈ range.lowerBound, b.expr = e) ∨ ∃ b ∈ range.upperBound, b.expr = e
  /-- Only behind an equality is a bound a NULL. -/
  bound_ne_null : key = [] → seekDef.start.lastComponent ≠ .null ∧
    seekDef.stop.lastComponent ≠ .null
  stop_lower : iterDir = .backwards → range.sortOrder = .asc → ∀ b ∈ range.lowerBound,
    seekDef.stop.lastComponent = .expr b.expr
  between : ∀ {x : Ordering} {null upperNull : Bool} {c : Expr → Ordering},
    (key = [] → x = .eq) → (null → ∀ b ∈ range.lowerBound, c b.expr = .lt) →
    (null → upperNull = false → ∀ b ∈ range.upperBound, c b.expr = .lt) →
    (upperNull → ∀ b ∈ range.upperBound, c b.expr = if null then .eq else .gt) →
    (seekDef.starts range.sortOrder x (if null then .eq else .gt) c &&
      !seekDef.stops range.sortOrder x (if null then .eq else .gt) c) =
      (x == .eq && range.holds null upperNull c)

theorem buildSeekDef_range (iterDir : IterationDirection) (key : List SeekRangeConstraint)
    {range : SeekRangeConstraint} (heq : range.eq = none)
    (hlower : ∀ b ∈ range.lowerBound, b.operator ∈ lowerOps)
    (hupper : ∀ b ∈ range.upperBound, b.operator ∈ upperOps)
    (hbounded : range.lowerBound.isSome ∨ range.upperBound.isSome) :
    ∃ seekDef, buildSeekDef iterDir key range = .ok seekDef ∧
      IsRangeSeek iterDir key range seekDef := by
  obtain ⟨order, eq, lower, upper⟩ := range
  obtain rfl : eq = none := heq
  have hops {op strict weak : Operator} (h : op ∈ [strict, weak]) : op = strict ∨ op = weak := by
    simpa using h
  -- Once the operators, the direction and the order are known, a finite table is left.
  rcases lower with _ | ⟨lop, le⟩ <;> rcases upper with _ | ⟨uop, ue⟩
  · simp at hbounded
  · obtain rfl | rfl := hops (hupper _ rfl) <;> cases iterDir <;> cases order <;>
      rcases key with _ | ⟨k, key⟩ <;>
      refine ⟨_, rfl, rfl, rfl, rfl, rfl, rfl, fun e => by simp [eq_comm], by simp,
        by simp, ?_⟩
    all_goals
      intro x null upperNull c hx hcl hcu hnull
      clear hcl
      simp [starts, stops, holds, SeekKeyComponent.ord,
        Operator.holds] at hcu hnull hx ⊢
      generalize c ue = cu at *
      clear hops hupper hlower hbounded
      decide +revert
  · obtain rfl | rfl := hops (hlower _ rfl) <;> cases iterDir <;> cases order <;>
      rcases key with _ | ⟨k, key⟩ <;>
      refine ⟨_, rfl, rfl, rfl, rfl, rfl, rfl, fun e => by simp [eq_comm], by simp,
        by simp, ?_⟩
    all_goals
      intro x null upperNull c hx hcl hcu hnull
      clear hcu hnull
      simp [starts, stops, holds, SeekKeyComponent.ord,
        Operator.holds] at hcl hx ⊢
      generalize c le = cl at *
      clear hops hupper hlower hbounded
      decide +revert
  · obtain rfl | rfl := hops (hlower _ rfl) <;> obtain rfl | rfl := hops (hupper _ rfl) <;>
      cases iterDir <;> cases order <;> rcases key with _ | ⟨k, key⟩ <;>
      refine ⟨_, rfl, rfl, rfl, rfl, rfl, rfl, fun e => by simp [eq_comm, or_comm],
        by simp, by simp, ?_⟩
    all_goals
      intro x null upperNull c hx hcl hcu hnull
      simp [starts, stops, holds, SeekKeyComponent.ord,
        Operator.holds] at hcl hcu hnull hx ⊢
      generalize c le = cl at *
      generalize c ue = cu at *
      clear hops hupper hlower hbounded
      decide +revert

end

end PgMicro.Optimizer.Seek
