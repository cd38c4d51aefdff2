import PgMicro.Optimizer.SeekIndex
import PgMicro.Optimizer.SeekRowid

/-!
# Seeks are filters

From the constraints on a table to the entries that its seek visits: they are those that the
WHERE terms of the seek, which are not evaluated again, are true of.
-/

namespace PgMicro.Optimizer.Seek

open Types List
open BTree (IterationDirection SeekOp)

section

variable {constraints : List Constraint} {order : Nat → Option SortOrder}
  {group : RangeConstraintRef} {groups : List RangeConstraintRef}

theorem buildSeekDefFromConstraints_eq (iterDir : IterationDirection) :
    buildSeekDefFromConstraints constraints (group :: groups).reverse iterDir =
      buildSeekDef iterDir (groups.reverse.map (·.asSeekRangeConstraint constraints))
        (group.asSeekRangeConstraint constraints) := by
  simp [buildSeekDefFromConstraints]

theorem asSeekRangeConstraint_range (h : group.eq = none) :
    group.asSeekRangeConstraint constraints = ⟨group.sortOrder, none,
      group.lowerBound.bind (boundAt constraints),
        group.upperBound.bind (boundAt constraints)⟩ := by
  simp [RangeConstraintRef.asSeekRangeConstraint, h]

theorem forall_bounds (h : group.eq = none) (Q : Bound → Prop) :
    (∀ bound, bound ∈ (group.asSeekRangeConstraint constraints).lowerBound ∨
        bound ∈ (group.asSeekRangeConstraint constraints).upperBound → Q bound) ↔
      ∀ u ∈ usedConstraints constraints [group], Q ⟨u.2.operator, u.2.expr⟩ := by
  have hbound (pos : Option Nat) : (∀ bound ∈ pos.bind (boundAt constraints), Q bound) ↔
      ∀ c ∈ pos.bind (constraints[·]?), Q ⟨c.operator, c.expr⟩ := by
    cases pos with
    | none => simp
    | some pos =>
      simp only [Option.bind_some, boundAt]
      cases constraints[pos]? with
      | none => simp
      | some c => simp
  rw [asSeekRangeConstraint_range h]
  simp only [or_imp, forall_and, hbound, usedConstraints, RangeConstraintRef.constraints]
  cases hlower : group.lowerBound.bind (constraints[·]?) <;>
    cases hupper : group.upperBound.bind (constraints[·]?) <;> simp [h, hlower, hupper]

theorem fst_of_mem_used {u : Nat × Constraint} (h : u ∈ usedConstraints constraints [group]) :
    u.1 = group.indexColPos := by
  simp only [usedConstraints, flatMap_cons, flatMap_nil, append_nil,
    mem_map] at h
  obtain ⟨c, -, rfl⟩ := h
  rfl

theorem lowerOps_disjoint {op : Operator} (h : op ∈ lowerOps) : op ∉ upperOps := by
  revert h
  cases op <;> decide

theorem IsGroup.bounds (h : IsGroup constraints order group) (heq : group.eq = none) :
    (∀ bound ∈ (group.asSeekRangeConstraint constraints).lowerBound, bound.operator ∈ lowerOps) ∧
      (∀ bound ∈ (group.asSeekRangeConstraint constraints).upperBound,
        bound.operator ∈ upperOps) ∧
      ((group.asSeekRangeConstraint constraints).lowerBound.isSome ∨
        (group.asSeekRangeConstraint constraints).upperBound.isSome) := by
  have hbound {ops : List Operator} {pos : Option Nat}
      (hpos : ∀ p ∈ pos, Refers constraints ops p) :
      (∀ bound ∈ pos.bind (boundAt constraints), bound.operator ∈ ops) ∧
        (pos.isSome → (pos.bind (boundAt constraints)).isSome) := by
    cases pos with
    | none => exact ⟨nofun, nofun⟩
    | some p =>
      obtain ⟨c, hc, hop⟩ := hpos p rfl
      simp [boundAt, hc, hop]
  rw [asSeekRangeConstraint_range heq]
  obtain ⟨hlowerOps, hlower⟩ := hbound h.lower
  obtain ⟨hupperOps, hupper⟩ := hbound h.upper
  exact ⟨hlowerOps, hupperOps, (h.bounded heq).imp hlower hupper⟩

end

section

variable {conv : Conversions} {tables : Tables} {b : Bindings} {constraints : List Constraint}

/-- The keys that a range is searched by are not NULL where the planner takes them for non-NULL;
an upper bound may be, and so may the keys of a seek for one key alone. -/
def NonnullKeys (tables : Tables) (b : Bindings) (refs : List RangeConstraintRef)
    (used : List (Nat × Constraint)) : Prop :=
  (∃ r ∈ refs, r.eq = none) → ∀ u ∈ used, u.2.operator ∉ upperOps →
    isNonnull tables u.2.expr = true → eval b u.2.expr ≠ .null

def orderOf (columns : List IndexColumn) (k : Nat) : Option SortOrder :=
  (columns[k]?).map fun column => column.keyInfo.sortOrder

section

variable {columns : List IndexColumn} {keys : List KeyInfo} {entries : List (List Value)}
  {group : RangeConstraintRef} {groups : List RangeConstraintRef}

theorem Groups.column (h : Groups constraints (orderOf columns) (group :: groups)) :
    ∃ column, columns[groups.length]? = some column ∧
      group.sortOrder = column.keyInfo.sortOrder := by
  obtain ⟨hgroup, hcol, -, -⟩ := h
  have horder := hgroup.sortOrder
  rw [hcol, orderOf, Option.map_eq_some_iff] at horder
  obtain ⟨column, hcolumn, hsame⟩ := horder
  exact ⟨column, hcolumn, hsame.symm⟩

variable [UncasedStr]

theorem visitIndex_groups (hindex : IndexOf conv columns keys entries) (hrows : b.RowsOf tables)
    (h : Groups constraints (orderOf columns) (group :: groups)) (iterDir : IterationDirection)
    (hfits : ∀ u ∈ usedConstraints constraints (group :: groups).reverse, ∀ column,
      columns[u.1]? = some column →
        KeyFits conv column.affinity (exprAffinity tables u.2.expr) (eval b u.2.expr))
    (hnonnull : NonnullKeys tables b (group :: groups).reverse
      (usedConstraints constraints (group :: groups).reverse)) :
    ∃ seekDef, buildSeekDefFromConstraints constraints (group :: groups).reverse iterDir =
        .ok seekDef ∧
      visitIndex conv tables b columns keys seekDef entries = (iterDir.iterate entries).filter
        fun e => (usedConstraints constraints (group :: groups).reverse).all
          (termHolds conv tables b columns e) := by
  obtain ⟨column, hcolumn, horder⟩ := h.column
  obtain ⟨hlt, -⟩ := List.getElem?_eq_some_iff.1 hcolumn
  rw [buildSeekDefFromConstraints_eq]
  have ⟨hgroup, hcol, heqs, hgroups⟩ := h
  cases heq : group.eq with
  | some pos =>
    obtain ⟨cs, hlength, hexprs, hops, hused⟩ := groups_prefix h
      (forall_mem_cons.2 ⟨by rw [heq]; rfl, heqs⟩)
    have hcs : PrefixOf conv tables b columns cs := by
      refine ⟨hops, by rw [hlength]; exact hlt, fun k c column hc hcolumn => ?_⟩
      exact hfits (k, c) ((hused (k, c)).2 hc) column hcolumn
    have hsome : (group.asSeekRangeConstraint constraints).eq.isSome := by
      obtain ⟨⟨c, hc, -⟩, -⟩ := hgroup.equality pos heq
      simp [RangeConstraintRef.asSeekRangeConstraint, heq, boundAt, hc]
    refine ⟨_, if_pos hsome, visitIndex_exact hindex hrows hcs ?_ ?_ iterDir fun e he => ?_⟩
    · exact ne_nil_of_length_pos (by rw [hlength]; exact Nat.succ_pos _)
    · rw [← hexprs]
      simp
    · rw [all_eq_true]
      exact ⟨fun h k c hc => h (k, c) ((hused (k, c)).2 hc),
        fun h u hu => h u.1 u.2 ((hused u).1 hu)⟩
  | none =>
    obtain ⟨cs, hlength, hexprs, hops, hused⟩ := groups_prefix hgroups heqs
    obtain ⟨hlower, hupper, hbounded⟩ := hgroup.bounds heq
    have hsplit (Q : Nat × Constraint → Prop) :
        (∀ u ∈ usedConstraints constraints (group :: groups).reverse, Q u) ↔
          (∀ u ∈ usedConstraints constraints groups.reverse, Q u) ∧
            ∀ u ∈ usedConstraints constraints [group], Q u := by
      rw [reverse_cons, usedConstraints_append, forall_mem_append]
    have hprefix (Q : Nat × Constraint → Prop) :
        (∀ u ∈ usedConstraints constraints groups.reverse, Q u) ↔
          ∀ (k : Nat) c, cs[k]? = some c → Q (k, c) :=
      ⟨fun h k c hc => h (k, c) ((hused (k, c)).2 hc), fun h u hu => h u.1 u.2 ((hused u).1 hu)⟩
    have hlast : ∀ u ∈ usedConstraints constraints [group], u.1 = groups.length := by
      intro u hu
      rw [fst_of_mem_used hu, hcol]
    rw [hsplit, hprefix] at hfits
    have hkeys := hnonnull ⟨group, by simp, heq⟩
    rw [hsplit, hprefix] at hkeys
    have hcs : PrefixOf conv tables b columns cs :=
      ⟨hops, by rw [hlength]; exact hlt.le, fun k c column hc => hfits.1 k c hc column⟩
    obtain ⟨seekDef, hdef, hseek⟩ := buildSeekDef_range iterDir
      (groups.reverse.map (·.asSeekRangeConstraint constraints))
      (by rw [asSeekRangeConstraint_range heq]) hlower hupper hbounded
    refine ⟨seekDef, hdef, visitIndex_range hindex hrows hcs hseek (by simp [hlength])
      (by rw [hlength, hcolumn]) (by rw [asSeekRangeConstraint_range heq, horder])
      ((forall_bounds heq _).2 fun u hu => hfits.2 u hu column (by rw [hlast u hu, hcolumn]))
      (fun e he => ?_) hexprs ?_ ?_⟩
    rotate_left
    · intro c hc
      obtain ⟨k, hk⟩ := getElem?_of_mem hc
      exact hkeys.1 k c hk (by rw [hops c hc]; decide)
    · intro bound hbound
      refine (forall_bounds heq fun bound => bound.operator ∉ upperOps →
        isNonnull tables bound.expr = true → eval b bound.expr ≠ .null).2 hkeys.2 bound
        (.inl hbound) ?_
      exact lowerOps_disjoint (hlower bound hbound)
    · obtain ⟨v, hv⟩ := hindex.getElem he hcolumn
      rw [all_eq_true, hsplit, hprefix, forall_bounds heq]
      refine and_congr_right fun _ => forall₂_congr fun u hu => ?_
      rw [termHolds, hlast u hu, hcolumn, hv, valueAt, hlength, hv]
      rfl

end

variable [UncasedStr]

theorem visitTable_group {group : RangeConstraintRef}
    (hgroup : IsGroup constraints (fun _ => some .asc) group) (heq : group.eq = none)
    {rowids : List Int64} (hsorted : rowids.Pairwise fun r r' => r.toInt < r'.toInt)
    (iterDir : IterationDirection) (hphantom : iterDir = .backwards → rowids = [] →
      (∀ u ∈ usedConstraints constraints [group], u.2.operator ∉ lowerOps) →
      ∀ u ∈ usedConstraints constraints [group], eval b u.2.expr = .null ∨
        (Affinity.number conv (eval b u.2.expr)).isSome) :
    ∃ seekDef, buildSeekDefFromConstraints constraints [group] iterDir = .ok seekDef ∧
      visitTable conv tables b seekDef rowids = ((iterDir.iterate rowids).filter fun r =>
        (usedConstraints constraints [group]).all (rowidTermHolds conv tables b r)).map some := by
  obtain ⟨hlower, hupper, hbounded⟩ := hgroup.bounds heq
  obtain ⟨seekDef, hdef, hseek⟩ := buildSeekDef_range iterDir [] (by
    rw [asSeekRangeConstraint_range heq]) hlower hupper hbounded
  refine ⟨seekDef, hdef, visitTable_range hsorted hseek ?_ ?_ fun r => ?_⟩
  · have horder := hgroup.sortOrder
    rw [asSeekRangeConstraint_range heq]
    exact (Option.some.inj horder).symm
  · intro hdir hnil hnone bound hbound
    refine (forall_bounds heq fun bound => eval b bound.expr = .null ∨
      (Affinity.number conv (eval b bound.expr)).isSome).2 (hphantom hdir hnil ?_) bound
      (.inr hbound)
    refine (forall_bounds heq fun bound => bound.operator ∉ lowerOps).1 fun bound hbound hop => ?_
    rcases hbound with hbound | hbound
    · rw [hnone] at hbound
      cases hbound
    · exact lowerOps_disjoint hop (hupper bound hbound)
  · rw [all_eq_true, forall_bounds heq]
    rfl

end

local instance : UncasedStr := .lowercase

def noRows : Bindings where
  row _ := none
  operate _ _ := .null
  truthy v := v != .integer 0
  equal v w := v == w

def integerColumn : IndexColumn := ⟨⟨.asc, .binary⟩, some .integer⟩

/-- `x > 3`. -/
def aboveThree : Constraint := ⟨.greater, some 0, .literal (.numeric (.inl 3)), [], false⟩

def firstColumn : ConstraintRef := ⟨0, 0, .asc⟩

def twoKeys : List KeyInfo := [⟨.asc, .binary⟩, ⟨.asc, .binary⟩]

theorem indexOf_two : IndexOf noNumbers [integerColumn] twoKeys
    [[.integer 2, .integer 1], [.integer 5, .integer 2]] where
  sorted := by decide
  length := by decide
  columns_keys
    | 0, _, rfl => rfl
    | _ + 1, _, h => by cases h
  stored := by
    rintro e he (_ | k) column v hcolumn hv a ha
    · obtain rfl : integerColumn = column := Option.some.inj hcolumn
      obtain rfl : Affinity.integer = a := Option.some.inj ha
      rcases mem_pair.1 he with rfl | rfl <;> obtain rfl := Option.some.inj hv <;> rfl
    · cases hcolumn

/-- `x > CASE WHEN 0 THEN 1 END`, which is taken for non-NULL. -/
def aboveMissingElse : Constraint :=
  ⟨.greater, some 0, .case .nil (.cons (.literal (.numeric (.inl 0))) .nil)
    (.cons (.literal (.numeric (.inl 1))) .nil) .nil, [], false⟩

end PgMicro.Optimizer.Seek
