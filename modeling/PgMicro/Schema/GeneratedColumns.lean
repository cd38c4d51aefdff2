import PgMicro.Digraph.TopologicalSort
import PgMicro.Types.Value

/-!
# Generated columns

`GeneratedColGraph` of `core/schema.rs`. An expression comes with the columns it reads, and its
value depends on no others. A generated column has the value of its expression on the other columns
of the row; the alias of the rowid has the rowid.
-/

namespace PgMicro.Schema

open List Digraph

open Types (Value)

structure RowExpr where
  reads : List Nat
  eval : (Nat → Value) → Value
  frame : ∀ f g : Nat → Value, (∀ i ∈ reads, f i = g i) → eval f = eval g

structure RowPred where
  reads : List Nat
  holds : (Nat → Value) → Bool
  frame : ∀ f g : Nat → Value, (∀ i ∈ reads, f i = g i) → holds f = holds g

structure Column where
  isRowidAlias : Bool
  generated : Option RowExpr

structure Row where
  rowid : Int64
  stored : Nat → Value

section

variable (columns : List Column)

def generatedExpr (j : Nat) : Option RowExpr := (columns[j]?).bind Column.generated

def directDeps (j : Nat) : List Nat :=
  match generatedExpr columns j with
  | none => []
  | some expr => (expr.reads.filter fun i => decide (i < columns.length)).dedup

structure GeneratedColGraph where
  dependents : Nat → List Nat
  topologicalSort : List Nat

def GeneratedColGraph.build : Except String GeneratedColGraph :=
  if (range columns.length).any fun j => decide (j ∈ directDeps columns j) then
    .error "generated column cannot reference itself"
  else
    let order := Digraph.topologicalSort (directDeps columns) columns.length
    if order.length ≠ columns.length then .error "circular dependency in generated columns"
    else
      .ok ⟨Digraph.closure (Digraph.dependents (directDeps columns) columns.length) order, order⟩

def columnsAffectedByUpdate (graph : GeneratedColGraph) (updatedCols : List Nat) : List Nat :=
  updatedCols.flatMap fun i =>
    i :: if i < columns.length then graph.dependents i else []

def valuesAfter (row : Row) : Nat → Nat → Value
  | 0, _ => .null
  | rounds + 1, i =>
    match columns[i]? with
    | none => .null
    | some column =>
      if column.isRowidAlias then .integer row.rowid
      else
        match column.generated with
        | none => row.stored i
        | some expr => expr.eval (valuesAfter row rounds)

def columnValue (row : Row) (i : Nat) : Value := valuesAfter columns row (columns.length + 1) i

end

variable {columns : List Column} {graph : GeneratedColGraph} {i : Nat} {row : Row}

theorem directDeps_nodup (j : Nat) : (directDeps columns j).Nodup := by
  rw [directDeps]
  split
  · exact nodup_nil
  · exact nodup_dedup _

theorem columnsAffectedByUpdate_closed (hgraph : GeneratedColGraph.build columns = .ok graph)
    (updatedCols : List Nat) :
    (∀ i ∈ updatedCols, i ∈ columnsAffectedByUpdate columns graph updatedCols) ∧
      ∀ j expr, generatedExpr columns j = some expr → ∀ i ∈ expr.reads, i < columns.length →
        i ∈ columnsAffectedByUpdate columns graph updatedCols →
          j ∈ columnsAffectedByUpdate columns graph updatedCols := by
  rw [GeneratedColGraph.build] at hgraph
  split at hgraph
  · cases hgraph
  simp only at hgraph
  split at hgraph
  · cases hgraph
  rename_i hlength
  rw [not_not] at hlength
  cases hgraph
  have hprecedes : Digraph.Precedes (dependents (directDeps columns) columns.length)
      (topologicalSort (directDeps columns) columns.length) :=
    precedes_of_respects (topologicalSort_respects directDeps_nodup)
      (topologicalSort_nodup directDeps_nodup)
      fun j hj => mem_topologicalSort directDeps_nodup hlength hj
  have hclosed {u : Nat} (hu : u < columns.length) := closure_closed hprecedes
    (mem_topologicalSort directDeps_nodup hlength hu)
  constructor
  · exact fun i hi => mem_flatMap.2 ⟨i, hi, mem_cons_self⟩
  · intro j expr hexpr i hi hlt hmem
    have hj : j < columns.length := by
      by_contra hge
      rw [generatedExpr, getElem?_eq_none (by omega)] at hexpr
      cases hexpr
    have hdirect : j ∈ dependents (directDeps columns) columns.length i := by
      simp only [dependents, mem_filter, mem_range, decide_eq_true_eq]
      refine ⟨hj, ?_⟩
      rw [directDeps, hexpr]
      exact mem_dedup.2 (mem_filter.2 ⟨hi, decide_eq_true hlt⟩)
    obtain ⟨u, hu, hmem⟩ := mem_flatMap.1 hmem
    refine mem_flatMap.2 ⟨u, hu, mem_cons_of_mem _ ?_⟩
    rcases mem_cons.1 hmem with rfl | hmem
    · rw [if_pos hlt]
      exact (hclosed hlt).1 j hdirect
    · split at hmem
      next hult =>
        rw [if_pos hult]
        exact (hclosed hult).2 i hmem j hdirect
      · cases hmem

theorem valuesAfter_of_le {rounds : Nat} (hi : columns.length ≤ i) :
    valuesAfter columns row rounds i = .null := by
  cases rounds with
  | zero => rfl
  | succ rounds => rw [valuesAfter, getElem?_eq_none hi]

theorem updated_or_generated (hgraph : GeneratedColGraph.build columns = .ok graph)
    {updatedCols : List Nat} (hi : i ∈ columnsAffectedByUpdate columns graph updatedCols) :
    i ∈ updatedCols ∨ (generatedExpr columns i).isSome := by
  rw [GeneratedColGraph.build] at hgraph
  split at hgraph
  · cases hgraph
  simp only at hgraph
  split at hgraph
  · cases hgraph
  cases hgraph
  obtain ⟨u, hu, hmem⟩ := mem_flatMap.1 hi
  rcases mem_cons.1 hmem with rfl | hmem
  · exact .inl hu
  split at hmem
  · obtain ⟨k, hk⟩ := exists_direct_of_mem_closure hmem
    have hdeps : k ∈ directDeps columns i := by
      simpa [dependents] using (mem_filter.1 hk).2
    rw [directDeps] at hdeps
    cases hexpr : generatedExpr columns i with
    | none =>
      rw [hexpr] at hdeps
      cases hdeps
    | some expr => exact .inr rfl
  · cases hmem

theorem valuesAfter_congr {row' : Row} {affected : List Nat}
    (hclosed : ∀ j expr, generatedExpr columns j = some expr → ∀ i ∈ expr.reads,
      i < columns.length → i ∈ affected → j ∈ affected)
    (hstored : ∀ i, i ∉ affected → row'.stored i = row.stored i)
    (hrowid : ∀ i column, columns[i]? = some column → column.isRowidAlias = true → i ∉ affected →
      row'.rowid = row.rowid) (rounds : Nat) (hi : i ∉ affected) :
    valuesAfter columns row' rounds i = valuesAfter columns row rounds i := by
  induction rounds generalizing i with
  | zero => rfl
  | succ rounds ih =>
    rw [valuesAfter, valuesAfter]
    cases hcolumn : columns[i]? with
    | none => rfl
    | some column =>
      simp only
      split
      next halias =>
        rw [hrowid i column hcolumn halias hi]
      · cases hexpr : column.generated with
        | none => exact hstored i hi
        | some expr =>
          have hgenerated : generatedExpr columns i = some expr := by
            rw [generatedExpr, hcolumn, Option.bind_some, hexpr]
          refine expr.frame _ _ fun k hk => ?_
          by_cases hlt : k < columns.length
          · exact ih fun hmem => hi (hclosed i expr hgenerated k hk hlt hmem)
          · rw [valuesAfter_of_le (by omega), valuesAfter_of_le (by omega)]

end PgMicro.Schema
