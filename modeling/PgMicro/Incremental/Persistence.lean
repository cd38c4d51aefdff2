import Mathlib.Data.List.Sort
import Mathlib.Data.List.Perm.Basic
import PgMicro.Incremental.Dbsp

/-!
# The state tables of an operator

`core/incremental/persistence.rs`. Operators keep weighted rows in a table and look them up
through an index on `(storage_id, zset_id, element_id)`. For an entry in an interior page of the
index `seek` does not answer `Found` but `TryAdvance`; where the entries lie after each change is a
parameter. Keys come from any linear order, and the blob of a row from any type.
-/

namespace PgMicro.Incremental

variable {κ β : Type}

structure TableRow (κ β : Type) where
  rowid : Int
  key : κ
  blob : β
  weight : Int

structure IndexEntry (κ : Type) where
  key : κ
  rowid : Int
  deriving DecidableEq

def TableRow.entry (row : TableRow κ β) : IndexEntry κ := ⟨row.key, row.rowid⟩

/-- The table in the order of its rowids, the index in the order of its entries, and whether an
entry lies in an interior page of the index after so many changes. -/
structure StateTables (κ β : Type) where
  table : List (TableRow κ β)
  index : List (IndexEntry κ)
  interior : Nat → IndexEntry κ → Bool
  changes : Nat

def StateTables.empty (interior : Nat → IndexEntry κ → Bool) : StateTables κ β :=
  ⟨[], [], interior, 0⟩

namespace StateTables

/-- The entry at which `seek` answers `Found`: the first one that satisfies the operator, if it
lies in a leaf. -/
def seek (t : StateTables κ β) (p : κ → Bool) : Option (IndexEntry κ) :=
  (t.index.find? fun e => p e.key).filter fun e => !t.interior t.changes e

def row (t : StateTables κ β) (rowid : Int) : Option (TableRow κ β) :=
  t.table.find? fun r => r.rowid == rowid

def newRowid (t : StateTables κ β) : Int :=
  match t.table.getLast? with
  | none => 1
  | some r => r.rowid + 1

variable [LinearOrder κ]

def entryLE (a b : IndexEntry κ) : Prop := a.key < b.key ∨ a.key = b.key ∧ a.rowid ≤ b.rowid

instance : DecidableRel (entryLE (κ := κ)) := fun _ _ => inferInstanceAs (Decidable (_ ∨ _))

def insertNew (t : StateTables κ β) (key : κ) (blob : β) (weight : Int) : StateTables κ β :=
  { t with
    table := t.table ++ [⟨t.newRowid, key, blob, weight⟩]
    index := t.index.orderedInsert entryLE ⟨key, t.newRowid⟩
    changes := t.changes + 1 }

def delete (t : StateTables κ β) (entry : IndexEntry κ) : StateTables κ β :=
  { t with
    table := t.table.filter fun r => r.rowid != entry.rowid
    index := t.index.erase entry
    changes := t.changes + 1 }

def updateExisting (t : StateTables κ β) (rowid : Int) (key : κ) (blob : β) (weight : Int) :
    StateTables κ β :=
  { t with
    table := t.table.map fun r => if r.rowid = rowid then ⟨rowid, key, blob, weight⟩ else r }

def writeRow (t : StateTables κ β) (key : κ) (blob : β) (weight : Int) :
    Except String (StateTables κ β) :=
  match t.seek (· == key) with
  | none => .ok (t.insertNew key blob weight)
  | some entry =>
    match t.row entry.rowid with
    | none => .error "Index points to non-existent table row"
    | some existing =>
      let finalWeight := isize (existing.weight + weight)
      if finalWeight ≤ 0 then .ok (t.delete entry)
      else .ok (t.updateExisting entry.rowid key blob finalWeight)

end StateTables

end PgMicro.Incremental
