import Mathlib.Data.Fintype.Card
import Mathlib.Logic.Relation

/-!
# Compiling foreign-key actions

`core/translate/fkeys.rs` and `trigger_exec.rs`: an action is compiled by translating a statement
on the child table, and a trigger by translating the commands of its body, with the actions and the
triggers of those statements in turn.
-/

namespace PgMicro.ForeignKeys

open Relation

inductive RefAct where
  | noAction
  | restrict
  | cascade
  | setNull
  | setDefault

structure ForeignKey where
  child : Nat
  childColumns : List Nat
  parent : Nat
  onDelete : RefAct
  onUpdate : RefAct

inductive ResolveType where
  | rollback
  | abort
  | fail
  | ignore
  | replace
  deriving DecidableEq

/-- `upserts` has for every ON CONFLICT clause the columns that its DO UPDATE sets. -/
inductive Stmt where
  | delete (table : Nat)
  | update (orConflict : Option ResolveType) (table : Nat) (columns : List Nat)
  | insert (orConflict : Option ResolveType) (table : Nat) (columns : List Nat)
      (upserts : List (Option (List Nat)))
  deriving DecidableEq

def Stmt.table : Stmt → Nat
  | .delete table | .update _ table _ | .insert _ table _ _ => table

/-- The event of a trigger. -/
inductive TriggerEvent where
  | delete
  | insert
  | update
  | updateOf (columns : List Nat)

/-- The SELECTs of the body compile no other statement and are left out. -/
structure Trigger where
  table : Nat
  event : TriggerEvent
  commands : List Stmt

/-- `replaces` says if a statement checks a constraint whose conflicts it resolves by REPLACE. -/
structure Schema where
  foreignKeys : List ForeignKey
  triggers : List Trigger
  replaces : Stmt → Bool

/-- What a statement does to the rows of its table. -/
inductive Event where
  | delete
  | insert
  | update (columns : List Nat)

/-- INSERT OR IGNORE puts a DO NOTHING in the place of its ON CONFLICT clauses. -/
def upsertActions (orConflict : Option ResolveType) (upserts : List (Option (List Nat))) :
    List (Option (List Nat)) :=
  if orConflict = some .ignore then [none] else upserts

/-- The resolution that the triggers of a statement are told to use. -/
def triggerConflict (conflictOverride orConflict : Option ResolveType) : Option ResolveType :=
  conflictOverride.or (orConflict.filter (· ≠ .abort))

/-- The events that a statement fires triggers for. A row that REPLACE deletes fires none. -/
def Stmt.fires (conflictOverride : Option ResolveType) :
    Stmt → List (Event × Option ResolveType)
  | .delete _ => [(.delete, conflictOverride)]
  | .update orConflict _ columns =>
    [(.update columns, triggerConflict conflictOverride orConflict)]
  | .insert orConflict _ _ upserts =>
    (.insert, triggerConflict conflictOverride orConflict) ::
      (upsertActions orConflict upserts).filterMap fun upsert =>
        upsert.map fun columns => (.update columns, some .abort)

def TriggerEvent.relevant : TriggerEvent → Event → Bool
  | .delete, .delete | .insert, .insert | .update, .update _ => true
  | .updateOf triggerColumns, .update columns => triggerColumns.any (· ∈ columns)
  | _, _ => false

/-- `trigger_cmd_to_stmt_for_subprogram`. -/
def Stmt.forSubprogram (conflictOverride : Option ResolveType) : Stmt → Stmt
  | .delete table => .delete table
  | .update orConflict table columns => .update (conflictOverride.or orConflict) table columns
  | .insert orConflict table columns upserts =>
    .insert (conflictOverride.or orConflict) table columns upserts

/-- A statement, the resolution its triggers are told from outside and the triggers that are being
compiled on the connection. -/
structure Translation (schema : Schema) where
  stmt : Stmt
  conflictOverride : Option ResolveType
  compiling : Finset (Fin schema.triggers.length)

namespace Schema

variable (schema : Schema)

/-- The events that a statement compiles actions for. -/
def keyEvents (stmt : Stmt) : List Event :=
  match stmt with
  | .delete _ => [.delete]
  | .update _ _ columns =>
    if schema.replaces stmt then [.delete, .update columns] else [.update columns]
  | .insert orConflict _ _ upserts =>
    match upsertActions orConflict upserts with
    | [] => if schema.replaces stmt then [.delete] else []
    | upserts => upserts.filterMap (·.map .update)

/-- The statement on the child table that a key asks for. -/
def actionStmt (fk : ForeignKey) : Event → Option Stmt
  | .delete =>
    match fk.onDelete with
    | .noAction | .restrict => none
    | .cascade => some (.delete fk.child)
    | .setNull | .setDefault => some (.update none fk.child fk.childColumns)
  | .update _ =>
    match fk.onUpdate with
    | .noAction | .restrict => none
    | .cascade | .setNull | .setDefault => some (.update none fk.child fk.childColumns)
  | .insert => none

def resolvedFksReferencing (table : Nat) : List ForeignKey :=
  schema.foreignKeys.filter (·.parent = table)

def actions (stmt : Stmt) : List Stmt :=
  (schema.keyEvents stmt).flatMap fun event =>
    (schema.resolvedFksReferencing stmt.table).filterMap (actionStmt · event)

variable {schema} in
/-- `execute_trigger_commands`: a trigger that is being compiled is not compiled again. -/
def executeTriggerCommands (p : Translation schema) (conflictOverride : Option ResolveType)
    (trigger : Fin schema.triggers.length) : List (Translation schema) :=
  if trigger ∈ p.compiling then []
  else (schema.triggers.get trigger).commands.map fun command =>
    ⟨command.forSubprogram conflictOverride, conflictOverride, insert trigger p.compiling⟩

def relevantTriggers (table : Nat) (event : Event) : List (Fin schema.triggers.length) :=
  (List.finRange _).filter fun i =>
    (schema.triggers.get i).table = table ∧ (schema.triggers.get i).event.relevant event

/-- The commands of the triggers that a statement fires, each BEFORE or AFTER its row. -/
def triggerCommands (p : Translation schema) : List (Translation schema) :=
  (p.stmt.fires p.conflictOverride).flatMap fun (event, conflictOverride) =>
    (schema.relevantTriggers p.stmt.table event).flatMap
      (executeTriggerCommands p conflictOverride)

/-- The statements that are translated inside a translation. An action is compiled by a new builder,
which is told no resolution. -/
def subprograms (p : Translation schema) : List (Translation schema) :=
  (schema.actions p.stmt).map (⟨·, none, p.compiling⟩) ++ schema.triggerCommands p

/-- The statements that are translated, if they do not nest deeper than `depth`. -/
def translate : Nat → Translation schema → Option (List Stmt)
  | 0, _ => none
  | depth + 1, p =>
    ((schema.subprograms p).mapM (translate depth)).map fun programs =>
      p.stmt :: programs.flatten

def Compiles (stmt action : Stmt) : Prop := action ∈ schema.actions stmt

def Translates (p q : Translation schema) : Prop := q ∈ schema.subprograms p

def targets : Finset Stmt :=
  (schema.foreignKeys.flatMap fun fk =>
    [.delete fk.child, .update none fk.child fk.childColumns]).toFinset

open Classical in
/-- The actions that are compiled for a statement, at any depth, if no trigger fires. -/
noncomputable def below (stmt : Stmt) : Finset Stmt :=
  schema.targets.filter (TransGen schema.Compiles stmt)

/-- How deep a translation can nest below `p`. -/
noncomputable def rank (p : Translation schema) : Nat :=
  (schema.triggers.length - p.compiling.card) * (2 * schema.foreignKeys.length + 1) +
    (schema.below p.stmt).card

variable {schema} {stmt action : Stmt} {p q : Translation schema} {depth : Nat}

theorem card_targets_le : schema.targets.card ≤ 2 * schema.foreignKeys.length := by
  refine (List.toFinset_card_le _).trans ?_
  simp [List.length_flatMap, Nat.mul_comm]

theorem Compiles.mem_targets (h : schema.Compiles stmt action) : action ∈ schema.targets := by
  obtain ⟨event, -, h⟩ := List.mem_flatMap.1 h
  obtain ⟨fk, hfk, h⟩ := List.mem_filterMap.1 h
  refine List.mem_toFinset.2 (List.mem_flatMap.2 ⟨fk, (List.mem_filter.1 hfk).1, ?_⟩)
  cases event <;> grind [actionStmt]

theorem Compiles.translates (h : schema.Compiles p.stmt action) :
    schema.Translates p ⟨action, none, p.compiling⟩ :=
  List.mem_append_left _ (List.mem_map_of_mem h)

/-- A subprogram is an action, or a command of a trigger that was not being compiled. -/
theorem Translates.cases (h : schema.Translates p q) :
    (schema.Compiles p.stmt q.stmt ∧ q.compiling = p.compiling) ∨
      ∃ trigger ∉ p.compiling, q.compiling = insert trigger p.compiling := by
  rcases List.mem_append.1 h with h | h
  · obtain ⟨action, haction, rfl⟩ := List.mem_map.1 h
    exact .inl ⟨haction, rfl⟩
  · obtain ⟨⟨event, conflictOverride⟩, -, h⟩ := List.mem_flatMap.1 h
    obtain ⟨trigger, -, h⟩ := List.mem_flatMap.1 h
    dsimp only [executeTriggerCommands] at h
    split at h
    · cases h
    · obtain ⟨command, -, rfl⟩ := List.mem_map.1 h
      exact .inr ⟨trigger, ‹_›, rfl⟩

theorem isSome_mapM {α β : Type} {f : α → Option β} {l : List α} :
    (l.mapM f).isSome ↔ ∀ a ∈ l, (f a).isSome := by
  induction l with
  | nil => simp
  | cons a l ih => cases h : f a <;> cases hl : l.mapM f <;> simp_all

theorem isSome_translate_succ : (schema.translate (depth + 1) p).isSome ↔
    ∀ q, schema.Translates p q → (schema.translate depth q).isSome := by
  rw [translate, Option.isSome_map, isSome_mapM]
  rfl

theorem mem_below : action ∈ schema.below stmt ↔
    action ∈ schema.targets ∧ TransGen schema.Compiles stmt action := by
  simp [below]

theorem card_below_le : (schema.below stmt).card ≤ 2 * schema.foreignKeys.length :=
  (Finset.card_le_card fun _ hs => (mem_below.1 hs).1).trans card_targets_le

theorem card_below_lt (hcycle : ¬ TransGen schema.Compiles action action)
    (h : schema.Compiles stmt action) : (schema.below action).card < (schema.below stmt).card := by
  refine Finset.card_lt_card ((Finset.ssubset_iff_of_subset fun s hs => ?_).2 ⟨action, ?_, ?_⟩)
  · obtain ⟨htarget, hs⟩ := mem_below.1 hs
    exact mem_below.2 ⟨htarget, .head h hs⟩
  · exact mem_below.2 ⟨h.mem_targets, .single h⟩
  · exact fun hmem => hcycle (mem_below.1 hmem).2

theorem rank_lt (hcycle : ¬ TransGen schema.Compiles q.stmt q.stmt) (h : schema.Translates p q) :
    schema.rank q < schema.rank p := by
  rcases h.cases with ⟨hstmt, hcompiling⟩ | ⟨trigger, hnot, hcompiling⟩
  · rw [rank, rank, hcompiling]
    exact Nat.add_lt_add_left (card_below_lt hcycle hstmt) _
  · -- One trigger fewer is left, which makes up for all the actions that a statement can have.
    have hcard : q.compiling.card = p.compiling.card + 1 := by
      rw [hcompiling, Finset.card_insert_of_notMem hnot]
    have hle : q.compiling.card ≤ schema.triggers.length := by
      simpa using Finset.card_le_univ q.compiling
    have hleft : schema.triggers.length - p.compiling.card =
        schema.triggers.length - q.compiling.card + 1 := by omega
    have hbelow : (schema.below q.stmt).card ≤ _ := card_below_le
    rw [rank, rank, hleft, Nat.add_mul]
    omega

theorem translate_of_rank (hdepth : schema.rank p < depth)
    (hcycles : ∀ q, ReflTransGen schema.Translates p q →
      ¬ TransGen schema.Compiles q.stmt q.stmt) : (schema.translate depth p).isSome := by
  induction depth generalizing p with
  | zero => exact absurd hdepth (Nat.not_lt_zero _)
  | succ depth ih =>
    refine isSome_translate_succ.2 fun q h => ih ?_ fun s hs => hcycles s (.head h hs)
    have hless := rank_lt (hcycles q (.single h)) h
    omega

theorem translate_of_transGen (h : TransGen schema.Translates p q)
    (hsome : (schema.translate depth p).isSome) :
    ∃ d < depth, (schema.translate d q).isSome := by
  induction h with
  | single h =>
    cases depth with
    | zero => cases hsome
    | succ depth => exact ⟨depth, depth.lt_succ_self, isSome_translate_succ.1 hsome _ h⟩
  | tail _ h ih =>
    obtain ⟨d, hd, hsome⟩ := ih
    cases d with
    | zero => cases hsome
    | succ d => exact ⟨d, (Nat.lt_succ_self d).trans hd, isSome_translate_succ.1 hsome _ h⟩

theorem translates_of_compiles (h : TransGen schema.Compiles p.stmt action) :
    TransGen schema.Translates p ⟨action, none, p.compiling⟩ := by
  induction h with
  | single h => exact .single h.translates
  | tail _ h ih => exact .tail ih h.translates

/-- A statement that is compiled for itself is translated at no depth. -/
theorem translate_of_cycle (h : TransGen schema.Compiles p.stmt p.stmt) (depth : Nat) :
    schema.translate depth p = none := by
  induction depth using Nat.strongRecOn generalizing p with
  | ind depth ih =>
    rw [← Option.not_isSome_iff_eq_none]
    intro hsome
    obtain ⟨d, hd, hsome⟩ := translate_of_transGen (translates_of_compiles h) hsome
    rw [ih d hd (p := ⟨p.stmt, none, p.compiling⟩) h] at hsome
    cases hsome

/-- The translation of a statement ends, and then its depth is bounded by the numbers of triggers
and of keys, exactly if no statement that is compiled on the way is compiled, by actions alone, for
itself: triggers that fire each other do no harm. -/
theorem translate_ends_iff (schema : Schema) (stmt : Stmt) :
    (schema.translate ((schema.triggers.length + 1) * (2 * schema.foreignKeys.length + 1))
        ⟨stmt, none, ∅⟩).isSome ↔
      ∀ p, ReflTransGen schema.Translates ⟨stmt, none, ∅⟩ p →
        ¬ TransGen schema.Compiles p.stmt p.stmt := by
  constructor
  · intro hsome p hp hcycle
    rcases reflTransGen_iff_eq_or_transGen.1 hp with rfl | hp
    · rw [translate_of_cycle hcycle] at hsome
      cases hsome
    · obtain ⟨d, -, hsome⟩ := translate_of_transGen hp hsome
      rw [translate_of_cycle hcycle] at hsome
      cases hsome
  · have hbelow : (schema.below stmt).card ≤ _ := card_below_le
    refine translate_of_rank ?_
    rw [rank, Finset.card_empty, Nat.sub_zero, Nat.add_mul, Nat.one_mul]
    exact Nat.add_lt_add_left (Nat.lt_succ_of_le hbelow) _

/-- A table whose rows name a parent in it. -/
def selfCascade : Schema := ⟨[⟨0, [1], 0, .cascade, .noAction⟩], [], fun _ => false⟩

theorem selfCascade_never_ends : selfCascade.actions (.delete 0) = [.delete 0] ∧
    ∀ depth, selfCascade.translate depth ⟨.delete 0, none, ∅⟩ = none :=
  ⟨rfl, translate_of_cycle (.single (List.mem_singleton.2 rfl))⟩

end Schema

end PgMicro.ForeignKeys
