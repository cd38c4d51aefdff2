import Mathlib.Data.List.Induction

/-!
# Values overlaid with a log

Entries of a log give values to keys; a later entry wins, and a key without an entry keeps its
base value.
-/

namespace KeyedLog

open Function List

variable {κ α : Type} [DecidableEq κ] {base : κ → α} {log log' : List (κ × α)} {k : κ}

def latest? (log : List (κ × α)) (k : κ) : Option α := log.reverse.lookup k

def overlay (base : κ → α) (log : List (κ × α)) (k : κ) : α := (latest? log k).getD (base k)

@[simp]
theorem overlay_nil : overlay base [] = base := rfl

theorem overlay_append : overlay base (log ++ log') = overlay (overlay base log) log' := by
  funext k
  rw [overlay, overlay, overlay, latest?, latest?, latest?, reverse_append, lookup_append]
  cases log'.reverse.lookup k <;> rfl

theorem overlay_concat {v : α} :
    overlay base (log ++ [(k, v)]) = update (overlay base log) k v := by
  rw [overlay_append]
  funext k'
  rw [overlay, latest?, reverse_singleton, lookup_cons, lookup_nil]
  rcases eq_or_ne k' k with rfl | hne
  · rw [beq_self_eq_true, update_self]
    rfl
  · rw [beq_false_of_ne hne, update_of_ne hne]
    rfl

theorem overlay_of_not_mem (h : ∀ e ∈ log, e.1 ≠ k) : overlay base log k = base k := by
  have hnone : log.reverse.lookup k = none := by
    rw [lookup_eq_none_iff]
    intro e he
    exact bne_iff_ne.2 (h e (mem_reverse.1 he)).symm
  rw [overlay, latest?, hnone]
  rfl

theorem overlay_take {n : Nat} (h : ∀ e ∈ log.drop n, e.1 ≠ k) :
    overlay base (log.take n) k = overlay base log k := by
  have hsplit : overlay base log = overlay (overlay base (log.take n)) (log.drop n) := by
    rw [← overlay_append, take_append_drop]
  rw [hsplit, overlay_of_not_mem h]

theorem overlay_graph {keys : List κ} {f : κ → α} :
    overlay base (keys.map fun k => (k, f k)) k = if k ∈ keys then f k else base k := by
  induction keys using reverseRecOn with
  | nil => rfl
  | append_singleton keys k' ih =>
    rw [map_append, map_singleton, overlay_concat]
    rcases eq_or_ne k k' with rfl | hne
    · rw [update_self, if_pos (mem_concat_self ..)]
    · rw [update_of_ne hne, ih]
      simp [mem_append, hne, or_false]

end KeyedLog
