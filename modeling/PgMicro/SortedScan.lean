import Mathlib.Data.List.Basic

/-!
# Scans between two bounds

A scan skips elements until one meets its start and goes on until one meets its end. Where both
conditions stay true from an element on, the scan is a filter.
-/

namespace PgMicro.SortedScan

open List

variable {α : Type} {l : List α} {p : α → Bool}

def Lasts (p : α → Bool) (l : List α) : Prop := l.Pairwise fun a b => p a = true → p b = true

theorem Lasts.sublist {l' : List α} (h : Lasts p l) (hsub : l'.Sublist l) : Lasts p l' :=
  List.Pairwise.sublist hsub h

theorem dropWhile_eq_filter (h : Lasts p l) : l.dropWhile (fun a => !p a) = l.filter p := by
  induction l with
  | nil => rfl
  | cons a l ih =>
    obtain ⟨ha, hl⟩ := pairwise_cons.1 h
    cases hp : p a with
    | false =>
      rw [dropWhile_cons_of_pos (by simp [hp]), filter_cons_of_neg (by simp [hp])]
      exact ih hl
    | true =>
      rw [dropWhile_cons_of_neg (by simp [hp]), filter_cons_of_pos hp]
      congr 1
      exact (filter_eq_self.2 fun b hb => ha b hb hp).symm

theorem takeWhile_eq_filter (h : Lasts p l) :
    l.takeWhile (fun a => !p a) = l.filter fun a => !p a := by
  induction l with
  | nil => rfl
  | cons a l ih =>
    obtain ⟨ha, hl⟩ := pairwise_cons.1 h
    cases hp : p a with
    | false =>
      rw [takeWhile_cons_of_pos (by simp [hp]), filter_cons_of_pos (by simp [hp]),
        ih hl]
    | true =>
      rw [takeWhile_cons_of_neg (by simp [hp]), filter_cons_of_neg (by simp [hp])]
      exact (filter_eq_nil_iff.2 fun b hb => by simp [ha b hb hp]).symm

/-- The elements from the first that meets `start` to the one before the first that meets `stop`. -/
def between (start stop : α → Bool) (l : List α) : List α :=
  (l.dropWhile fun a => !start a).takeWhile fun a => !stop a

theorem between_eq_filter {start stop : α → Bool} (hstart : Lasts start l) (hstop : Lasts stop l) :
    between start stop l = l.filter fun a => start a && !stop a := by
  rw [between, takeWhile_eq_filter (hstop.sublist (dropWhile_sublist _)),
    dropWhile_eq_filter hstart, filter_filter]
  simp [Bool.and_comm]

end PgMicro.SortedScan
