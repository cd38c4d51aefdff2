import Mathlib.Data.List.DropRight

/-!
# Positions of a key in a log

A log gives the key of each of its positions, which start at one. An index of it lists, for a
key, the positions that hold the key in ascending order.
-/

namespace KeyedLog

open List

variable {κ : Type} [DecidableEq κ] {log log' : Nat → Option κ} {k : κ} {i lo hi m n : Nat}

/-- The positions up to `n` that hold the key, in ascending order. -/
def positions (log : Nat → Option κ) (n : Nat) (k : κ) : List Nat :=
  (range' 1 n).filter fun i => log i = some k

theorem mem_positions : i ∈ positions log n k ↔ 1 ≤ i ∧ i ≤ n ∧ log i = some k := by
  rw [positions, mem_filter, mem_range'_1, decide_eq_true_eq]
  constructor
  · rintro ⟨⟨hpos, hlt⟩, hkey⟩
    exact ⟨hpos, by omega, hkey⟩
  · rintro ⟨hpos, hle, hkey⟩
    exact ⟨⟨hpos, by omega⟩, hkey⟩

@[simp]
theorem positions_zero : positions log 0 k = [] := rfl

theorem positions_succ :
    positions log (n + 1) k =
      positions log n k ++ if log (n + 1) = some k then [n + 1] else [] := by
  rw [positions, range'_1_concat, filter_append, positions, Nat.add_comm 1 n]
  congr 1
  split
  next hkey =>
    exact filter_cons_of_pos (decide_eq_true hkey)
  next hkey =>
    exact filter_cons_of_neg (by simpa using hkey)

theorem positions_congr (h : ∀ j, 1 ≤ j → j ≤ n → log j = log' j) :
    positions log n k = positions log' n k := by
  apply filter_congr
  intro j hj
  rw [mem_range'_1] at hj
  rw [h j hj.1 (by omega)]

theorem positions_pairwise : (positions log n k).Pairwise (· < ·) :=
  List.Pairwise.filter _ pairwise_lt_range'

theorem positions_rdropWhile (h : m ≤ n) :
    (positions log n k).rdropWhile (m < ·) = positions log m k := by
  induction n with
  | zero =>
    obtain rfl : m = 0 := by omega
    rfl
  | succ n ih =>
    rcases Nat.lt_or_ge n m with hlt | hle
    · obtain rfl : m = n + 1 := by omega
      rw [rdropWhile_eq_self_iff]
      intro hne
      have hlast := (mem_positions.1 (getLast_mem hne)).2.1
      simpa using hlast
    · rw [positions_succ]
      split
      · rw [rdropWhile_concat_pos _ _ _ (by simp; omega), ih hle]
      · rw [append_nil, ih hle]

def latestIn (lo hi : Nat) (index : List Nat) : Option Nat :=
  index.reverse.find? fun i => lo ≤ i ∧ i ≤ hi

structure IsLatest (log : Nat → Option κ) (k : κ) (lo hi i : Nat) : Prop where
  lo_le : lo ≤ i
  le_hi : i ≤ hi
  key : log i = some k
  last : ∀ j, lo ≤ j → j ≤ hi → log j = some k → j ≤ i

theorem latestIn_eq_some {index : List Nat} (hsorted : index.Pairwise (· < ·)) :
    latestIn lo hi index = some i ↔
      (i ∈ index ∧ lo ≤ i ∧ i ≤ hi) ∧ ∀ j ∈ index, lo ≤ j → j ≤ hi → j ≤ i := by
  rw [latestIn, find?_eq_some_iff_append]
  constructor
  · rintro ⟨hrange, later, earlier, heq, hlater⟩
    rw [reverse_eq_iff, reverse_append, reverse_cons, append_assoc,
      singleton_append] at heq
    subst heq
    refine ⟨⟨by simp, of_decide_eq_true hrange⟩, ?_⟩
    intro j hj hlo hhi
    rcases mem_append.1 hj with hearlier | hrest
    · exact ((pairwise_append.1 hsorted).2.2 j hearlier i mem_cons_self).le
    · rcases mem_cons.1 hrest with rfl | hmem
      · exact Nat.le_refl j
      · have := hlater j (mem_reverse.1 hmem)
        simp [hlo, hhi] at this
  · rintro ⟨⟨hmem, hlo, hhi⟩, hlast⟩
    obtain ⟨earlier, later, rfl⟩ := append_of_mem hmem
    refine ⟨decide_eq_true ⟨hlo, hhi⟩, later.reverse, earlier.reverse, by simp, ?_⟩
    intro j hj
    have hlt := rel_of_pairwise_cons (pairwise_append.1 hsorted).2.1 (mem_reverse.1 hj)
    have := hlast j (by simp [mem_reverse.1 hj])
    simp only [decide_eq_false_iff_not, not_and, Bool.not_eq_eq_eq_not,
      Bool.not_true]
    intro hlo' hhi'
    exact absurd (this hlo' hhi') (by omega)

theorem latestIn_positions (hlo : 1 ≤ lo) (hhi : hi ≤ n) :
    latestIn lo hi (positions log n k) = some i ↔ IsLatest log k lo hi i := by
  rw [latestIn_eq_some positions_pairwise]
  constructor
  · rintro ⟨⟨hmem, hlo', hhi'⟩, hlast⟩
    refine ⟨hlo', hhi', (mem_positions.1 hmem).2.2, ?_⟩
    intro j hlo hhi hkey
    exact hlast j (mem_positions.2 ⟨by omega, by omega, hkey⟩) hlo hhi
  · rintro ⟨hlo', hhi', hkey, hlast⟩
    refine ⟨⟨mem_positions.2 ⟨by omega, by omega, hkey⟩, hlo', hhi'⟩, ?_⟩
    intro j hj hlo hhi
    exact hlast j hlo hhi (mem_positions.1 hj).2.2

theorem latestIn_positions_eq_none (hlo : 1 ≤ lo) (hhi : hi ≤ n) :
    latestIn lo hi (positions log n k) = none ↔ ∀ j, lo ≤ j → j ≤ hi → log j ≠ some k := by
  rw [latestIn, find?_eq_none]
  constructor
  · intro hnone j hlo' hhi' hkey
    have hmem : j ∈ positions log n k := mem_positions.2 ⟨by omega, by omega, hkey⟩
    exact hnone j (mem_reverse.2 hmem) (decide_eq_true ⟨hlo', hhi'⟩)
  · intro hnone j hj hrange
    have hkey := (mem_positions.1 (mem_reverse.1 hj)).2.2
    obtain ⟨hlo', hhi'⟩ := of_decide_eq_true hrange
    exact hnone j hlo' hhi' hkey

end KeyedLog
