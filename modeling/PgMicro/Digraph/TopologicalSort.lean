import Mathlib.Data.List.Nodup
import Mathlib.Data.List.Count

/-!
# Kahn's algorithm

The nodes are the numbers below a bound; `deps j` are the nodes that `j` reads, each once. The
algorithm takes out nodes whose dependencies are all out. What it has taken out is in dependency
order, and the closure of the reversed edges, computed from its back, is transitive.
-/

namespace Digraph

open Function List

variable (deps : Nat → List Nat) (n : Nat) {order : List Nat} {i j : Nat}

def dependents (i : Nat) : List Nat := (range n).filter fun j => i ∈ deps j

structure Sorting where
  order : List Nat
  ready : List Nat
  inDegree : Nat → Nat

def Sorting.relax (s : Sorting) (j : Nat) : Sorting :=
  { s with
    inDegree := update s.inDegree j (s.inDegree j - 1)
    ready := if s.inDegree j - 1 = 0 then s.ready ++ [j] else s.ready }

def Sorting.round (s : Sorting) : Option Sorting :=
  match s.ready.getLast? with
  | none => none
  | some i =>
    some ((dependents deps n i).foldl .relax
      { s with order := s.order ++ [i], ready := s.ready.dropLast })

def sort : Nat → Sorting → List Nat
  | 0, s => s.order
  | fuel + 1, s =>
    match s.round deps n with
    | none => s.order
    | some s' => sort fuel s'

def Sorting.initial : Sorting where
  order := []
  ready := (range n).filter fun j => (deps j).length = 0
  inDegree j := (deps j).length

def topologicalSort : List Nat := sort deps n n (.initial deps n)

def Respects (order : List Nat) : Prop :=
  ∀ front j back, order = front ++ j :: back → ∀ i ∈ deps j, i ∈ front

variable {deps n} {s : Sorting}

theorem foldl_relax (js : List Nat) (hjs : js.Nodup) (s : Sorting) :
    js.foldl .relax s =
      { s with
        inDegree := fun j => if j ∈ js then s.inDegree j - 1 else s.inDegree j
        ready := s.ready ++ js.filter fun j => s.inDegree j - 1 = 0 } := by
  induction js generalizing s with
  | nil => simp
  | cons j js ih =>
    obtain ⟨hj, hjs⟩ := nodup_cons.1 hjs
    have hne : ∀ k ∈ js, k ≠ j := fun k hk h => hj (h ▸ hk)
    rw [foldl_cons, ih hjs, Sorting.relax]
    congr 1
    · have hfilter : js.filter (fun k => update s.inDegree j (s.inDegree j - 1) k - 1 = 0) =
          js.filter fun k => s.inDegree k - 1 = 0 :=
        filter_congr fun k hk => by rw [update_of_ne (hne k hk)]
      simp only [hfilter]
      split_ifs with hzero
      · rw [filter_cons_of_pos (by simpa using hzero), append_assoc]
        rfl
      · rw [filter_cons_of_neg (by simpa using hzero)]
    · funext k
      by_cases hk : k = j
      · subst hk
        simp [if_neg hj]
      · simp [hk]

variable (deps n) in
structure Sound (s : Sorting) : Prop where
  degree : ∀ j < n, s.inDegree j = (deps j).countP fun i => decide (i ∉ s.order)
  nodup : (s.order ++ s.ready).Nodup
  met : ∀ j ∈ s.order ++ s.ready, ∀ i ∈ deps j, i ∈ s.order
  sorted : Respects deps s.order
  bound : ∀ j ∈ s.order ++ s.ready, j < n

theorem Sound.initial : Sound deps n (.initial deps n) where
  degree j _ := by simp [Sorting.initial]
  nodup := by simpa [Sorting.initial] using nodup_range.filter _
  met := by
    intro j hj i hi
    have hnone : deps j = [] := by simpa using (mem_filter.1 hj).2
    rw [hnone] at hi
    cases hi
  sorted := by
    intro front j back h
    simp [Sorting.initial] at h
  bound j hj := by
    have := (mem_filter.1 hj).1
    exact mem_range.1 this

section

variable (hnodup : ∀ j, (deps j).Nodup)

include hnodup

theorem countP_append_singleton (hi : i ∉ order) (j : Nat) :
    (deps j).countP (fun k => decide (k ∉ order ++ [i])) =
      if i ∈ deps j then (deps j).countP (fun k => decide (k ∉ order)) - 1
      else (deps j).countP fun k => decide (k ∉ order) := by
  have hsplit : ∀ l : List Nat, l.Nodup → l.countP (fun k => decide (k ∉ order)) =
      l.countP (fun k => decide (k ∉ order ++ [i])) + if i ∈ l then 1 else 0 := by
    intro l hl
    induction l with
    | nil => rfl
    | cons k l ih =>
      obtain ⟨hk, hl⟩ := nodup_cons.1 hl
      rw [countP_cons, countP_cons, ih hl]
      by_cases hki : k = i
      · subst hki
        simp [hi, hk]
      · have hsame : (k ∉ order ++ [i]) = (k ∉ order) := by simp [hki]
        have hmem : (i ∈ k :: l) = (i ∈ l) := by simp [Ne.symm hki]
        simp only [hsame, hmem]
        omega
  have hdeps := hsplit (deps j) (hnodup j)
  split_ifs with hmem
  · rw [if_pos hmem] at hdeps
    omega
  · rw [if_neg hmem] at hdeps
    omega

theorem Sound.round {s' : Sorting} (h : Sound deps n s)
    (hround : s.round deps n = some s') : Sound deps n s' := by
  rw [Sorting.round] at hround
  split at hround
  · cases hround
  rename_i i hlast
  obtain ⟨front, hready⟩ := getLast?_eq_some_iff.1 hlast
  rw [foldl_relax (dependents deps n i) (nodup_range.filter _), Option.some.injEq] at hround
  subst hround
  have hdrop : s.ready.dropLast = front := by rw [hready, dropLast_concat]
  simp only [hdrop]
  have hperm : (s.order ++ s.ready).Perm (s.order ++ [i] ++ front) := by
    rw [hready, append_assoc]
    exact (perm_append_comm).append_left _
  have hall : (s.order ++ [i] ++ front).Nodup := hperm.nodup_iff.1 h.nodup
  have hiOrder : i ∉ s.order := by
    rw [append_assoc] at hall
    exact fun hmem => (nodup_append.1 hall).2.2 i hmem i mem_cons_self rfl
  have hiReady : i ∈ s.order ++ s.ready := hperm.mem_iff.2 (by simp)
  have hcount := countP_append_singleton hnodup hiOrder
  have hgrows : ∀ k ∈ s.order, k ∈ s.order ++ [i] := fun k hk => mem_append_left _ hk
  have hreads {j : Nat} (hj : j ∈ dependents deps n i) : j < n ∧ i ∈ deps j := by
    simpa [dependents] using hj
  -- a node that becomes ready has not been ready before
  have hfresh : ∀ j ∈ dependents deps n i, j ∉ s.order ++ [i] ++ front := by
    intro j hj hmem
    exact hiOrder (h.met j (hperm.mem_iff.2 hmem) i (hreads hj).2)
  refine ⟨?_, ?_, ?_, ?_, ?_⟩
  · intro j hj
    have hmem : j ∈ dependents deps n i ↔ i ∈ deps j := by simp [dependents, hj]
    simp only [hmem]
    rw [hcount j, h.degree j hj]
  · rw [← append_assoc]
    refine nodup_append.2 ⟨hall, (nodup_range.filter _).filter _, ?_⟩
    rintro j hj k hk rfl
    exact hfresh j (mem_filter.1 hk).1 hj
  · intro j hj k hk
    rw [← append_assoc] at hj
    rcases mem_append.1 hj with hj | hj
    · exact hgrows k (h.met j (hperm.mem_iff.2 hj) k hk)
    obtain ⟨hj, hzero⟩ := mem_filter.1 hj
    obtain ⟨hn, hij⟩ := hreads hj
    have hnone : (deps j).countP (fun k => decide (k ∉ s.order ++ [i])) = 0 := by
      rw [hcount j, if_pos hij, ← h.degree j hn]
      simpa using hzero
    by_contra hout
    have hpos : 0 < (deps j).countP fun k => decide (k ∉ s.order ++ [i]) :=
      countP_pos_iff.2 ⟨k, hk, decide_eq_true hout⟩
    omega
  · intro before j back heq k hk
    rcases eq_nil_or_concat' back with rfl | ⟨back, x, rfl⟩
    · obtain ⟨rfl, hlast⟩ := append_inj' heq rfl
      cases hlast
      exact h.met i hiReady k hk
    · rw [← cons_append, ← append_assoc] at heq
      exact h.sorted before j back (append_inj' heq rfl).1 k hk
  · intro j hj
    rw [← append_assoc] at hj
    rcases mem_append.1 hj with hj | hj
    · exact h.bound j (hperm.mem_iff.2 hj)
    · exact (hreads (mem_filter.1 hj).1).1

theorem sort_sound (fuel : Nat) (h : Sound deps n s) :
    Respects deps (sort deps n fuel s) ∧ (sort deps n fuel s).Nodup ∧
      ∀ j ∈ sort deps n fuel s, j < n := by
  induction fuel generalizing s with
  | zero =>
    exact ⟨h.sorted, h.nodup.of_append_left, fun j hj => h.bound j (mem_append_left _ hj)⟩
  | succ fuel ih =>
    rw [sort]
    cases hround : s.round deps n with
    | none =>
      exact ⟨h.sorted, h.nodup.of_append_left, fun j hj => h.bound j (mem_append_left _ hj)⟩
    | some s' => exact ih (h.round hnodup hround)

theorem topologicalSort_respects : Respects deps (topologicalSort deps n) :=
  (sort_sound hnodup n .initial).1

theorem topologicalSort_nodup : (topologicalSort deps n).Nodup :=
  (sort_sound hnodup n .initial).2.1

theorem mem_topologicalSort
    (hlength : (topologicalSort deps n).length = n) (hj : j < n) : j ∈ topologicalSort deps n := by
  obtain ⟨-, hdistinct, hbound⟩ := sort_sound hnodup n (Sound.initial (n := n) : Sound deps n _)
  have hsub : topologicalSort deps n ⊆ range n := fun k hk => mem_range.2 (hbound k hk)
  have hperm := (subperm_of_subset hdistinct hsub).perm_of_length_le
    (Nat.le_of_eq (length_range.trans hlength.symm))
  exact hperm.mem_iff.2 (mem_range.2 hj)

end

section

variable (direct : Nat → List Nat)

def closure : List Nat → Nat → List Nat
  | [] => fun _ => []
  | i :: order => update (closure order) i (direct i ++ (direct i).flatMap (closure order))

variable {direct}

def Precedes (direct : Nat → List Nat) : List Nat → Prop
  | [] => True
  | i :: order => i ∉ order ∧ (∀ j ∈ direct i, j ∈ order) ∧ Precedes direct order

theorem closure_closed (h : Precedes direct order) (hi : i ∈ order) :
    (∀ j ∈ direct i, j ∈ closure direct order i) ∧
      ∀ j ∈ closure direct order i, ∀ k ∈ direct j, k ∈ closure direct order i := by
  induction order generalizing i with
  | nil => cases hi
  | cons m order ih =>
    obtain ⟨hm, hlater, hrest⟩ := h
    rcases mem_cons.1 hi with rfl | hi
    · rw [closure, update_self]
      refine ⟨fun j hj => mem_append_left _ hj, fun j hj k hk => mem_append_right _ ?_⟩
      rcases mem_append.1 hj with hj | hj
      · exact mem_flatMap.2 ⟨j, hj, (ih hrest (hlater j hj)).1 k hk⟩
      · obtain ⟨l, hl, hj⟩ := mem_flatMap.1 hj
        exact mem_flatMap.2 ⟨l, hl, (ih hrest (hlater l hl)).2 j hj k hk⟩
    · have him : i ≠ m := fun him => hm (him ▸ hi)
      rw [closure, update_of_ne him]
      exact ih hrest hi

theorem exists_direct_of_mem_closure (hj : j ∈ closure direct order i) : ∃ k, j ∈ direct k := by
  induction order generalizing i with
  | nil => cases hj
  | cons m order ih =>
    rw [closure, update_apply] at hj
    split at hj
    · rcases mem_append.1 hj with hj | hj
      · exact ⟨_, hj⟩
      · obtain ⟨l, -, hj⟩ := mem_flatMap.1 hj
        exact ih hj
    · exact ih hj

theorem precedes_of_respects (hrespects : Respects deps order) (hnodup : order.Nodup)
    (hall : ∀ j < n, j ∈ order) : Precedes (dependents deps n) order := by
  suffices hsuffix : ∀ front back, order = front ++ back → Precedes (dependents deps n) back from
    hsuffix [] order rfl
  intro front back heq
  induction back generalizing front with
  | nil => trivial
  | cons i back ih =>
    have hsplit : order = (front ++ [i]) ++ back := by rw [heq, append_assoc]; rfl
    have hdistinct := hnodup
    rw [heq, nodup_append] at hdistinct
    obtain ⟨-, hback, hcross⟩ := hdistinct
    refine ⟨(nodup_cons.1 hback).1, fun j hj => ?_, ih (front ++ [i]) hsplit⟩
    obtain ⟨hj, hij⟩ : j < n ∧ i ∈ deps j := by simpa [dependents] using hj
    -- a node that stood before `i` could not read it
    have hmem := hall j hj
    rw [heq] at hmem
    have hbefore : i ∉ front := fun hi => hcross i hi i mem_cons_self rfl
    rcases mem_append.1 hmem with hmem | hmem
    · obtain ⟨a, b, rfl⟩ := append_of_mem hmem
      refine absurd (hrespects a j (b ++ i :: back) (by rw [heq]; simp) i hij) ?_
      exact fun hi => hbefore (mem_append_left _ hi)
    · rcases mem_cons.1 hmem with rfl | hmem
      · exact absurd (hrespects front j back heq j hij) hbefore
      · exact hmem

end

end Digraph
