import Mathlib.Algebra.BigOperators.Finsupp.Basic
import Mathlib.Tactic.Abel

/-!
# Z-sets and their equi-join

A Z-set gives every element an integer weight, zero for almost all; a list of changes stands for the
sum of its entries. The join is linear in each Z-set, so the join of grown inputs is the old one and
three smaller joins.
-/

namespace ZSet

open Finsupp List

variable {α β γ : Type}

noncomputable def ofChanges (changes : List (α × ℤ)) : α →₀ ℤ :=
  (changes.map fun c => single c.1 c.2).sum

@[simp]
theorem ofChanges_nil : ofChanges ([] : List (α × ℤ)) = 0 := rfl

@[simp]
theorem ofChanges_cons (c : α × ℤ) (cs : List (α × ℤ)) :
    ofChanges (c :: cs) = single c.1 c.2 + ofChanges cs := by
  rw [ofChanges, map_cons, List.sum_cons, ofChanges]

@[simp]
theorem ofChanges_append (cs ds : List (α × ℤ)) :
    ofChanges (cs ++ ds) = ofChanges cs + ofChanges ds := by
  rw [ofChanges, map_append, sum_append, ofChanges, ofChanges]

variable {cs : List (α × ℤ)}

theorem ofChanges_perm {ds : List (α × ℤ)} (h : cs.Perm ds) : ofChanges cs = ofChanges ds :=
  (h.map _).sum_eq

theorem ofChanges_apply_of_notMem {a : α} (h : ∀ c ∈ cs, c.1 ≠ a) : ofChanges cs a = 0 := by
  induction cs with
  | nil => rfl
  | cons c cs ih =>
    obtain ⟨hc, hcs⟩ := forall_mem_cons.1 h
    rw [ofChanges_cons, Finsupp.add_apply, single_eq_of_ne (Ne.symm hc), ih hcs, add_zero]

theorem exists_of_mem_support {a : α} (h : a ∈ (ofChanges cs).support) : ∃ c ∈ cs, c.1 = a := by
  by_contra hnone
  push Not at hnone
  exact mem_support_iff.1 h (ofChanges_apply_of_notMem hnone)

section

variable (hit : α → β → Bool) (pair : α → β → γ)

noncomputable def join (L : α →₀ ℤ) (R : β →₀ ℤ) : γ →₀ ℤ :=
  L.sum fun l w => R.sum fun r v => if hit l r then single (pair l r) (w * v) else 0

@[simp]
theorem join_zero_left (R : β →₀ ℤ) : join hit pair 0 R = 0 := sum_zero_index

@[simp]
theorem join_zero_right (L : α →₀ ℤ) : join hit pair L 0 = 0 := by
  exact sum_fun_zero _

theorem join_add_left (L L' : α →₀ ℤ) (R : β →₀ ℤ) :
    join hit pair (L + L') R = join hit pair L R + join hit pair L' R := by
  apply sum_add_index'
  · intro l
    simp [zero_mul, single_zero, ite_self, sum_fun_zero]
  · intro l w w'
    rw [← sum_add]
    congr
    funext r v
    split
    · rw [add_mul, single_add]
    · rw [add_zero]

theorem join_add_right (L : α →₀ ℤ) (R R' : β →₀ ℤ) :
    join hit pair L (R + R') = join hit pair L R + join hit pair L R' := by
  rw [join, join, join, ← sum_add]
  congr
  funext l w
  apply sum_add_index'
  · intro r
    simp [mul_zero, single_zero, ite_self]
  · intro r v v'
    split
    · rw [mul_add, single_add]
    · rw [add_zero]

theorem join_single_single (l : α) (r : β) (w v : ℤ) :
    join hit pair (single l w) (single r v) =
      if hit l r then single (pair l r) (w * v) else 0 := by
  rw [join, sum_single_index, sum_single_index]
  · simp [mul_zero, single_zero, ite_self]
  · simp [zero_mul, single_zero, ite_self, sum_fun_zero]

theorem join_add_add (L δL : α →₀ ℤ) (R δR : β →₀ ℤ) :
    join hit pair (L + δL) (R + δR) =
      join hit pair L R + (join hit pair δL δR + join hit pair δL R + join hit pair L δR) := by
  rw [join_add_left, join_add_right, join_add_right]
  abel

variable {L : α →₀ ℤ} {R : β →₀ ℤ}

theorem join_congr {hit' : α → β → Bool} {L : α →₀ ℤ} {R : β →₀ ℤ}
    (h : ∀ l ∈ L.support, ∀ r ∈ R.support, hit l r = hit' l r) :
    join hit pair L R = join hit' pair L R :=
  Finsupp.sum_congr fun l hl => Finsupp.sum_congr fun r hr => by rw [h l hl r hr]

theorem ofChanges_pairs_left (l : α) (w : ℤ) (rs : List (β × ℤ)) :
    ofChanges ((rs.filter fun c => hit l c.1).map fun c => (pair l c.1, w * c.2)) =
      join hit pair (single l w) (ofChanges rs) := by
  induction rs with
  | nil => rw [ofChanges_nil, join_zero_right, filter_nil, map_nil, ofChanges_nil]
  | cons c rs ih =>
    rw [ofChanges_cons, join_add_right, ← ih, join_single_single, filter_cons]
    split
    · rw [map_cons, ofChanges_cons]
    · rw [zero_add]

theorem ofChanges_pairs_right (r : β) (v : ℤ) (ls : List (α × ℤ)) :
    ofChanges ((ls.filter fun c => hit c.1 r).map fun c => (pair c.1 r, c.2 * v)) =
      join hit pair (ofChanges ls) (single r v) := by
  induction ls with
  | nil => rw [ofChanges_nil, join_zero_left, filter_nil, map_nil, ofChanges_nil]
  | cons c ls ih =>
    rw [ofChanges_cons, join_add_left, ← ih, join_single_single, filter_cons]
    split
    · rw [map_cons, ofChanges_cons]
    · rw [zero_add]

theorem ofChanges_flatMap_left {f : α × ℤ → List (γ × ℤ)}
    (h : ∀ c, ofChanges (f c) = join hit pair (single c.1 c.2) R) (cs : List (α × ℤ)) :
    ofChanges (cs.flatMap f) = join hit pair (ofChanges cs) R := by
  induction cs with
  | nil => rw [flatMap_nil, ofChanges_nil, ofChanges_nil, join_zero_left]
  | cons c cs ih =>
    rw [flatMap_cons, ofChanges_append, h, ih, ofChanges_cons, join_add_left]

theorem ofChanges_flatMap_right {f : β × ℤ → List (γ × ℤ)}
    (h : ∀ c, ofChanges (f c) = join hit pair L (single c.1 c.2)) (cs : List (β × ℤ)) :
    ofChanges (cs.flatMap f) = join hit pair L (ofChanges cs) := by
  induction cs with
  | nil => rw [flatMap_nil, ofChanges_nil, ofChanges_nil, join_zero_right]
  | cons c cs ih =>
    rw [flatMap_cons, ofChanges_append, h, ih, ofChanges_cons, join_add_right]

theorem join_apply [DecidableEq γ] (L : α →₀ ℤ) (R : β →₀ ℤ) (c : γ) :
    join hit pair L R c =
      ∑ l ∈ L.support, ∑ r ∈ R.support, if hit l r ∧ pair l r = c then L l * R r else 0 := by
  rw [join, Finsupp.sum, finsetSum_apply]
  refine Finset.sum_congr rfl fun l _ => ?_
  rw [Finsupp.sum, finsetSum_apply]
  refine Finset.sum_congr rfl fun r _ => ?_
  by_cases hhit : hit l r = true
  · rw [if_pos hhit, single_apply]
    simp [hhit, true_and]
  · rw [if_neg hhit, if_neg fun h => hhit h.1]
    rfl

end

end ZSet
