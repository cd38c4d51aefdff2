import Mathlib.Data.List.Basic
import Mathlib.Order.Compare

/-!
# Sets as sorted lists

A set whose elements are told apart by a comparison. Of equal elements it keeps the one inserted
last; `DistinctOf` says that a list has one of each class of equal elements of another list. In
`lex` the first of several comparisons that tells two elements apart decides.
-/

namespace PgMicro.OrderedSet

open List

variable {α : Type} (cmp : α → α → Ordering) {l l' : List α} {a b x : α}

def lex (cs : List (α → α → Ordering)) : α → α → Ordering :=
  cs.foldr compareLex fun _ _ => .eq

theorem transCmp_lex {cs : List (α → α → Ordering)} (hcs : ∀ c ∈ cs, Std.TransCmp c) :
    Std.TransCmp (lex cs) := by
  induction cs with
  | nil => exact { eq_swap := fun {_ _} => rfl, isLE_trans := fun {_ _ _} _ _ => rfl }
  | cons c cs ih =>
    have := hcs c mem_cons_self
    have := ih fun c hc => hcs c (mem_cons_of_mem _ hc)
    exact inferInstanceAs (Std.TransCmp (compareLex c (lex cs)))

theorem transCmp_on {β : Type} {cmp : α → α → Ordering} (h : Std.TransCmp cmp) (f : β → α) :
    Std.TransCmp fun a b => cmp (f a) (f b) :=
  { eq_swap := h.eq_swap
    isLE_trans := h.isLE_trans }

def insert (a : α) : List α → List α
  | [] => [a]
  | b :: l =>
    match cmp a b with
    | .lt => a :: b :: l
    | .eq => a :: l
    | .gt => b :: insert a l

def erase (a : α) : List α → List α
  | [] => []
  | b :: l =>
    match cmp a b with
    | .lt => b :: l
    | .eq => l
    | .gt => b :: erase a l

def contains (a : α) (l : List α) : Bool := l.any fun b => cmp a b == .eq

def Sorted (l : List α) : Prop := l.Pairwise fun a b => cmp a b = .lt

structure DistinctOf (l s : List α) : Prop where
  distinct : l.Pairwise fun a b => cmp a b ≠ .eq
  subset : ∀ a ∈ l, a ∈ s
  covers : ∀ a ∈ s, ∃ b ∈ l, cmp a b = .eq

variable {cmp}

theorem contains_iff : contains cmp a l = true ↔ ∃ b ∈ l, cmp a b = .eq := by
  simp [contains]

theorem insert_perm (a : α) (l : List α) : (insert cmp a l).Perm (a :: erase cmp a l) := by
  induction l with
  | nil => exact .refl _
  | cons b l ih =>
    rw [insert, erase]
    cases cmp a b with
    | lt | eq => exact .refl _
    | gt => exact (ih.cons b).trans (.swap a b _)

theorem erase_eq_self (h : contains cmp a l = false) : erase cmp a l = l := by
  induction l with
  | nil => rfl
  | cons b l ih =>
    simp only [contains, any_cons, Bool.or_eq_false_iff] at h
    rw [erase]
    cases hab : cmp a b with
    | lt => rfl
    | eq => simp [hab] at h
    | gt => exact congrArg (b :: ·) (ih h.2)

open Std.TransCmp

section

variable [Std.TransCmp cmp] {s : List α}

theorem contains_congr (h : cmp a b = .eq) (l : List α) : contains cmp a l = contains cmp b l := by
  have hsame (c : α) : cmp a c = cmp b c := congr_left h
  simp [contains, hsame]

omit [Std.TransCmp cmp] in
theorem Sorted.distinct (h : Sorted cmp l) : l.Pairwise fun a b => cmp a b ≠ .eq :=
  h.imp fun hlt => by rw [hlt]; nofun

theorem Sorted.lt_of_lt_head (h : Sorted cmp (b :: l)) (hlt : cmp a b = .lt) :
    ∀ c ∈ b :: l, cmp a c = .lt := by
  obtain ⟨hb, -⟩ := pairwise_cons.1 h
  intro c hc
  rcases mem_cons.1 hc with rfl | hc
  · exact hlt
  · exact lt_trans hlt (hb c hc)

theorem Sorted.lt_of_eq_head (h : Sorted cmp (b :: l)) (heq : cmp a b = .eq) :
    ∀ c ∈ l, cmp a c = .lt := by
  obtain ⟨hb, -⟩ := pairwise_cons.1 h
  intro c hc
  rw [congr_left heq]
  exact hb c hc

theorem mem_erase (h : Sorted cmp l) : x ∈ erase cmp a l ↔ x ∈ l ∧ cmp a x ≠ .eq := by
  induction l with
  | nil => simp [erase]
  | cons b l ih =>
    obtain ⟨hb, hl⟩ := pairwise_cons.1 h
    rw [erase]
    cases hab : cmp a b with
    | lt =>
      have hlt := h.lt_of_lt_head hab
      exact ⟨fun hx => ⟨hx, by rw [hlt x hx]; nofun⟩, And.left⟩
    | eq =>
      have hlt := h.lt_of_eq_head hab
      constructor
      · intro hx
        exact ⟨mem_cons_of_mem b hx, by rw [hlt x hx]; nofun⟩
      · rintro ⟨hx, hne⟩
        rcases mem_cons.1 hx with rfl | hx
        · exact absurd hab hne
        · exact hx
    | gt =>
      rw [mem_cons, ih hl, mem_cons]
      constructor
      · rintro (rfl | ⟨hx, hne⟩)
        · exact ⟨.inl rfl, by rw [hab]; nofun⟩
        · exact ⟨.inr hx, hne⟩
      · rintro ⟨rfl | hx, hne⟩
        · exact .inl rfl
        · exact .inr ⟨hx, hne⟩

theorem mem_insert (h : Sorted cmp l) : x ∈ insert cmp a l ↔ x = a ∨ x ∈ l ∧ cmp a x ≠ .eq := by
  rw [(insert_perm a l).mem_iff, mem_cons, mem_erase h]

theorem sorted_insert (a : α) (h : Sorted cmp l) : Sorted cmp (insert cmp a l) := by
  induction l with
  | nil => exact pairwise_singleton _ _
  | cons b l ih =>
    obtain ⟨hb, hl⟩ := pairwise_cons.1 h
    rw [insert]
    cases hab : cmp a b with
    | lt => exact pairwise_cons.2 ⟨h.lt_of_lt_head hab, h⟩
    | eq => exact pairwise_cons.2 ⟨h.lt_of_eq_head hab, hl⟩
    | gt =>
      refine pairwise_cons.2 ⟨fun c hc => ?_, ih hl⟩
      rcases (mem_insert hl).1 hc with rfl | ⟨hc, -⟩
      · exact Std.OrientedCmp.lt_of_gt hab
      · exact hb c hc

omit [Std.TransCmp cmp] in
theorem sorted_erase (a : α) (h : Sorted cmp l) : Sorted cmp (erase cmp a l) := by
  have hsub : (erase cmp a l).Sublist l := by
    clear h
    induction l with
    | nil => exact .slnil
    | cons b l ih =>
      rw [erase]
      cases cmp a b with
      | lt => exact .refl _
      | eq => exact .cons b (.refl _)
      | gt => exact .cons_cons b ih
  exact List.Pairwise.sublist hsub h

namespace DistinctOf

theorem refl (h : l.Pairwise fun a b => cmp a b ≠ .eq) : DistinctOf cmp l l :=
  ⟨h, fun _ h => h, fun a ha => ⟨a, ha, Std.ReflCmp.compare_self⟩⟩

theorem trans {m : List α} (h : DistinctOf cmp l m) (h' : DistinctOf cmp m s) :
    DistinctOf cmp l s := by
  refine ⟨h.distinct, fun a ha => h'.subset a (h.subset a ha), fun a ha => ?_⟩
  obtain ⟨b, hb, hab⟩ := h'.covers a ha
  obtain ⟨c, hc, hbc⟩ := h.covers b hb
  exact ⟨c, hc, eq_trans hab hbc⟩

omit [Std.TransCmp cmp] in
theorem congr_right {s' : List α} (h : DistinctOf cmp l s) (hs : ∀ a, a ∈ s ↔ a ∈ s') :
    DistinctOf cmp l s' :=
  ⟨h.distinct, fun a ha => (hs a).1 (h.subset a ha), fun a ha => h.covers a ((hs a).2 ha)⟩

theorem perm (h : DistinctOf cmp l s) (hl : l.Perm l') : DistinctOf cmp l' s := by
  refine ⟨?_, fun a ha => h.subset a (hl.mem_iff.2 ha), fun a ha => ?_⟩
  · exact (hl.pairwise_iff fun hne heq => hne (Std.OrientedCmp.eq_comm.1 heq)).1 h.distinct
  · obtain ⟨b, hb, hab⟩ := h.covers a ha
    exact ⟨b, hl.mem_iff.1 hb, hab⟩

theorem append {t : List α} (h : DistinctOf cmp l s) (h' : DistinctOf cmp l' (l ++ t)) :
    DistinctOf cmp l' (s ++ t) := by
  refine ⟨h'.distinct, fun a ha => ?_, fun a ha => ?_⟩
  · rcases mem_append.1 (h'.subset a ha) with ha | ha
    · exact mem_append.2 (.inl (h.subset a ha))
    · exact mem_append.2 (.inr ha)
  · rcases mem_append.1 ha with ha | ha
    · obtain ⟨b, hb, hab⟩ := h.covers a ha
      obtain ⟨c, hc, hbc⟩ := h'.covers b (mem_append.2 (.inl hb))
      exact ⟨c, hc, eq_trans hab hbc⟩
    · exact h'.covers a (mem_append.2 (.inr ha))

omit [Std.TransCmp cmp] in
theorem filter {p : α → Bool} (h : DistinctOf cmp l s)
    (hp : ∀ a b, cmp a b = .eq → p a = p b) : DistinctOf cmp (l.filter p) (s.filter p) := by
  refine ⟨h.distinct.filter p, fun a ha => ?_, fun a ha => ?_⟩
  · obtain ⟨hmem, hpa⟩ := mem_filter.1 ha
    exact mem_filter.2 ⟨h.subset a hmem, hpa⟩
  · obtain ⟨hmem, hpa⟩ := mem_filter.1 ha
    obtain ⟨b, hb, hab⟩ := h.covers a hmem
    exact ⟨b, mem_filter.2 ⟨hb, hp a b hab ▸ hpa⟩, hab⟩

theorem contains_eq (h : DistinctOf cmp l s) (a : α) : contains cmp a l = contains cmp a s := by
  refine Bool.eq_iff_iff.2 ?_
  rw [contains_iff, contains_iff]
  constructor
  · rintro ⟨b, hb, hab⟩
    exact ⟨b, h.subset b hb, hab⟩
  · rintro ⟨b, hb, hab⟩
    obtain ⟨c, hc, hbc⟩ := h.covers b hb
    exact ⟨c, hc, eq_trans hab hbc⟩

end DistinctOf

theorem distinctOf_insertAll (rows : List α) (h : Sorted cmp l) :
    Sorted cmp (rows.foldl (fun l a => insert cmp a l) l) ∧
      DistinctOf cmp (rows.foldl (fun l a => insert cmp a l) l) (l ++ rows) := by
  induction rows generalizing l with
  | nil => exact ⟨h, by rw [append_nil]; exact .refl h.distinct⟩
  | cons a rows ih =>
    have hins := sorted_insert a h
    obtain ⟨hsorted, hdistinct⟩ := ih hins
    refine ⟨hsorted, ?_⟩
    have hone : DistinctOf cmp (insert cmp a l) (l ++ [a]) := by
      refine ⟨hins.distinct, fun x hx => ?_, fun x hx => ?_⟩
      · rcases (mem_insert h).1 hx with rfl | ⟨hx, -⟩ <;> simp_all
      · rcases mem_append.1 hx with hx | hx
        · by_cases heq : cmp a x = .eq
          · exact ⟨a, (mem_insert h).2 (.inl rfl), Std.OrientedCmp.eq_comm.1 heq⟩
          · exact ⟨x, (mem_insert h).2 (.inr ⟨hx, heq⟩), Std.ReflCmp.compare_self⟩
        · rw [mem_singleton.1 hx]
          exact ⟨a, (mem_insert h).2 (.inl rfl), Std.ReflCmp.compare_self⟩
    have happ := hone.append hdistinct
    rwa [append_assoc] at happ

theorem mem_eraseAll (rows : List α) (h : Sorted cmp l) :
    Sorted cmp (rows.foldl (fun l a => erase cmp a l) l) ∧
      ∀ x, x ∈ rows.foldl (fun l a => erase cmp a l) l ↔
        x ∈ l.filter fun x => !contains cmp x rows := by
  induction rows generalizing l with
  | nil => exact ⟨h, fun x => by simp [contains]⟩
  | cons a rows ih =>
    obtain ⟨hsorted, hmem⟩ := ih (sorted_erase a h)
    refine ⟨hsorted, fun x => ?_⟩
    rw [foldl_cons, hmem x, mem_filter, mem_filter, mem_erase h]
    simp only [contains, any_cons, Bool.not_or, Bool.and_eq_true, Bool.not_eq_true',
      beq_eq_false_iff_ne]
    rw [and_assoc]
    refine and_congr_right fun _ => and_congr_left fun _ => ?_
    rw [Ne, Ne, Std.OrientedCmp.eq_comm]

end

end PgMicro.OrderedSet
