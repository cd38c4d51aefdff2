import Mathlib.Data.List.Infix

/-!
# Arrivals

The elements of a list that are new when they come, by a relation that says which are taken for
the same, in the order in which they come.
-/

namespace Arrivals

variable {α : Type} (r : α → α → Prop) [DecidableRel r] {l seen : List α} {x : α}

def arrive (seen : List α) (x : α) : List α := if ∃ y ∈ seen, r y x then seen else seen ++ [x]

/-- The elements of a list that are related to none before them. -/
def arrivals (l : List α) : List α := l.foldl (arrive r) []

theorem arrive_cases (seen : List α) (x : α) :
    (∃ y ∈ seen, r y x) ∧ arrive r seen x = seen ∨
      (∀ y ∈ seen, ¬r y x) ∧ arrive r seen x = seen ++ [x] := by
  rw [arrive]
  split
  next h => exact .inl ⟨h, rfl⟩
  next h => exact .inr ⟨fun y hy hyx => h ⟨y, hy, hyx⟩, rfl⟩

theorem prefix_foldl_arrive (l seen : List α) : seen <+: l.foldl (arrive r) seen := by
  induction l generalizing seen with
  | nil => exact List.prefix_rfl
  | cons x l ih =>
    refine List.IsPrefix.trans ?_ (ih _)
    rcases arrive_cases r seen x with ⟨-, h⟩ | ⟨-, h⟩ <;> rw [h]
    exact List.prefix_append _ _

theorem mem_of_mem_foldl_arrive (h : x ∈ l.foldl (arrive r) seen) : x ∈ seen ∨ x ∈ l := by
  induction l generalizing seen with
  | nil => exact .inl h
  | cons y l ih =>
    rcases ih h with h | h
    · rcases arrive_cases r seen y with ⟨-, hseen⟩ | ⟨-, hseen⟩ <;> rw [hseen] at h
      · exact .inl h
      · rcases List.mem_append.1 h with h | h
        · exact .inl h
        · exact .inr (.inl (List.mem_singleton.1 h) |> List.mem_cons.2)
    · exact .inr (List.mem_cons_of_mem _ h)

theorem mem_of_mem_arrivals (h : x ∈ arrivals r l) : x ∈ l :=
  (mem_of_mem_foldl_arrive r h).resolve_left List.not_mem_nil

theorem pairwise_foldl_arrive (h : seen.Pairwise fun y x => ¬r y x) :
    (l.foldl (arrive r) seen).Pairwise fun y x => ¬r y x := by
  induction l generalizing seen with
  | nil => exact h
  | cons x l ih =>
    apply ih
    rcases arrive_cases r seen x with ⟨-, hseen⟩ | ⟨hnew, hseen⟩ <;> rw [hseen]
    · exact h
    · refine List.pairwise_append.2 ⟨h, List.pairwise_singleton _ _, fun y hy z hz => ?_⟩
      rw [List.mem_singleton.1 hz]
      exact hnew y hy

theorem arrivals_congr {r' : α → α → Prop} [DecidableRel r']
    (h : ∀ x ∈ l, ∀ y ∈ l, r x y ↔ r' x y) : arrivals r l = arrivals r' l := by
  suffices ∀ l' seen : List α, (∀ x ∈ l', x ∈ l) → (∀ x ∈ seen, x ∈ l) →
      l'.foldl (arrive r) seen = l'.foldl (arrive r') seen from
    this l [] (fun _ => id) nofun
  intro l'
  induction l' with
  | nil => exact fun _ _ _ => rfl
  | cons x l' ih =>
    intro seen hl' hseen
    have hx := hl' x List.mem_cons_self
    have hsame : arrive r seen x = arrive r' seen x := by
      rw [arrive, arrive]
      refine if_congr (exists_congr fun y => ?_) rfl rfl
      exact and_congr_right fun hy => h y (hseen y hy) x hx
    rw [List.foldl_cons, List.foldl_cons, ← hsame]
    refine ih _ (fun y hy => hl' y (List.mem_cons_of_mem _ hy)) fun y hy => ?_
    rcases arrive_cases r seen x with ⟨-, harrive⟩ | ⟨-, harrive⟩ <;> rw [harrive] at hy
    · exact hseen y hy
    · rcases List.mem_append.1 hy with hy | hy
      · exact hseen y hy
      · rw [List.mem_singleton.1 hy]
        exact hx

section

variable (hequiv : Equivalence r) {a b : α} {n m : Nat}

include hequiv

theorem arrivals_index_unique (ha : (arrivals r l)[n]? = some a) (hb : (arrivals r l)[m]? = some b)
    (hab : r a b) : n = m := by
  obtain ⟨hn, rfl⟩ := List.getElem?_eq_some_iff.1 ha
  obtain ⟨hm, rfl⟩ := List.getElem?_eq_some_iff.1 hb
  have hpairwise := List.pairwise_iff_getElem.1 (pairwise_foldl_arrive r (l := l) .nil)
  rcases Nat.lt_trichotomy n m with hlt | heq | hgt
  · exact absurd hab (hpairwise n m hn hm hlt)
  · exact heq
  · exact absurd (hequiv.symm hab) (hpairwise m n hm hn hgt)

/-- If two lists agree on their arrivals as far as both go, the same element arrives at the same
place in both. -/
theorem arrivals_aligned {l' : List α}
    (haligned : ∀ (n : Nat) x y, (arrivals r l)[n]? = some x → (arrivals r l')[n]? = some y → r x y)
    (ha : (arrivals r l)[n]? = some a) (hb : (arrivals r l')[m]? = some b) : n = m ↔ r a b := by
  constructor
  · rintro rfl
    exact haligned n a b ha hb
  · intro hab
    -- the shorter list of arrivals reaches up to one of the two places
    rcases Nat.lt_or_ge n (arrivals r l').length with hlt | hge
    · have hb' := List.getElem?_eq_getElem hlt
      exact arrivals_index_unique r hequiv hb' hb
        (hequiv.trans (hequiv.symm (haligned n a _ ha hb')) hab)
    · have hlt : m < (arrivals r l).length := by
        have hnlt := (List.getElem?_eq_some_iff.1 ha).1
        have hmlt := (List.getElem?_eq_some_iff.1 hb).1
        omega
      have ha' := List.getElem?_eq_getElem hlt
      exact arrivals_index_unique r hequiv ha ha'
        (hequiv.trans hab (hequiv.symm (haligned m _ b ha' hb)))

end

end Arrivals
