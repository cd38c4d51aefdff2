import Mathlib.Data.Finset.Sort
import PgMicro.Loop

/-!
# Scans of a set that changes

Each round of a cursor moves to the least key past it and visits that key, which may change the set
and move the cursor, or end the scan. If every visit keeps the cursor where it is and the keys past
it, the scan is a sweep over the keys that were there at its start.
-/

namespace OrderedScan

open Loop List

variable {κ σ : Type} [LinearOrder κ]

def next (keys : Finset κ) (pos : Option κ) : Option κ :=
  (keys.filter fun k => ∀ p ∈ pos, p < k).sort.head?

variable (keys : σ → Finset κ) (visit : σ → κ → σ × Option κ)

/-- A round of the scan, from a state and the position of the cursor. -/
def round (s : σ × Option κ) : Option (ControlFlow (σ × Option κ) σ) :=
  match next (keys s.1) s.2 with
  | none => some (.stop s.1)
  | some k =>
    match visit s.1 k with
    | (state, none) => some (.stop state)
    | (state, some pos) => some (.goOn (state, some pos))

def sweep (state : σ) : List κ → σ
  | [] => state
  | k :: ks =>
    match visit state k with
    | (state, none) => state
    | (state, some _) => sweep state ks

/-- Every visit of a sweep keeps the cursor on its key, and the keys past it. -/
def Steady (state : σ) : List κ → Prop
  | [] => True
  | k :: ks => ∀ pos, (visit state k).2 = some pos →
      pos = k ∧ (∀ k', k < k' → (k' ∈ keys (visit state k).1 ↔ k' ∈ keys state)) ∧
        Steady (visit state k).1 ks

variable {keys visit} {s : Finset κ} {l : List κ}

theorem sort_eq (hsorted : l.Pairwise (· < ·)) (hmem : ∀ k, k ∈ l ↔ k ∈ s) : s.sort = l := by
  have hset : s = l.toFinset := by
    ext k
    rw [mem_toFinset, hmem k]
  rw [hset]
  exact (toFinset_sort (· ≤ ·) (hsorted.imp ne_of_lt)).2 (hsorted.imp le_of_lt)

theorem next_eq {pos : Option κ} (hsorted : l.Pairwise (· < ·))
    (hmem : ∀ k, k ∈ l ↔ k ∈ s ∧ ∀ p ∈ pos, p < k) : next s pos = l.head? := by
  rw [next, sort_eq hsorted]
  intro k
  rw [hmem k, Finset.mem_filter]

theorem scan_rest (hsorted : l.Pairwise (· < ·)) {s : σ × Option κ}
    (hsteady : Steady keys visit s.1 l)
    (hmem : ∀ k, k ∈ l ↔ k ∈ keys s.1 ∧ ∀ p ∈ s.2, p < k) :
    Ends (round keys visit) s (sweep visit s.1 l) := by
  induction l generalizing s with
  | nil =>
    apply Ends.stop
    rw [round, next_eq hsorted hmem]
    rfl
  | cons k l ih =>
    obtain ⟨hk, hl⟩ := pairwise_cons.1 hsorted
    have hnext := next_eq hsorted hmem
    rw [Steady] at hsteady
    rw [sweep]
    cases hvisit : visit s.1 k with
    | mk state pos =>
      rw [hvisit] at hsteady
      cases pos with
      | none =>
        apply Ends.stop
        rw [round, hnext, head?_cons]
        simp only [hvisit]
      | some pos =>
        obtain ⟨rfl, hkeys, hrest⟩ := hsteady pos rfl
        have hround : round keys visit s = some (.goOn (state, some pos)) := by
          rw [round, hnext, head?_cons]
          simp only [hvisit]
        refine Ends.goOn hround (@ih hl (state, some pos) hrest fun k' => ?_)
        -- past the cursor the set is what it was
        simp only [Option.mem_def, Option.some.injEq, forall_eq']
        constructor
        · intro hk'
          have hlt := hk k' hk'
          exact ⟨(hkeys k' hlt).2 ((hmem k').1 (mem_cons_of_mem _ hk')).1, hlt⟩
        · rintro ⟨hk', hlt⟩
          have hpast : ∀ p ∈ s.2, p < k' := fun p hp =>
            (((hmem pos).1 mem_cons_self).2 p hp).trans hlt
          have hcons := (hmem k').2 ⟨(hkeys k' hlt).1 hk', hpast⟩
          rcases mem_cons.1 hcons with rfl | hcons
          · exact absurd hlt (lt_irrefl _)
          · exact hcons

theorem scan_ends {state : σ} (hsteady : Steady keys visit state (keys state).sort) :
    Ends (round keys visit) (state, none) (sweep visit state (keys state).sort) := by
  apply scan_rest (Finset.sortedLT_sort _).pairwise hsteady
  intro k
  simp

end OrderedScan
