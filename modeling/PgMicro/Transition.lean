import Mathlib.Algebra.Group.Nat.Defs
import Mathlib.Data.Option.Basic

/-!
# Runs of a step function

A system is a partial step function on states, a run a list of actions, each enabled where it is
taken; an invariant is shown for one step and carried over the run.
-/

namespace Transition

variable {σ α : Type} (exec : σ → α → Option σ) {P : σ → α → Prop}

def run (s : σ) : List α → Option σ
  | [] => some s
  | a :: as => (exec s a).bind fun s' => run s' as

def Meets (P : σ → α → Prop) (s : σ) : List α → Prop
  | [] => True
  | a :: as => P s a ∧ ∀ s' ∈ exec s a, Meets P s' as

instance decidableMeets (P : σ → α → Prop) [∀ s, DecidablePred (P s)] :
    ∀ (s : σ) as, Decidable (Meets exec P s as)
  | _, [] => isTrue trivial
  | s, a :: as =>
    have : DecidablePred fun s' => Meets exec P s' as := fun s' => decidableMeets P s' as
    inferInstanceAs (Decidable (P s a ∧ ∀ s' ∈ exec s a, Meets exec P s' as))

variable {exec} {s s' : σ} {as : List α}

theorem Meets.and {P' : σ → α → Prop} (h : Meets exec P s as) (h' : Meets exec P' s as) :
    Meets exec (fun s a => P s a ∧ P' s a) s as := by
  induction as generalizing s with
  | nil => trivial
  | cons a as ih => exact ⟨⟨h.1, h'.1⟩, fun s' hs' => ih (h.2 s' hs') (h'.2 s' hs')⟩

theorem meets_of_forall (h : ∀ s, ∀ a ∈ as, P s a) : Meets exec P s as := by
  induction as generalizing s with
  | nil => trivial
  | cons a as ih =>
    exact ⟨h s a List.mem_cons_self, fun _ _ => ih fun s b hb => h s b (List.mem_cons_of_mem _ hb)⟩

theorem run_preserves {Q : σ → Prop}
    (hstep : ∀ {s s' : σ} {a : α}, P s a → Q s → exec s a = some s' → Q s')
    (hmeets : Meets exec P s as) (hQ : Q s) (hrun : run exec s as = some s') : Q s' := by
  induction as generalizing s with
  | nil =>
    cases hrun
    exact hQ
  | cons a as ih =>
    obtain ⟨s1, hexec, hrun⟩ := Option.bind_eq_some_iff.1 hrun
    exact ih (hmeets.2 s1 hexec) (hstep hmeets.1 hQ hexec) hrun

theorem run_simulates {τ : Type} {exec' : τ → α → Option τ} {R : σ → τ → Prop}
    (hstep : ∀ {s s' : σ} {t : τ} {a : α}, P s a → R s t → exec s a = some s' →
      ∃ t', exec' t a = some t' ∧ R s' t') {t : τ} (hmeets : Meets exec P s as) (hR : R s t)
    (hrun : run exec s as = some s') :
    ∃ t', run exec' t as = some t' ∧ R s' t' := by
  induction as generalizing s t with
  | nil =>
    cases hrun
    exact ⟨t, rfl, hR⟩
  | cons a as ih =>
    obtain ⟨s1, hexec, hrun⟩ := Option.bind_eq_some_iff.1 hrun
    obtain ⟨t1, hexec', hR1⟩ := hstep hmeets.1 hR hexec
    obtain ⟨t', hrun', hR'⟩ := ih (hmeets.2 s1 hexec) hR1 hrun
    exact ⟨t', Option.bind_eq_some_iff.2 ⟨t1, hexec', hrun'⟩, hR'⟩

end Transition
