import Mathlib.Logic.Function.Basic

/-!
# Undoing writes by first images

A log holds images of keys from before they were written. The first image of a key is the value
it had when the log began, so logs of successive spans of time can be put together.
-/

namespace UndoLog

variable {κ α : Type} [DecidableEq κ] {log log' : List (κ × α)} {keys keys' : κ → Prop}
  {f g h : κ → α} {k : κ}

/-- The log takes the values `g` back to `f`, as far as the keys go. -/
structure Undoes (log : List (κ × α)) (keys : κ → Prop) (f g : κ → α) : Prop where
  image : ∀ k, keys k → ∀ v, log.lookup k = some v → v = f k
  unchanged : ∀ k, keys k → log.lookup k = none → g k = f k

theorem Undoes.refl (keys : κ → Prop) (f : κ → α) : Undoes [] keys f f :=
  ⟨fun _ _ _ hv => (Option.some_ne_none _ hv.symm).elim, fun _ _ _ => rfl⟩

theorem Undoes.mono (hundoes : Undoes log keys f g) (hkeys : ∀ k, keys' k → keys k) :
    Undoes log keys' f g :=
  ⟨fun k hk => hundoes.image k (hkeys k hk), fun k hk => hundoes.unchanged k (hkeys k hk)⟩

theorem lookup_append_eq_none :
    (log ++ log').lookup k = none ↔ log.lookup k = none ∧ log'.lookup k = none := by
  rw [List.lookup_append, Option.or_eq_none_iff]

section

variable (hundoes : Undoes log keys f g)

include hundoes

theorem Undoes.append (hundoes' : Undoes log' keys g h) : Undoes (log ++ log') keys f h := by
  constructor
  · intro k hk v hv
    rw [List.lookup_append] at hv
    cases hfirst : log.lookup k with
    | some v' =>
      rw [hfirst] at hv
      obtain rfl := Option.some.inj hv
      exact hundoes.image k hk v' hfirst
    | none =>
      rw [hfirst] at hv
      exact (hundoes'.image k hk v hv).trans (hundoes.unchanged k hk hfirst)
  · intro k hk hnone
    obtain ⟨hfirst, hlater⟩ := lookup_append_eq_none.1 hnone
    exact (hundoes'.unchanged k hk hlater).trans (hundoes.unchanged k hk hfirst)

theorem Undoes.concat : Undoes (log ++ [(k, g k)]) keys f g := by
  apply hundoes.append
  constructor
  · intro k' _ v hv
    rcases eq_or_ne k' k with rfl | hne
    · rw [List.lookup_cons, beq_self_eq_true] at hv
      exact (Option.some.inj hv).symm
    · rw [List.lookup_cons, beq_false_of_ne hne] at hv
      cases hv
  · intro _ _ _
    rfl

theorem Undoes.update {v : α}
    (hlogged : keys k → log.lookup k ≠ none) : Undoes log keys f (Function.update g k v) := by
  refine ⟨hundoes.image, ?_⟩
  intro k' hk hnone
  rcases eq_or_ne k' k with rfl | hne
  · exact absurd hnone (hlogged hk)
  · rw [Function.update_of_ne hne]
    exact hundoes.unchanged k' hk hnone

end

theorem lookup_concat_ne_none {v : α} : (log ++ [(k, v)]).lookup k ≠ none := by
  intro hnone
  have := (lookup_append_eq_none.1 hnone).2
  rw [List.lookup_cons, beq_self_eq_true] at this
  cases this

end UndoLog
