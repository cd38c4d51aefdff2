import Mathlib.Logic.Basic

/-!
# Loops that break

The body of a loop goes on from a new state, breaks with a result, or fails. `loop` runs it a number
of rounds; `Ends` says that it breaks with a result, whatever more rounds it is given.
-/

namespace Loop

inductive ControlFlow (σ β : Type) where
  | goOn (s : σ)
  | stop (b : β)

variable {σ β : Type}

def loop (body : σ → Option (ControlFlow σ β)) : Nat → σ → Option β
  | 0, _ => none
  | fuel + 1, s =>
    match body s with
    | none => none
    | some (.goOn s') => loop body fuel s'
    | some (.stop b) => some b

variable {body : σ → Option (ControlFlow σ β)} {s s' : σ} {b : β}

def Ends (body : σ → Option (ControlFlow σ β)) (s : σ) (b : β) : Prop :=
  ∃ rounds, ∀ fuel, rounds ≤ fuel → loop body fuel s = some b

theorem Ends.stop (h : body s = some (.stop b)) : Ends body s b := by
  refine ⟨1, fun fuel hfuel => ?_⟩
  obtain ⟨fuel, rfl⟩ := Nat.exists_eq_add_of_le' hfuel
  rw [loop, h]

theorem Ends.goOn (h : body s = some (.goOn s')) (hends : Ends body s' b) : Ends body s b := by
  obtain ⟨rounds, hrounds⟩ := hends
  refine ⟨rounds + 1, fun fuel hfuel => ?_⟩
  obtain ⟨fuel, rfl⟩ := Nat.exists_eq_add_of_le' (Nat.le_trans (Nat.le_add_left 1 rounds) hfuel)
  rw [loop, h]
  exact hrounds fuel (by omega)

theorem Ends.of_goOn (h : body s = some (.goOn s')) (hends : Ends body s b) : Ends body s' b := by
  obtain ⟨rounds, hrounds⟩ := hends
  refine ⟨rounds, fun fuel hfuel => ?_⟩
  have hloop := hrounds (fuel + 1) (by omega)
  rwa [loop, h] at hloop

/-- The loop ends with `b` once a round has come out in this way. -/
def Follows (body : σ → Option (ControlFlow σ β)) (round : Option (ControlFlow σ β)) (b : β) :
    Prop :=
  round = some (.stop b) ∨ ∃ s, round = some (.goOn s) ∧ Ends body s b

theorem Ends.of_follows (h : Follows body (body s) b) : Ends body s b := by
  rcases h with hstop | ⟨s', hgo, hends⟩
  · exact Ends.stop hstop
  · exact hends.goOn hgo

theorem Ends.of_body_eq (h : body s = body s') (hends : Ends body s' b) : Ends body s b := by
  obtain ⟨rounds, hrounds⟩ := hends
  refine ⟨rounds + 1, fun fuel hfuel => ?_⟩
  obtain ⟨fuel, rfl⟩ := Nat.exists_eq_add_of_le' (Nat.le_trans (Nat.le_add_left 1 rounds) hfuel)
  rw [← hrounds (fuel + 1) (by omega), loop, loop, h]

end Loop
