import PgMicro.MultiVersion.Coherence

/-!
# What a reader sees

A transaction that looks at a version may start to depend on another one. Nothing it has
seen, or seen to be hidden, changes by that.
-/

namespace MultiVersion

open State Version Function

variable {ρ α : Type} {s : State ρ α} {β : Stamp} {t : Nat}

structure Extends (s s' : State ρ α) : Prop where
  chain : s'.chain = s.chain
  history : s'.history = s.history
  txn : ∀ d y, s.txn d = some y → ∃ y', s'.txn d = some y' ∧ y'.status = y.status ∧
    y'.beginTs = y.beginTs ∧ ∀ t ∈ y.dependents, t ∈ y'.dependents

namespace Extends

variable {s' s'' : State ρ α} {b : Nat} {v : Version α}

theorem refl (s : State ρ α) : Extends s s :=
  ⟨rfl, rfl, fun _ y hy => ⟨y, hy, rfl, rfl, fun _ => id⟩⟩

section

variable (h : Extends s s')

include h

theorem trans (h' : Extends s' s'') : Extends s s'' where
  chain := h'.chain.trans h.chain
  history := h'.history.trans h.history
  txn d y hy := by
    obtain ⟨y', hy', hst, hb, hdep⟩ := h.txn d y hy
    obtain ⟨y'', hy'', hst', hb', hdep'⟩ := h'.txn d y' hy'
    exact ⟨y'', hy'', hst'.trans hst, hb'.trans hb, fun t ht => hdep' t (hdep t ht)⟩

theorem endOf {e : Nat} (he : s.EndOf t e) : s'.EndOf t e := by
  rcases he with ⟨x, hx, hst⟩ | ⟨k, hk, hke⟩
  · obtain ⟨x', hx', hst', -⟩ := h.txn t x hx
    exact .inl ⟨x', hx', hst'.symm ▸ hst⟩
  · exact .inr ⟨k, h.history ▸ hk, hke⟩

theorem fixedAt {f : Nat} (hf : s.FixedAt β f) : s'.FixedAt β f := by
  cases β with
  | ts g => exact hf
  | tx o =>
    obtain ⟨k, hk, hkf⟩ := hf
    exact ⟨k, h.history ▸ hk, hkf⟩

theorem notBefore (hn : s.NotBefore b β) : s'.NotBefore b β := by
  cases β with
  | ts g => exact hn
  | tx o =>
    rcases hn with hend | ⟨y, hy, hst⟩
    · exact .inl (h.endOf hend)
    · obtain ⟨y', hy', hst', -⟩ := h.txn o y hy
      exact .inr ⟨y', hy', hst'.symm ▸ hst⟩

theorem seesBirth (hsees : s.SeesBirth t b v) : s'.SeesBirth t b v := by
  rcases hsees with hb | hb | ⟨d, y, e, hb, hy, hlt, hst⟩
  · exact .inl hb
  · exact .inr (.inl hb)
  · obtain ⟨y', hy', hst', -, hdep⟩ := h.txn d y hy
    refine .inr (.inr ⟨d, y', e, hb, hy', hlt, ?_⟩)
    rw [hst']
    exact hst.imp (And.imp id (hdep t)) id

theorem hidden (hh : s.Hidden t b v) : s'.Hidden t b v := by
  rcases hh with hb | ⟨β, hb, hne, hnot⟩ | hd | ⟨β, f, hd, hf, hle⟩ |
    ⟨d, y, f, hd, hy, hst, hle, hmem⟩
  · exact .inl hb
  · exact .inr (.inl ⟨β, hb, hne, h.notBefore hnot⟩)
  · exact .inr (.inr (.inl hd))
  · exact .inr (.inr (.inr (.inl ⟨β, f, hd, h.fixedAt hf, hle⟩)))
  · obtain ⟨y', hy', hst', -, hdep⟩ := h.txn d y hy
    exact .inr (.inr (.inr (.inr ⟨d, y', f, hd, hy', hst'.trans hst, hle, hdep t hmem⟩)))

end

end Extends

theorem Step.extends_of_depend [DecidableEq ρ] {clash : ρ → ρ → Prop} {tracked : ρ → Prop}
    {s' : State ρ α} {d : Nat} (hs : Step clash tracked s (.depend t d) s') : Extends s s' := by
  cases hs with
  | @depend _ _ e x y hx hactive hy he =>
    refine ⟨rfl, rfl, fun c z hz => ?_⟩
    by_cases hct : c = t
    · subst hct
      rw [hx, Option.some.injEq] at hz
      subst hz
      exact ⟨_, update_self .., rfl, rfl, fun _ => id⟩
    · by_cases hcd : c = d
      · subst hcd
        rw [hy, Option.some.injEq] at hz
        subst hz
        exact ⟨_, (update_of_ne hct ..).trans (update_self ..), rfl, rfl,
          fun _ => List.mem_cons_of_mem _⟩
      · exact ⟨z, (update_of_ne hct ..).trans ((update_of_ne hcd ..).trans hz),
          rfl, rfl, fun _ => id⟩

theorem Seen.own_died (h : Seen s) (ho : Owned s) {r : ρ} {v : Version α} (hv : v ∈ s.chain r)
    {x : Txn ρ} (hx : s.txn t = some x) (hactive : x.status = .active) (hborn : v.BornBy t)
    (hβ : v.died = some β) : β = .tx t := by
  cases β with
  | ts e =>
    rcases ho.died r v hv e hβ with hseed | ⟨u, k, hk, rfl, -⟩
    · rcases h.atSeed r v hv e hβ hseed with hn | ⟨c, hn, -⟩ <;> unfold BornBy at hborn <;>
        rw [hn] at hborn <;> cases hborn
    · rcases h.byRecord r v hv u k hk hβ with hn | ⟨c, hn, -⟩ | ⟨d, y, e, hn, hy, hst, -⟩ <;>
        unfold BornBy at hborn <;> rw [hn] at hborn <;> cases hborn
      rw [hx, Option.some.injEq] at hy
      rw [← hy, hactive] at hst
      cases hst
  | tx u =>
    obtain ⟨z, hz, -⟩ := ho.mentions r v hv u (.inr hβ)
    rcases h.byTxn r v hv u z hz hβ with hn | ⟨c, hn, -⟩ | hn | ⟨d, y, hn, hy, hfate⟩ <;>
      unfold BornBy at hborn <;> rw [hn] at hborn <;> cases hborn
    · rfl
    · rw [hx, Option.some.injEq] at hy
      subst hy
      rw [hactive] at hfate
      rcases hfate with ⟨e, -, ⟨hst, -⟩ | hst⟩ | ⟨hst, -⟩ <;> cases hst

end MultiVersion
