import PgMicro.MultiVersion.Presence

/-!
# Validation

A writer that has been validated stays compatible with every version it was checked
against and with every later one: none of them overlaps its lifetime.
-/

namespace MultiVersion

open State Version Option

variable {ρ α : Type} {f u g e t b : Nat} {v : Version α} {β : Stamp} {y : Txn ρ}

section

def State.EndsAt (s : State ρ α) : Stamp → Nat → Prop
  | .ts g, f => g = f
  | .tx o, f => s.EndOf o f

/-- The version does not overlap a writer that lives from `b` to `e`, or is its own. -/
def State.Compatible (s : State ρ α) (b e : Nat) (v : Version α) : Prop :=
  (∃ β, v.born = some β ∧ s.NotBefore e β) ∨
    (∃ β f, v.died = some β ∧ (s.FixedAt β f ∧ f < b ∨ s.EndsAt β f ∧ f = e)) ∨
    (v.born = none ∧ ∀ β, v.died = some β → s.NotBefore e β)

/-- The writer of `r` with this lifetime has passed validation. -/
def State.Validated (s : State ρ α) (t b e : Nat) (r : ρ) : Prop :=
  (∃ x, s.txn t = some x ∧ x.validated = true ∧ x.status = .preparing e ∧ x.beginTs = b ∧
      r ∈ x.writes) ∨
    ∃ h, s.history t = some h ∧ h.beginTs = b ∧ h.endTs = e ∧ r ∈ h.writes

variable {s : State ρ α} {r : ρ}

theorem State.Validated.endOf (h : s.Validated t b e r) : s.EndOf t e := by
  rcases h with ⟨x, hx, -, he, -⟩ | ⟨h, hh, -, he, -⟩
  · exact .inl ⟨x, hx, .inl he⟩
  · exact .inr ⟨h, hh, he⟩

theorem Timely.endOf_eq (ht : Timely s) (he : s.EndOf t e) (hf : s.EndOf t f) : e = f := by
  have hrec : ∀ g, s.EndOf t g → ∀ h, s.history t = some h → h.endTs = g := by
    rintro g (⟨x, hx, hg⟩ | ⟨k, hk, hg⟩) h hh
    · have hst := ht.history_committed t x h hx hh
      rcases hg with hg | hg <;> rw [hst] at hg <;> cases hg
      rfl
    · rw [hh, some.injEq] at hk
      exact hk ▸ hg
  rcases he with ⟨x, hx, he'⟩ | ⟨h, hh, he⟩
  · rcases hf with ⟨y, hy, hf⟩ | ⟨h, hh, hf⟩
    · rw [hx, some.injEq] at hy
      subst hy
      rcases he' with he' | he' <;> rcases hf with hf | hf <;> rw [he'] at hf <;> cases hf <;> rfl
    · exact (hrec e (.inl ⟨x, hx, he'⟩) h hh).symm.trans hf
  · exact he.symm.trans (hrec f hf h hh)

theorem State.Admits.compatible (h : s.Admits t b e v) (ht : Timely s) (hte : s.EndOf t e) :
    s.Compatible b e v := by
  unfold State.Admits at h
  have hlater : ∀ o y, s.txn o = some y →
      (y.status = .active ∨ y.status = .aborted ∨ ∃ f, y.status = .preparing f ∧ e < f) →
      s.NotBefore e (.tx o) := by
    rintro o y hy (hst | hst | ⟨f, hst, hlt⟩)
    · exact .inr ⟨y, hy, .inl hst⟩
    · exact .inr ⟨y, hy, .inr (.inl hst)⟩
    · exact .inr ⟨y, hy, .inr (.inr ⟨f, .inl hst, hlt⟩)⟩
  split at h
  next hborn hdied =>
    refine .inr (.inr ⟨hborn, fun β hβ => ?_⟩)
    rw [hdied] at hβ
    cases hβ
  next d hborn hdied =>
    exact .inr (.inl ⟨.ts d, d, hdied, .inl ⟨rfl, h⟩⟩)
  next o hborn hdied =>
    refine .inr (.inr ⟨hborn, fun β hβ => ?_⟩)
    rw [hdied, some.injEq] at hβ
    subst hβ
    rcases h with rfl | ⟨y, hy, hst⟩
    · exact .inl hte
    · exact hlater o y hy hst
  next γ d hborn hdied =>
    exact .inr (.inl ⟨.ts d, d, hdied, .inl ⟨rfl, h⟩⟩)
  next γ hborn _ =>
    rcases h with hd | ⟨o, y, f, hd, hy, hst, hlt⟩ | rfl | ⟨o, y, rfl, hy, hst⟩
    · exact .inr (.inl ⟨.tx t, e, hd, .inr ⟨hte, rfl⟩⟩)
    · exact .inr (.inl ⟨.tx o, f, hd,
        .inl ⟨⟨_, ht.committed_history o y f hy hst, rfl⟩, hlt⟩⟩)
    · exact .inl ⟨.tx t, hborn, .inl hte⟩
    · exact .inl ⟨.tx o, hborn, hlater o y hy hst⟩

theorem State.FixedAt.endsAt (h : s.FixedAt β f) : s.EndsAt β f := by
  cases β with
  | ts g => exact h
  | tx o => exact .inr h

section

variable (ht : Timely s)

include ht

theorem State.FixedAt.stamp (hy : s.txn u = some y) (hst : y.status = .committed g)
    (h : s.FixedAt β f) : ∃ β', stampBound u g (some β) = some β' ∧ s.FixedAt β' f := by
  unfold stampBound
  split
  next heq =>
    cases heq
    obtain ⟨k, hk, hkf⟩ := h
    rw [ht.committed_history u y g hy hst, some.injEq] at hk
    subst hk
    exact ⟨.ts g, rfl, hkf⟩
  · exact ⟨β, rfl, h⟩

theorem State.EndsAt.stamp (hy : s.txn u = some y) (hst : y.status = .committed g)
    (h : s.EndsAt β f) : ∃ β', stampBound u g (some β) = some β' ∧ s.EndsAt β' f := by
  unfold stampBound
  split
  next heq =>
    cases heq
    exact ⟨.ts g, rfl, ht.endOf_eq (.inl ⟨y, hy, .inr hst⟩) h⟩
  · exact ⟨β, rfl, h⟩

theorem State.NotBefore.stamp (hy : s.txn u = some y) (hst : y.status = .committed g)
    (h : s.NotBefore e β) : ∃ β', stampBound u g (some β) = some β' ∧ s.NotBefore e β' := by
  unfold stampBound
  split
  next heq =>
    cases heq
    refine ⟨.ts g, rfl, ?_⟩
    have hend : s.EndOf u g := .inl ⟨y, hy, .inr hst⟩
    rcases h with hend' | ⟨z, hz, hfate⟩
    · exact (ht.endOf_eq hend' hend).le
    · rw [hy, some.injEq] at hz
      subst hz
      rw [hst] at hfate
      rcases hfate with hf | hf | ⟨f, hf | hf, hlt⟩ <;> cases hf
      exact hlt.le
  · exact ⟨β, rfl, h⟩

end

theorem State.Compatible.stamp (h : s.Compatible b e v) (ht : Timely s) (hy : s.txn u = some y)
    (hst : y.status = .committed g) : s.Compatible b e (v.stamp u g) := by
  rcases h with ⟨β, hβ, hnot⟩ | ⟨β, f, hβ, hends⟩ | ⟨hborn, hdied⟩
  · obtain ⟨β', heq, hnot'⟩ := hnot.stamp ht hy hst
    exact .inl ⟨β', (congrArg (stampBound u g) hβ).trans heq, hnot'⟩
  · refine .inr (.inl ?_)
    rcases hends with ⟨hfixed, hlt⟩ | ⟨hends, hfe⟩
    · obtain ⟨β', heq, hfixed'⟩ := hfixed.stamp ht hy hst
      exact ⟨β', f, (congrArg (stampBound u g) hβ).trans heq, .inl ⟨hfixed', hlt⟩⟩
    · obtain ⟨β', heq, hends'⟩ := hends.stamp ht hy hst
      exact ⟨β', f, (congrArg (stampBound u g) hβ).trans heq, .inr ⟨hends', hfe⟩⟩
  · refine .inr (.inr ⟨?_, ?_⟩)
    · exact (congrArg (stampBound u g) hborn).trans (if_neg nofun)
    · intro β' hβ'
      cases hd : v.died with
      | none =>
        have hnone : (v.stamp u g).died = none :=
          (congrArg (stampBound u g) hd).trans (if_neg nofun)
        rw [hnone] at hβ'
        cases hβ'
      | some β =>
        obtain ⟨γ, heq, hnot⟩ := (hdied β hd).stamp ht hy hst
        have hγ : (v.stamp u g).died = some γ := (congrArg (stampBound u g) hd).trans heq
        rw [hβ', some.injEq] at hγ
        exact hγ ▸ hnot

section

variable (ht : Timely s) (hy : s.txn t = some y) (hst : y.status = .active ∨ y.status = .aborted)

include ht hy hst

theorem Timely.not_endOf (f : Nat) : ¬ s.EndOf t f := by
  rintro (⟨z, hz, hf⟩ | ⟨k, hk, -⟩)
  · rw [hy, some.injEq] at hz
    subst hz
    rcases hst with hst | hst <;> rw [hst] at hf <;> simp at hf
  · rw [ht.history_committed t y k hy hk] at hst
    simp at hst

theorem Timely.not_ends (h : s.FixedAt (.tx t) f ∧ f < b ∨ s.EndsAt (.tx t) f ∧ f = e) : False := by
  rcases h with ⟨hf, -⟩ | ⟨hf, -⟩
  · exact ht.not_endOf hy hst f (FixedAt.endsAt hf)
  · exact ht.not_endOf hy hst f hf

end

theorem State.Compatible.wipe (h : s.Compatible b e v) (ht : Timely s) (hy : s.txn u = some y)
    (hst : y.status = .aborted) : s.Compatible b e (v.wipe u) := by
  unfold Version.wipe
  split
  · exact .inr (.inr ⟨rfl, nofun⟩)
  split
  next hborn hdied =>
    rcases h with hb | ⟨β, f, hβ, hends⟩ | ⟨hb, -⟩
    · exact .inl hb
    · rw [hdied, some.injEq] at hβ
      subst hβ
      exact absurd hends (ht.not_ends hy (.inr hst))
    · exact .inr (.inr ⟨hb, nofun⟩)
  · exact h

end

section

variable [DecidableEq ρ] {clash : ρ → ρ → Prop} {tracked : ρ → Prop} {s s' : State ρ α}
  {ev : Event ρ α}

omit [DecidableEq ρ] in
theorem State.SeesBirth.born_ne (h : s.SeesBirth t b v) : v.born ≠ none := by
  rcases h with ⟨c, hb, -⟩ | hb | ⟨d, y, e, hb, -⟩ <;> exact hb ▸ some_ne_none _

def Admitted (clash : ρ → ρ → Prop) (s : State ρ α) : Prop :=
  ∀ t b e r r', s.Validated t b e r → clash r r' → ∀ v ∈ s.chain r', s.Compatible b e v

theorem Step.validated_cases (hs : Step clash tracked s ev s') (ht : Timely s) {r : ρ}
    (h : s'.Validated t b e r) :
    s.Validated t b e r ∨ (ev = .validate t ∧ s'.chain = s.chain ∧
      ∃ x, s.txn t = some x ∧ x.status = .preparing e ∧ x.beginTs = b ∧ r ∈ x.writes ∧
        ∀ r', clash r r' → ∀ v ∈ s.chain r', s.Admits t b e v) := by
  rcases h with ⟨x', hx', hvalid, he, hb, hr⟩ | ⟨k, hk, hb, he, hr⟩
  · rcases hs.txn_cases hx' with ⟨-, rfl, -⟩ | ⟨x, hx, hchange⟩
    · cases he
    · have hwrites := hchange.writes_eq (.inr (by rw [he]; exact Status.noConfusion))
      rw [hwrites] at hr
      rw [hchange.beginTs] at hb
      rcases hchange.validated with heq | ⟨-, rfl⟩ | ⟨heq, -⟩
      · rw [hvalid] at heq
        rcases hchange.preparing he with hst | ⟨-, hactive, -⟩
        · exact .inl (.inl ⟨x, hx, heq.symm, hst, hb, hr⟩)
        · rw [ht.unvalidated t x hx hactive] at heq
          cases heq
      · refine .inr ⟨rfl, ?_⟩
        cases hs with
        | @validate _ f y hy hf hadmits =>
          rw [hx, some.injEq] at hy
          subst hy
          simp only [Function.update_self, some.injEq] at hx'
          subst hx'
          rw [hf, Status.preparing.injEq] at he
          subst he hb
          exact ⟨rfl, x, hx, hf, rfl, hr, hadmits r hr⟩
      · rw [hvalid] at heq
        cases heq
  · rcases hs.history_cases t with heq | ⟨x, f, -, hx, hf, hvalid, -, -, -, heq⟩
    · exact .inl (.inr ⟨k, heq ▸ hk, hb, he, hr⟩)
    · rw [heq, some.injEq] at hk
      subst hk
      exact .inl (.inl ⟨x, hx, hvalid, he ▸ hf, hb, hr⟩)

theorem Step.fixedAt (hs : Step clash tracked s ev s') (ht : Timely s) (h : s.FixedAt β f) :
    s'.FixedAt β f := by
  cases β with
  | ts g => exact h
  | tx o =>
    obtain ⟨k, hk, hkf⟩ := h
    exact ⟨k, hs.history_mono ht hk, hkf⟩

omit [DecidableEq ρ] in
theorem TxnChange.notBefore {o : Nat} {y' : Txn ρ} (h : TxnChange s ev o y y')
    (hy' : s'.txn o = some y') (hlt : e < s.clock)
    (hfate : y.status = .active ∨ y.status = .aborted ∨
      ∃ f, (y.status = .preparing f ∨ y.status = .committed f) ∧ e ≤ f) :
    s'.NotBefore e (.tx o) := by
  have hlate : ∀ f, y'.status = .preparing f ∨ y'.status = .committed f → e ≤ f →
      s'.NotBefore e (.tx o) := by
    intro f hst hle
    rcases hle.eq_or_lt with rfl | hlt
    · exact .inl (.inl ⟨y', hy', hst⟩)
    · exact .inr ⟨y', hy', .inr (.inr ⟨f, hst, hlt⟩)⟩
  rcases hfate with hst | hst | ⟨f, hst | hst, hle⟩
  · rcases h.of_active hst with hst' | ⟨-, hst'⟩ | hst'
    · exact .inr ⟨y', hy', .inl hst'⟩
    · exact hlate s.clock (.inl hst') hlt.le
    · exact .inr ⟨y', hy', .inr (.inl hst')⟩
  · exact .inr ⟨y', hy', .inr (.inl (h.of_aborted hst))⟩
  · rcases h.of_preparing hst with hst' | hst' | hst'
    · exact hlate f (.inl hst') hle
    · exact hlate f (.inr hst') hle
    · exact .inr ⟨y', hy', .inr (.inl hst')⟩
  · exact hlate f (.inr (h.of_committed hst)) hle

/-- A bound that is not before `e` does not come before it, while some version has it. -/
theorem Step.notBefore (hs : Step clash tracked s ev s') (ht : Timely s) (hlt : e < s.clock)
    (hmark : ∀ o, β = .tx o → ∃ r, ∃ v ∈ s.chain r, v.Mentions o) (h : s.NotBefore e β) :
    s'.NotBefore e β := by
  cases β with
  | ts g => exact h
  | tx o =>
    obtain ⟨r, v, hv, hm⟩ := hmark o rfl
    have hkeep : ∀ y, s.txn o = some y →
        (y.status = .active ∨ y.status = .aborted ∨
          ∃ f, (y.status = .preparing f ∨ y.status = .committed f) ∧ e ≤ f) →
        s'.NotBefore e (.tx o) := by
      intro y hy hfate
      rcases hs.txn_forward ht.fresh hy with ⟨y', hy', hchange⟩ | ⟨-, -, -, -, -, hgone⟩
      · exact hchange.notBefore hy' hlt hfate
      · exact absurd hm (hgone r v hv)
    rcases h with (⟨y, hy, hst⟩ | ⟨k, hk, hke⟩) | ⟨y, hy, hst | hst | ⟨f, hst, hlt'⟩⟩
    · exact hkeep y hy (.inr (.inr ⟨e, hst, le_rfl⟩))
    · exact .inl (.inr ⟨k, hs.history_mono ht hk, hke⟩)
    · exact hkeep y hy (.inl hst)
    · exact hkeep y hy (.inr (.inl hst))
    · exact hkeep y hy (.inr (.inr ⟨f, hst, hlt'.le⟩))

theorem Step.compatible (hs : Step clash tracked s ev s') (ht : Timely s) (hu : Distinct s)
    (hend : s.EndOf t e) (hend' : s'.EndOf t e)
    (hmark : ∀ o, v.Mentions o → ∃ r, ∃ u ∈ s.chain r, u.Mentions o) (h : s.Compatible b e v) :
    s'.Compatible b e v := by
  have hlt := (ht.endOf_lt hend).2.2
  rcases h with ⟨β, hβ, hnot⟩ | ⟨β, f, hβ, hends⟩ | ⟨hborn, hdied⟩
  · refine .inl ⟨β, hβ, hs.notBefore ht hlt ?_ hnot⟩
    rintro o rfl
    exact hmark o (.inl hβ)
  · refine .inr (.inl ⟨β, f, hβ, ?_⟩)
    rcases hends with ⟨hfixed, hlt⟩ | ⟨hends, rfl⟩
    · exact .inl ⟨hs.fixedAt ht hfixed, hlt⟩
    · cases β with
      | ts g => exact .inr ⟨hends, rfl⟩
      | tx o =>
        obtain rfl := hu.end_unique o t f hends hend
        exact .inr ⟨hend', rfl⟩
  · refine .inr (.inr ⟨hborn, fun β hβ => hs.notBefore ht hlt ?_ (hdied β hβ)⟩)
    rintro o rfl
    exact hmark o (.inr hβ)

theorem Admitted.step (h : Admitted clash s) (ht : Timely s) (hu : Distinct s)
    (hs : Step clash tracked s ev s') : Admitted clash s' := by
  intro t b e r r' hvalid hclash v' hv'
  have hold : s.EndOf t e ∧ ∀ v ∈ s.chain r', s.Compatible b e v := by
    rcases hs.validated_cases ht hvalid with hvalid | ⟨-, -, x, hx, he, -, -, hadmits⟩
    · exact ⟨hvalid.endOf, h t b e r r' hvalid hclash⟩
    · have hend : s.EndOf t e := .inl ⟨x, hx, .inl he⟩
      exact ⟨hend, fun v hv => (hadmits r' hclash v hv).compatible ht hend⟩
  obtain ⟨hend, hcomp⟩ := hold
  have hlt := (ht.endOf_lt hend).2.2
  have hmono : ∀ {v : Version α}, (∀ o, v.Mentions o → ∃ r, ∃ u ∈ s.chain r, u.Mentions o) →
      s.Compatible b e v → s'.Compatible b e v := fun hmark hcomp =>
    hs.compatible ht hu hend hvalid.endOf hmark hcomp
  have hbound : ∀ v ∈ s.chain r', ∀ γ, v.born = some γ → s.NotBefore e γ → s'.NotBefore e γ := by
    intro v hv γ hγ hnot
    refine hs.notBefore ht hlt ?_ hnot
    rintro o rfl
    exact ⟨r', v, hv, .inl hγ⟩
  cases hs.chain_cases hv' with
  | kept hv => exact hmono (fun o hm => ⟨r', v', hv, hm⟩) (hcomp v' hv)
  | @installed u x x' hx hactive hx' hr hid hmark =>
    have hnot : s'.NotBefore e (.tx u) := by
      exact (hs.changed ht.fresh hx hx').notBefore hx' hlt (.inl hactive)
    rcases hmark with ⟨hborn, -⟩ | ⟨hborn, hdied⟩
    · exact .inl ⟨.tx u, hborn, hnot⟩
    · refine .inr (.inr ⟨hborn, fun β hβ => ?_⟩)
      rw [hdied, some.injEq] at hβ
      exact hβ ▸ hnot
  | @superseded u x x' v hv hx hactive hx' hr hfree hsees heq =>
    subst heq
    rcases hcomp v hv with ⟨γ, hγ, hnot⟩ | ⟨γ, f, hγ, hends⟩ | ⟨hborn, -⟩
    · exact .inl ⟨γ, hγ, hbound v hv γ hγ hnot⟩
    · rcases hfree with hn | ⟨a, y, hn, hy, haborted⟩ <;> rw [hn] at hγ <;> cases hγ
      exact absurd hends (ht.not_ends hy (.inr haborted))
    · exact absurd hborn hsees.born_ne
  | @restored u x v hev hv hx hactive hdied heq =>
    subst heq
    rcases hcomp v hv with ⟨γ, hγ, hnot⟩ | ⟨γ, f, hγ, hends⟩ | ⟨hborn, -⟩
    · exact .inl ⟨γ, hγ, hbound v hv γ hγ hnot⟩
    · rw [hdied] at hγ
      cases hγ
      exact absurd hends (ht.not_ends hx (.inl hactive))
    · exact .inr (.inr ⟨hborn, nofun⟩)
  | @stamped u g y v hv hy hst heq =>
    subst heq
    exact hmono (fun o hm => ⟨r', v, hv, mentions_stamp hm⟩) ((hcomp v hv).stamp ht hy hst)
  | @wiped u y v hv hy haborted hdrained heq =>
    subst heq
    exact hmono (fun o hm => ⟨r', v, hv, mentions_wipe hm⟩) ((hcomp v hv).wipe ht hy haborted)

end

end MultiVersion
