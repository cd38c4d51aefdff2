import PgMicro.MultiVersion.Validation

/-!
# First committer wins

Of two writers of one tracked row whose lifetimes overlap, at most one commits.
-/

namespace MultiVersion

open State Version Option

variable {ρ α : Type} {β : Stamp} {f t e g : Nat} {r : ρ}

section

variable {s : State ρ α} {b : Nat} {v : Version α}

theorem Timely.beginOf_eq (ht : Timely s) {c : Nat} (hb : s.BeginOf t b) (hc : s.BeginOf t c) :
    b = c := by
  have hrec : ∀ x h, s.txn t = some x → s.history t = some h → h.beginTs = x.beginTs := by
    intro x h hx hh
    rw [ht.committed_history t x _ hx (ht.history_committed t x h hx hh), some.injEq] at hh
    exact hh ▸ rfl
  rcases hb with ⟨x, hx, rfl⟩ | ⟨h, hh, rfl⟩ <;> rcases hc with ⟨y, hy, rfl⟩ | ⟨k, hk, rfl⟩
  · rw [hx, some.injEq] at hy
    rw [hy]
  · exact (hrec x k hx hk).symm
  · exact hrec y h hy hh
  · rw [hh, some.injEq] at hk
    rw [hk]

theorem State.NotBefore.cases (h : s.NotBefore e β) :
    (∃ g, s.EndsAt β g ∧ e ≤ g) ∨
      ∃ o y, β = .tx o ∧ s.txn o = some y ∧ (y.status = .active ∨ y.status = .aborted) := by
  cases β with
  | ts g => exact .inl ⟨g, rfl, h⟩
  | tx o =>
    rcases h with hend | ⟨y, hy, hst | hst | ⟨f, hst, hlt⟩⟩
    · exact .inl ⟨e, hend, le_rfl⟩
    · exact .inr ⟨o, y, rfl, hy, .inl hst⟩
    · exact .inr ⟨o, y, rfl, hy, .inr hst⟩
    · exact .inl ⟨f, .inl ⟨y, hy, hst⟩, hlt.le⟩

theorem Timely.endsAt_eq (ht : Timely s) (hf : s.EndsAt β f) (hg : s.EndsAt β g) : f = g := by
  cases β with
  | ts c => exact (hf : c = f).symm.trans hg
  | tx o => exact ht.endOf_eq hf hg

theorem State.NotBefore.le (h : s.NotBefore e β) (ht : Timely s) (hf : s.EndsAt β f) : e ≤ f := by
  rcases h.cases with ⟨g, hg, hle⟩ | ⟨o, y, rfl, hy, hst⟩
  · exact ht.endsAt_eq hf hg ▸ hle
  · exact absurd hf (ht.not_endOf hy hst f)

/-- A version is born before its end, and before the begin of the transaction that ended
it unless that one created it too. -/
theorem Seen.ends (h : Seen s) (ht : Timely s) (hu : Distinct s) (ho : Owned s) (hv : v ∈ s.chain r)
    {γ : Stamp} (hγ : v.born = some γ) (hβ : v.died = some β) (hg : s.EndsAt γ g)
    (hf : s.EndsAt β f) : g ≤ f ∧ ∀ t b, s.EndOf t f → s.BeginOf t b → g < b ∨ g = f := by
  suffices hwriter : (f ≤ s.seed ∧ g ≤ f) ∨
      ∃ u c, s.EndOf u f ∧ s.BeginOf u c ∧ (g < c ∨ g = f) by
    rcases hwriter with ⟨hseed, hle⟩ | ⟨u, c, hend, hbegin, hlt⟩
    · refine ⟨hle, fun t b hend _ => ?_⟩
      have hseed' := (ht.endOf_lt hend).2.1
      omega
    · have hcf := ht.begin_lt_end hbegin hend
      refine ⟨by omega, fun t b hend' hbegin' => ?_⟩
      obtain rfl := hu.end_unique u t f hend hend'
      exact ht.beginOf_eq hbegin hbegin' ▸ hlt
  cases β with
  | ts c =>
    obtain rfl : c = f := hf
    rcases ho.died r v hv c hβ with hseed | ⟨u, k, hk, hkc, -⟩
    · refine .inl ⟨hseed, ?_⟩
      rcases h.atSeed r v hv c hβ hseed with hn | ⟨a, ha, hle⟩
      · rw [hn] at hγ
        cases hγ
      · rw [ha, some.injEq] at hγ
        subst hγ
        exact (hg : a = g) ▸ hle
    · refine .inr ⟨u, k.beginTs, .inr ⟨k, hk, hkc⟩, .inr ⟨k, hk, rfl⟩, ?_⟩
      subst hkc
      rcases h.byRecord r v hv u k hk hβ with hn | ⟨a, ha, hlt⟩ | ⟨d, y, a, ha, hy, hst, hlt⟩
      · rw [hn] at hγ
        cases hγ
      · rw [ha, some.injEq] at hγ
        subst hγ
        exact (hg : a = g) ▸ hlt
      · rw [ha, some.injEq] at hγ
        subst hγ
        exact .inl (ht.endOf_eq hg (.inl ⟨y, hy, .inr hst⟩) ▸ hlt)
  | tx u =>
    obtain ⟨x, hx, -⟩ := ho.mentions r v hv u (.inr hβ)
    refine .inr ⟨u, x.beginTs, hf, .inl ⟨x, hx, rfl⟩, ?_⟩
    rcases h.byTxn r v hv u x hx hβ with hn | ⟨a, ha, hlt⟩ | ha | ⟨d, y, ha, hy, hfate⟩
    · rw [hn] at hγ
      cases hγ
    · rw [ha, some.injEq] at hγ
      subst hγ
      exact .inl ((hg : a = g) ▸ hlt)
    · rw [ha, some.injEq] at hγ
      subst hγ
      exact .inr (ht.endOf_eq hg hf)
    · rw [ha, some.injEq] at hγ
      subst hγ
      rcases hfate with ⟨a, hlt, hst⟩ | ⟨hst, -⟩
      · have hend : s.EndOf d a := .inl ⟨y, hy, hst.imp And.left id⟩
        exact .inl (ht.endOf_eq hg hend ▸ hlt)
      · exact absurd hg (ht.not_endOf hy (.inr hst) g)

theorem State.Marked.ends (h : s.Marked t v) (ht : Timely s) (he : s.EndOf t e) :
    (∃ β, v.born = some β ∧ s.EndsAt β e) ∨ ∃ β, v.died = some β ∧ s.EndsAt β e := by
  rcases h with (hb | hb) | ⟨k, hk, hb | hb⟩
  · exact .inl ⟨.tx t, hb, he⟩
  · exact .inr ⟨.tx t, hb, he⟩
  · exact .inl ⟨.ts k.endTs, hb, ht.endOf_eq (.inr ⟨k, hk, rfl⟩) he⟩
  · exact .inr ⟨.ts k.endTs, hb, ht.endOf_eq (.inr ⟨k, hk, rfl⟩) he⟩

theorem State.Compatible.not_marked (h : s.Compatible b e v) (hseen : Seen s) (ht : Timely s)
    (hu : Distinct s) (ho : Owned s) (hd : Dependable s) (hv : v ∈ s.chain r)
    (hbegin : s.BeginOf t b) (hend : s.EndOf t e) {t1 e1 : Nat} (hviable : s.Viable t1)
    (hend1 : s.EndOf t1 e1) (hlo : b < e1) (hhi : e1 < e) : ¬ s.Marked t1 v := by
  intro hm
  rcases h with ⟨β, hβ, hnot⟩ | ⟨β, f, hβ, hends⟩ | ⟨hborn, hdied⟩
  · rcases hm.ends ht hend1 with ⟨γ, hγ, hγe⟩ | ⟨γ, hγ, hγe⟩
    · rw [hβ, some.injEq] at hγ
      subst hγ
      have hle := hnot.le ht hγe
      omega
    · rcases hnot.cases with ⟨g, hg, hle⟩ | ⟨o, y, rfl, hy, hst⟩
      · have hge := (hseen.ends ht hu ho hv hβ hγ hg hγe).1
        omega
      · have hne : t1 ≠ o := by
          rintro rfl
          exact ht.not_endOf hy hst e1 hend1
        exact hseen.not_marked ht ho hd hv hviable hy hst hne hβ hm
  · have hf : s.EndsAt β f := hends.elim (fun h => h.1.endsAt) And.left
    rcases hm.ends ht hend1 with ⟨γ, hγ, hγe⟩ | ⟨γ, hγ, hγe⟩
    · obtain ⟨hle, hlt⟩ := hseen.ends ht hu ho hv hγ hβ hγe hf
      rcases hends with ⟨-, hfb⟩ | ⟨-, rfl⟩
      · omega
      · rcases hlt t b hend hbegin with hlt | heq <;> omega
    · rw [hβ, some.injEq] at hγ
      subst hγ
      have hfe := ht.endsAt_eq hf hγe
      rcases hends with ⟨-, hfb⟩ | ⟨-, rfl⟩ <;> omega
  · rcases hm.ends ht hend1 with ⟨γ, hγ, hγe⟩ | ⟨γ, hγ, hγe⟩
    · rw [hborn] at hγ
      cases hγ
    · have hle := (hdied γ hγ).le ht hγe
      omega

end

/-- The writer of `r` ends, or would end, at `e`. -/
def State.Ended (s : State ρ α) (t e : Nat) (r : ρ) : Prop :=
  (∃ x, s.txn t = some x ∧ x.status = .preparing e ∧ r ∈ x.writes) ∨
    ∃ h, s.history t = some h ∧ h.endTs = e ∧ r ∈ h.writes

def FirstCommitter (clash : ρ → ρ → Prop) (tracked : ρ → Prop) (s : State ρ α) : Prop :=
  ∀ t1 t2 b2 e1 e2 r, tracked r → clash r r → s.Validated t2 b2 e2 r → s.Ended t1 e1 r →
    b2 < e1 → e1 < e2 →
    ∃ x, s.txn t1 = some x ∧ x.status = .preparing e1 ∧ s.Doomed t1 x

section

variable [DecidableEq ρ] {clash : ρ → ρ → Prop} {tracked : ρ → Prop} {s s' : State ρ α}
  {ev : Event ρ α}

omit [DecidableEq ρ] in
theorem State.Ended.endOf (h : s.Ended t e r) : s.EndOf t e := by
  rcases h with ⟨x, hx, he, -⟩ | ⟨h, hh, he, -⟩
  · exact .inl ⟨x, hx, .inl he⟩
  · exact .inr ⟨h, hh, he⟩

theorem Step.ended_cases (hs : Step clash tracked s ev s') (h : s'.Ended t e r) :
    s.Ended t e r ∨ e = s.clock := by
  rcases h with ⟨x', hx', he, hr⟩ | ⟨k, hk, he, hr⟩
  · rcases hs.txn_cases hx' with ⟨-, rfl, -⟩ | ⟨x, hx, hchange⟩
    · cases he
    · have hwrites := hchange.writes_eq (.inr (by rw [he]; exact Status.noConfusion))
      rcases hchange.preparing he with hst | ⟨-, -, heq⟩
      · exact .inl (.inl ⟨x, hx, hst, hwrites ▸ hr⟩)
      · exact .inr heq
  · rcases hs.history_cases t with heq | ⟨x, f, -, hx, hf, -, -, -, -, heq⟩
    · exact .inl (.inr ⟨k, heq ▸ hk, he, hr⟩)
    · rw [heq, some.injEq] at hk
      subst hk
      exact .inl (.inl ⟨x, hx, he ▸ hf, hr⟩)

theorem Step.ended_doomed (hs : Step clash tracked s ev s') (ht : Timely s) (hd : Dependable s)
    {x : Txn ρ} (h : s'.Ended t e r) (hx : s.txn t = some x) (hst : x.status = .preparing e)
    (hdoom : s.Doomed t x) :
    ∃ x', s'.txn t = some x' ∧ x'.status = .preparing e ∧ s'.Doomed t x' := by
  rcases h with ⟨x', hx', he, -⟩ | ⟨k, hk, -⟩
  · exact ⟨x', hx', he, hs.doomed_mono ht hd hx' (hs.changed ht.fresh hx hx') hdoom⟩
  rcases hs.history_cases t with heq | ⟨y, f, -, hy, -, -, habort, hpending, -⟩
  · rw [ht.history_committed t x k hx (heq ▸ hk)] at hst
    cases hst
  · rw [hx, some.injEq] at hy
    subst hy
    exact absurd hdoom (hd.not_doomed ht hx habort hpending)

theorem FirstCommitter.step (h : FirstCommitter clash tracked s) (hpresent : Present tracked s)
    (hseen : Seen s) (ht : Timely s) (hu : Distinct s) (ho : Owned s) (hd : Dependable s)
    (hs : Step clash tracked s ev s') : FirstCommitter clash tracked s' := by
  intro t1 t2 b2 e1 e2 r htracked hclash hvalid hended hlo hhi
  have hend2 : s.EndOf t2 e2 := by
    rcases hs.validated_cases ht hvalid with hold | ⟨-, -, x, hx, he, -⟩
    · exact hold.endOf
    · exact .inl ⟨x, hx, .inl he⟩
  have hlt := ht.endOf_lt hend2
  have hended0 : s.Ended t1 e1 r := (hs.ended_cases hended).resolve_right (by omega)
  suffices hdoom : ∃ x, s.txn t1 = some x ∧ x.status = .preparing e1 ∧ s.Doomed t1 x by
    obtain ⟨x, hx, hst, hdoom⟩ := hdoom
    exact hs.ended_doomed ht hd hended hx hst hdoom
  rcases hs.validated_cases ht hvalid with hold | ⟨-, -, y, hy, he2, rfl, hr, hadmits⟩
  · exact h t1 t2 b2 e1 e2 r htracked hclash hold hended0 hlo hhi
  -- `t2` validates in this step, against the mark that `t1` would have left
  have hmark : s.Viable t1 → (∃ v ∈ s.chain r, s.Marked t1 v) → False := by
    rintro hviable ⟨v, hv, hm⟩
    exact ((hadmits r hclash v hv).compatible ht hend2).not_marked hseen ht hu ho hd hv
      (.inl ⟨y, hy, rfl⟩) hend2 hviable hended0.endOf hlo hhi hm
  rcases hended0 with ⟨x, hx, he1, hr1⟩ | ⟨k, hk, rfl, hr1⟩
  · have hst : x.status ≠ .aborted := by
      rw [he1]
      exact Status.noConfusion
    by_contra hno
    have hdoom : ¬ s.Doomed t1 x := fun hdoom => hno ⟨x, hx, he1, hdoom⟩
    exact hmark (.inr ⟨x, hx, hst, hdoom⟩) (hpresent.live t1 x r hx hr1 htracked hst hdoom)
  · exact (hmark (.inl ⟨k, hk⟩) (hpresent.past t1 k r hk hr1 htracked ⟨t2, y, hy, hlo⟩)).elim

end

end MultiVersion
