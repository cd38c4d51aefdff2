import PgMicro.MultiVersion.Reliance

/-!
# Marks of writers

A writer that can still commit leaves a mark in each tracked row it wrote.
-/

namespace MultiVersion

open State Version

variable {ρ α : Type} {x x' : Txn ρ} {e ts t : Nat} {r : ρ} {s : State ρ α} {v : Version α}

def State.Marked (s : State ρ α) (t : Nat) (v : Version α) : Prop :=
  v.Mentions t ∨ ∃ h, s.history t = some h ∧ (v.BornAt h.endTs ∨ v.DiedAt h.endTs)

def State.Viable (s : State ρ α) (t : Nat) : Prop :=
  (∃ h, s.history t = some h) ∨ ∃ x, s.txn t = some x ∧ x.status ≠ .aborted ∧ ¬ s.Doomed t x

structure Present (tracked : ρ → Prop) (s : State ρ α) : Prop where
  live : ∀ t x r, s.txn t = some x → r ∈ x.writes → tracked r → x.status ≠ .aborted →
    ¬ s.Doomed t x → ∃ v ∈ s.chain r, s.Marked t v
  past : ∀ t h r, s.history t = some h → r ∈ h.writes → tracked r →
    (∃ u y, s.txn u = some y ∧ y.beginTs < h.endTs) → ∃ v ∈ s.chain r, s.Marked t v

section

variable {v' : Version α}

theorem Dependable.not_doomed (hd : Dependable s) (ht : Timely s) (hx : s.txn t = some x)
    (habort : x.abortNow = false) (hpending : x.pending = 0) : ¬ s.Doomed t x := by
  rintro (h | ⟨d, y, hy, -, hmem⟩)
  · rw [habort] at h
    cases h
  · have hempty : s.waitsOn t = ∅ := by
      rw [← Set.ncard_eq_zero (Dependable.finite_waitsOn ht t), ← hd.pending t x hx, hpending]
    have hwait : d ∈ s.waitsOn t := ⟨y, hy, hmem⟩
    rw [hempty] at hwait
    exact hwait

theorem State.Viable.not_aborted (hv : s.Viable t) (ht : Timely s) (hd : Dependable s)
    (hx : s.txn t = some x) : x.status ≠ .aborted ∧ ¬ s.Doomed t x := by
  rcases hv with ⟨h, hh⟩ | ⟨y, hy, hst, hnot⟩
  · have hst := ht.history_committed t x h hx hh
    obtain ⟨hempty, habort⟩ := hd.settled t x _ hx hst
    refine ⟨by rw [hst]; exact Status.noConfusion, hd.not_doomed ht hx habort ?_⟩
    rw [hd.pending t x hx, hempty, Set.ncard_empty]
  · rw [hx, Option.some.injEq] at hy
    subst hy
    exact ⟨hst, hnot⟩

theorem State.Marked.of_born (h : s.Marked t v) (hdied : ¬ v.DiedBy t)
    (hdiedAt : ∀ ts, ¬ v.DiedAt ts) (heq : v'.born = v.born) : s.Marked t v' := by
  rcases h with (hb | hb) | ⟨k, hk, hb | hb⟩
  · exact .inl (.inl (heq.trans hb))
  · exact absurd hb hdied
  · exact .inr ⟨k, hk, .inl (heq.trans hb)⟩
  · exact absurd hb (hdiedAt _)

variable {u : Nat}

theorem Version.stamp_diedAt (h : v.DiedAt ts) : (v.stamp u e).DiedAt ts := by
  simp only [DiedAt, stamp, stampBound] at h ⊢
  rw [h]
  rfl

theorem Version.stamp_bornAt (h : v.BornAt ts) : (v.stamp u e).BornAt ts := by
  simp only [BornAt, stamp, stampBound] at h ⊢
  rw [h]
  rfl

theorem Version.stamp_diedBy_of_ne (h : v.DiedBy t) (hne : t ≠ u) : (v.stamp u e).DiedBy t := by
  simp only [DiedBy, stamp, stampBound] at h ⊢
  rw [h]
  exact if_neg fun heq => hne (by cases heq; rfl)

theorem Version.stamp_died (h : v.DiedBy t) : (v.stamp t e).DiedAt e := by
  exact if_pos h

variable {y : Txn ρ}

theorem State.Marked.stamp (h : s.Marked t v) (ht : Timely s) (hy : s.txn u = some y)
    (he : y.status = .committed e) : s.Marked t (v.stamp u e) := by
  rcases h with hm | ⟨k, hk, hb | hb⟩
  · by_cases htu : t = u
    · subst htu
      refine .inr ⟨_, ht.committed_history t y e hy he, ?_⟩
      exact hm.imp stamp_born stamp_died
    · refine .inl (hm.imp (fun hb => ?_) fun hb => stamp_diedBy_of_ne hb htu)
      exact (stamp_born_of_ne fun hu => htu (hb.inj hu)).trans hb
  · exact .inr ⟨k, hk, .inl (stamp_bornAt hb)⟩
  · exact .inr ⟨k, hk, .inr (stamp_diedAt hb)⟩

theorem Seen.not_marked (h : Seen s) (ht : Timely s) (ho : Owned s) (hd : Dependable s)
    (hv : v ∈ s.chain r) (hviable : s.Viable t) (hy : s.txn u = some y)
    (hst : y.status = .active ∨ y.status = .aborted) (hne : t ≠ u) (hborn : v.BornBy u) :
    ¬ s.Marked t v := by
  have hdecided : ∀ e, y.status ≠ .preparing e ∧ y.status ≠ .committed e := by
    intro e
    rcases hst with hst | hst <;> rw [hst] <;> exact ⟨Status.noConfusion, Status.noConfusion⟩
  rintro ((hb | hb) | ⟨k, hk, hb | hb⟩)
  · exact hne (hb.inj hborn)
  · obtain ⟨x, hx, -⟩ := ho.mentions r v hv t (.inr hb)
    rcases h.byTxn r v hv t x hx hb with hn | ⟨b, hn, -⟩ | hn | ⟨d, z, hn, hz, hfate⟩ <;>
      unfold BornBy at hborn <;> rw [hn] at hborn <;> cases hborn
    · exact hne rfl
    rw [hy, Option.some.injEq] at hz
    subst hz
    rcases hfate with ⟨e, -, ⟨he, -⟩ | he⟩ | ⟨he, hmem | habort⟩
    · exact (hdecided e).1 he
    · exact (hdecided e).2 he
    · exact (hviable.not_aborted ht hd hx).2 (.inr ⟨u, y, hy, he, hmem⟩)
    · exact (hviable.not_aborted ht hd hx).2 (.inl habort)
  · exact hborn.not_bornAt hb
  · rcases h.byRecord r v hv t k hk hb with hn | ⟨b, hn, -⟩ | ⟨d, z, e, hn, hz, he, -⟩ <;>
      unfold BornBy at hborn <;> rw [hn] at hborn <;> cases hborn
    rw [hy, Option.some.injEq] at hz
    exact (hdecided e).2 (hz ▸ he)

theorem Version.wipe_of_not_mentions (h : ¬ v.Mentions u) : v.wipe u = v := by
  have hborn : v.born ≠ some (.tx u) := fun hb => h (.inl hb)
  have hdied : v.died ≠ some (.tx u) := fun hb => h (.inr hb)
  simp [wipe, hborn, hdied]

theorem Version.wipe_born (h : ¬ v.BornBy u) : (v.wipe u).born = v.born := by
  have hborn : v.born ≠ some (.tx u) := h
  simp only [wipe, hborn, if_false]
  split <;> rfl

theorem State.Marked.wipe (hm : s.Marked t v) (h : Seen s) (ht : Timely s) (ho : Owned s)
    (hd : Dependable s) (hv : v ∈ s.chain r) (hviable : s.Viable t) (hy : s.txn u = some y)
    (haborted : y.status = .aborted) : s.Marked t (v.wipe u) := by
  have hne : t ≠ u := by
    rintro rfl
    exact (hviable.not_aborted ht hd hy).1 haborted
  have hborn : ¬ v.BornBy u := fun hborn =>
    h.not_marked ht ho hd hv hviable hy (.inr haborted) hne hborn hm
  by_cases hdied : v.DiedBy u
  · exact hm.of_born (fun hb => hne (hb.inj hdied)) (fun _ => hdied.not_diedAt) (wipe_born hborn)
  · rwa [wipe_of_not_mentions fun hm => hm.elim hborn hdied]

end

section

variable [DecidableEq ρ] {clash : ρ → ρ → Prop} {tracked : ρ → Prop} {s' : State ρ α}
  {ev : Event ρ α}

section

variable (hs : Step clash tracked s ev s')

include hs

theorem Step.marked_mono (ht : Timely s) (hm : s.Marked t v) : s'.Marked t v :=
  hm.imp id fun ⟨h, hh, hb⟩ => ⟨h, hs.history_mono ht hh, hb⟩

theorem Step.marked_forward (h : Seen s) (ht : Timely s) (ho : Owned s) (hd : Dependable s)
    (hv : v ∈ s.chain r) (hm : s.Marked t v) (hviable : s.Viable t) (hev : ev ≠ .undo t)
    (hbusy : ∃ u y, s'.txn u = some y) : ∃ v' ∈ s'.chain r, s'.Marked t v' := by
  suffices hmarked : ∃ v' ∈ s'.chain r, s.Marked t v' by
    obtain ⟨v', hv', hm'⟩ := hmarked
    exact ⟨v', hv', hs.marked_mono ht hm'⟩
  cases hs.chain_forward hv with
  | kept hv' => exact ⟨v, hv', hm⟩
  | @superseded u x hx hactive hfree hsees hv' =>
    refine ⟨_, hv', hm.of_born ?_ ?_ rfl⟩
    · intro hb
      rcases hfree with hn | ⟨a, y, hn, hy, haborted⟩
      · rw [DiedBy, hn] at hb
        cases hb
      · obtain rfl := hn.inj hb
        exact (hviable.not_aborted ht hd hy).1 haborted
    · intro ts hb
      rcases hfree with hn | ⟨a, y, hn, -, -⟩ <;> rw [DiedAt, hn] at hb <;> cases hb
  | @restored u x hundo hx hactive hdied hv' =>
    refine ⟨_, hv', hm.of_born (fun hb => ?_) (fun _ => hdied.not_diedAt) rfl⟩
    exact hev (hdied.inj hb ▸ hundo)
  | @dropped u x hundo hx hactive hown =>
    have hne : t ≠ u := by
      rintro rfl
      exact hev hundo
    rcases hown with hborn | ⟨hborn, hdied⟩
    · exact absurd hm (h.not_marked ht ho hd hv hviable hx (.inl hactive) hne hborn)
    rcases hm with (hb | hb) | ⟨k, -, hb | hb⟩
    · rw [BornBy, hborn] at hb
      cases hb
    · exact absurd (hb.inj hdied) hne
    · rw [BornAt, hborn] at hb
      cases hb
    · exact absurd hb hdied.not_diedAt
  | stamped hx he hv' => exact ⟨_, hv', hm.stamp ht hx he⟩
  | wiped hx haborted hdrained hv' =>
    exact ⟨_, hv', hm.wipe h ht ho hd hv hviable hx haborted⟩
  | collected hidle =>
    obtain ⟨u, y, hy⟩ := hbusy
    rw [hidle u] at hy
    cases hy

theorem Step.marked_of_new (hchange : TxnChange s ev t x x') (hr : r ∈ x'.writes)
    (hnew : r ∉ x.writes) : ∃ v ∈ s'.chain r, v.Mentions t := by
  cases hchange.writes with
  | same heq => exact absurd (heq ▸ hr) hnew
  | shrink _ _ _ hsub => exact absurd (hsub r hr) hnew
  | @grow q hwrite _ _ hmem =>
    obtain rfl : r = q := ((hmem r).1 hr).resolve_right hnew
    obtain ⟨v, rfl | rfl⟩ := hwrite
    · cases hs with
      | install hy hactive hchain hid hmark =>
        refine ⟨v, ?_, hmark.imp And.left And.right⟩
        simp [Function.update_self, List.mem_append, List.mem_cons, true_or, or_true]
    · cases hs with
      | supersede =>
        refine ⟨{ v with died := some (.tx t) }, ?_, .inr rfl⟩
        simp [Function.update_self, List.mem_append, List.mem_cons, true_or, or_true]

end

theorem Step.marked_of_undo {t : Nat} (hs : Step clash tracked s (.undo t) s')
    (hx' : s'.txn t = some x') (hr : r ∈ x'.writes) (htracked : tracked r) :
    (∃ v ∈ s'.chain r, v.Mentions t) ∨ s'.chain r = s.chain r := by
  cases hs with
  | undo hx hactive hchain hsub hgone hkept =>
    simp only [Function.update_self, Option.some.injEq] at hx'
    subst hx'
    exact hkept r hr htracked

theorem Present.step (h : Present tracked s) (hseen : Seen s) (ht : Timely s) (ho : Owned s)
    (hd : Dependable s) (hs : Step clash tracked s ev s') : Present tracked s' where
  live t x' r hx' hr htracked hst hdoom := by
    rcases hs.txn_cases hx' with ⟨-, rfl, -⟩ | ⟨x, hx, hchange⟩
    · cases hr
    by_cases hold : r ∈ x.writes
    · have hst' : x.status ≠ .aborted := fun hst' => hst (hchange.of_aborted hst')
      have hdoom' : ¬ s.Doomed t x := fun hdoom' => hdoom (hs.doomed_mono ht hd hx' hchange hdoom')
      obtain ⟨v, hv, hm⟩ := h.live t x r hx hold htracked hst' hdoom'
      by_cases hev : ev = .undo t
      · subst hev
        rcases hs.marked_of_undo hx' hr htracked with ⟨v', hv', hm'⟩ | hsame
        · exact ⟨v', hv', .inl hm'⟩
        · exact ⟨v, hsame ▸ hv, hs.marked_mono ht hm⟩
      · exact hs.marked_forward hseen ht ho hd hv hm (.inr ⟨x, hx, hst', hdoom'⟩) hev
          ⟨t, x', hx'⟩
    · obtain ⟨v, hv, hm⟩ := hs.marked_of_new hchange hr hold
      exact ⟨v, hv, .inl hm⟩
  past t k r hk hr htracked hoverlap := by
    obtain ⟨u, y', hy', hlt⟩ := hoverlap
    suffices hmark : (∃ v ∈ s.chain r, s.Marked t v) ∧ s.Viable t ∧ ev ≠ .undo t by
      obtain ⟨⟨v, hv, hm⟩, hviable, hev⟩ := hmark
      exact hs.marked_forward hseen ht ho hd hv hm hviable hev ⟨u, y', hy'⟩
    rcases hs.history_cases t with heq | ⟨x, e, hev, hx, he, -, habort, hpending, -, heq⟩
    · rw [heq] at hk
      refine ⟨h.past t k r hk hr htracked ⟨u, ?_⟩, .inl ⟨k, hk⟩, ?_⟩
      · rcases hs.txn_cases hy' with ⟨-, rfl, -⟩ | ⟨y, hy, hchange⟩
        · have hend := ht.history_lt t k hk
          simp only [Txn.fresh] at hlt
          omega
        · exact ⟨y, hy, hchange.beginTs ▸ hlt⟩
      · rintro rfl
        cases hs with
        | undo hx hactive =>
          rw [ht.history_committed t _ k hx hk] at hactive
          cases hactive
    · rw [heq, Option.some.injEq] at hk
      subst hk hev
      have hst : x.status ≠ .aborted := by
        rw [he]
        exact Status.noConfusion
      have hdoom := hd.not_doomed ht hx habort hpending
      exact ⟨h.live t x r hx hr htracked hst hdoom, .inr ⟨x, hx, hst, hdoom⟩, by simp⟩

end

end MultiVersion
