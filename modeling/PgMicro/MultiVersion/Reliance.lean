import PgMicro.MultiVersion.Dependency

/-!
# What a writer has seen

A transaction ends only versions it has seen: their creator committed before it began, is
itself, or is one whose fate it shares.
-/

namespace MultiVersion

open State Version Function Option

variable {ρ α : Type} {clash : ρ → ρ → Prop} {tracked : ρ → Prop} {s s' : State ρ α}
  {ev : Event ρ α} {v : Version α} {h : Record ρ} {t e u : Nat} {y x x' : Txn ρ} {r : ρ}

def State.Doomed (s : State ρ α) (t : Nat) (x : Txn ρ) : Prop :=
  x.abortNow = true ∨ ∃ d y, s.txn d = some y ∧ y.status = .aborted ∧ t ∈ y.dependents

/-- The creator of the version is decided before `t` began, or `t` shares its fate. -/
def State.SeenBy (s : State ρ α) (t : Nat) (x : Txn ρ) (v : Version α) : Prop :=
  v.born = none ∨ (∃ b, v.BornAt b ∧ b < x.beginTs) ∨ v.BornBy t ∨
    ∃ d y, v.BornBy d ∧ s.txn d = some y ∧
      ((∃ e, e < x.beginTs ∧
          (y.status = .preparing e ∧ t ∈ y.dependents ∨ y.status = .committed e)) ∨
        (y.status = .aborted ∧ (t ∈ y.dependents ∨ x.abortNow = true)))

def State.SeenAt (s : State ρ α) (h : Record ρ) (v : Version α) : Prop :=
  v.born = none ∨ (∃ b, v.BornAt b ∧ (b < h.beginTs ∨ b = h.endTs)) ∨
    ∃ d y e, v.BornBy d ∧ s.txn d = some y ∧ y.status = .committed e ∧ e < h.beginTs

structure Seen (s : State ρ α) : Prop where
  byTxn : ∀ r, ∀ v ∈ s.chain r, ∀ t x, s.txn t = some x → v.DiedBy t → s.SeenBy t x v
  byRecord : ∀ r, ∀ v ∈ s.chain r, ∀ t h, s.history t = some h → v.DiedAt h.endTs →
    s.SeenAt h v
  atSeed : ∀ r, ∀ v ∈ s.chain r, ∀ ts, v.DiedAt ts → ts ≤ s.seed →
    v.born = none ∨ ∃ b, v.BornAt b ∧ b ≤ ts

section

variable [DecidableEq ρ]

section

variable (hs : Step clash tracked s ev s')

include hs

theorem Step.dependents_stay (ht : Timely s) (hd : Dependable s) {d : Nat} (hy : s.txn d = some y)
    (hmem : t ∈ y.dependents) :
    (∃ y', s'.txn d = some y' ∧ t ∈ y'.dependents) ∨ (∃ e, y.status = .committed e) ∨
      (y.status = .aborted ∧ ∀ x', s'.txn t = some x' → x'.abortNow = true) := by
  cases hs.depStep ht with
  | frame hback hforth =>
    obtain ⟨y', hy', heq⟩ := hforth d y hy (List.ne_nil_of_mem hmem)
    exact .inl ⟨y', hy', heq ▸ hmem⟩
  | @depend u c e x z hx hactive hz he hlt hnew hmark htxn =>
    left
    by_cases hdu : d = u
    · subst hdu
      rw [hx, some.injEq] at hy
      refine ⟨{ x with pending := x.pending + 1, registered := c :: x.registered }, ?_, ?_⟩
      · rw [htxn, update_self]
      · exact hy ▸ hmem
    · by_cases hdc : d = c
      · subst hdc
        rw [hz, some.injEq] at hy
        refine ⟨{ z with dependents := u :: z.dependents }, ?_, ?_⟩
        · rw [htxn, update_of_ne hdu, update_self]
        · exact List.mem_cons_of_mem _ (hy ▸ hmem)
      · exact ⟨y, by rw [htxn, update_of_ne hdu, update_of_ne hdc, hy], hmem⟩
  | @settle c z aborted hz hended htxn =>
    by_cases hdc : d = c
    · subst hdc
      rw [hz, some.injEq] at hy
      subst hy
      cases aborted with
      | false => exact .inr (.inl hended)
      | true =>
        refine .inr (.inr ⟨hended, ?_⟩)
        intro x' hx'
        have htd : t ≠ d := by
          rintro rfl
          exact hd.irrefl t z hz hmem
        rw [htxn, settle_of_ne htd, map_eq_some_iff] at hx'
        obtain ⟨x, hx, rfl⟩ := hx'
        rw [if_pos hmem]
        exact Bool.or_true _
    · left
      refine ⟨_, by rw [htxn, settle_of_ne hdc, hy, map_some], ?_⟩
      split <;> exact hmem

theorem Step.doomed_mono (ht : Timely s) (hd : Dependable s) (hx' : s'.txn t = some x')
    (hchange : TxnChange s ev t x x') (h : s.Doomed t x) : s'.Doomed t x' := by
  rcases h with habort | ⟨d, y, hy, hst, hmem⟩
  · exact .inl (hchange.abortNow habort)
  · rcases hs.dependents_stay ht hd hy hmem with ⟨y', hy', hmem'⟩ | ⟨e, he⟩ | ⟨-, habort⟩
    · exact .inr ⟨d, y', hy', (hs.changed ht.fresh hy hy').of_aborted hst, hmem'⟩
    · rw [hst] at he
      cases he
    · exact .inl (habort x' hx')

theorem Step.seenBy_mono (ht : Timely s) (hd : Dependable s) (hv : v ∈ s.chain r)
    (hx' : s'.txn t = some x') (hchange : TxnChange s ev t x x')
    (h : s.SeenBy t x v) : s'.SeenBy t x' v := by
  rcases h with hborn | ⟨b, hborn, hlt⟩ | hborn | ⟨d, y, hborn, hy, hfate⟩
  · exact .inl hborn
  · exact .inr (.inl ⟨b, hborn, hchange.beginTs ▸ hlt⟩)
  · exact .inr (.inr (.inl hborn))
  · refine .inr (.inr (.inr ?_))
    rcases hs.txn_forward ht.fresh hy with ⟨y', hy', hchangey⟩ | ⟨-, -, -, -, -, hgone⟩
    · refine ⟨d, y', hborn, hy', ?_⟩
      rw [hchange.beginTs]
      rcases hfate with ⟨e, hlt, ⟨he, hmem⟩ | he⟩ | ⟨hst, hmem | habort⟩
      · rcases hs.dependents_stay ht hd hy hmem with ⟨z, hz, hmem'⟩ | ⟨f, hf⟩ | ⟨hf, -⟩
        · rw [hy', some.injEq] at hz
          subst hz
          rcases hchangey.of_preparing he with hst | hst | hst
          · exact .inl ⟨e, hlt, .inl ⟨hst, hmem'⟩⟩
          · exact .inl ⟨e, hlt, .inr hst⟩
          · exact .inr ⟨hst, .inl hmem'⟩
        · rw [he] at hf
          cases hf
        · rw [he] at hf
          cases hf
      · exact .inl ⟨e, hlt, .inr (hchangey.of_committed he)⟩
      · refine .inr ⟨hchangey.of_aborted hst, ?_⟩
        rcases hs.dependents_stay ht hd hy hmem with ⟨z, hz, hmem'⟩ | ⟨f, hf⟩ | ⟨-, habort⟩
        · rw [hy', some.injEq] at hz
          exact .inl (hz ▸ hmem')
        · rw [hst] at hf
          cases hf
        · exact .inr (habort x' hx')
      · exact .inr ⟨hchangey.of_aborted hst, .inr (hchange.abortNow habort)⟩
    · exact absurd (.inl hborn) (hgone r v hv)

theorem Step.seenAt_mono (ht : Timely s) (hv : v ∈ s.chain r)
    (hseen : s.SeenAt h v) : s'.SeenAt h v := by
  rcases hseen with hborn | hborn | ⟨d, y, e, hborn, hy, he, hlt⟩
  · exact .inl hborn
  · exact .inr (.inl hborn)
  · rcases hs.txn_forward ht.fresh hy with ⟨y', hy', hchange⟩ | ⟨-, -, -, -, -, hgone⟩
    · exact .inr (.inr ⟨d, y', e, hborn, hy', hchange.of_committed he, hlt⟩)
    · exact absurd (.inl hborn) (hgone r v hv)

end

end

section

theorem Version.diedBy_stamp (h : (v.stamp t e).DiedBy u) : v.DiedBy u ∧ u ≠ t := by
  simp only [DiedBy, stamp, stampBound] at h ⊢
  split at h
  · cases h
  · refine ⟨h, ?_⟩
    rintro rfl
    contradiction

theorem Version.stamp_born_of_ne (h : ¬ v.BornBy t) : (v.stamp t e).born = v.born := by
  exact if_neg h

theorem Version.stamp_born (h : v.BornBy t) : (v.stamp t e).BornAt e := by
  exact if_pos h

theorem Version.wipe_of_died {b : Stamp} (h : v.died = some b) {w : Version α}
    (hw : v = w.wipe t) : v = w := by
  subst hw
  unfold wipe at h ⊢
  split
  next hborn =>
    rw [if_pos hborn] at h
    cases h
  next hborn =>
    rw [if_neg hborn] at h
    split
    next hdied =>
      rw [if_pos hdied] at h
      cases h
    · rfl

end

section

variable {v' : Version α}

theorem State.SeenBy.congr (h : s.SeenBy t x v) (heq : v'.born = v.born) : s.SeenBy t x v' := by
  unfold State.SeenBy BornAt BornBy at *
  rwa [heq]

theorem State.SeenBy.stamp (h : s.SeenBy t x v) (hy : s.txn u = some y)
    (he : y.status = .committed e) (hne : t ≠ u) : s.SeenBy t x (v.stamp u e) := by
  by_cases hborn : v.BornBy u
  · rcases h with hb | ⟨b, hb, -⟩ | hb | ⟨d, z, hb, hz, hfate⟩ <;> unfold BornBy at hborn <;>
      rw [hb] at hborn <;> cases hborn
    · exact absurd rfl hne
    · rw [hy, some.injEq] at hz
      subst hz
      rw [he] at hfate
      rcases hfate with ⟨f, hlt, ⟨hf, -⟩ | hf⟩ | ⟨hf, -⟩ <;> cases hf
      exact .inr (.inl ⟨e, stamp_born hb, hlt⟩)
  · exact h.congr (stamp_born_of_ne hborn)

theorem State.SeenAt.stamp (hseen : s.SeenAt h v) (hy : s.txn u = some y)
    (he : y.status = .committed e) : s.SeenAt h (v.stamp u e) := by
  by_cases hborn : v.BornBy u
  · rcases hseen with hb | ⟨b, hb, -⟩ | ⟨d, z, f, hb, hz, hf, hlt⟩ <;>
      unfold BornBy at hborn <;> rw [hb] at hborn <;> cases hborn
    rw [hy, some.injEq] at hz
    subst hz
    rw [he, Status.committed.injEq] at hf
    exact .inr (.inl ⟨e, stamp_born hb, .inl (hf ▸ hlt)⟩)
  · unfold State.SeenAt BornAt BornBy at *
    rwa [stamp_born_of_ne hborn]

theorem State.SeenBy.committed (hd : Dependable s) {ws : List ρ} (hx : s.txn t = some x)
    (he : x.status = .committed e) (h : s.SeenBy t x v) :
    s.SeenAt ⟨x.beginTs, e, ws⟩ (v.stamp t e) := by
  have hsettled := hd.settled t x e hx he
  by_cases hborn : v.BornBy t
  · exact .inr (.inl ⟨e, stamp_born hborn, .inr rfl⟩)
  have hseen : s.SeenAt ⟨x.beginTs, e, ws⟩ v := by
    rcases h with hb | ⟨b, hb, hlt⟩ | hb | ⟨d, y, hb, hy, hfate⟩
    · exact .inl hb
    · exact .inr (.inl ⟨b, hb, .inl hlt⟩)
    · exact absurd hb hborn
    · have hfree : t ∉ y.dependents := by
        intro hmem
        have hwait : d ∈ s.waitsOn t := ⟨y, hy, hmem⟩
        rw [hsettled.1] at hwait
        exact hwait
      rcases hfate with ⟨f, hlt, ⟨-, hmem⟩ | hf⟩ | ⟨-, hmem | habort⟩
      · exact absurd hmem hfree
      · exact .inr (.inr ⟨d, y, f, hb, hy, hf, hlt⟩)
      · exact absurd hmem hfree
      · rw [hsettled.2] at habort
        cases habort
  exact hseen.stamp hx he

end

variable [DecidableEq ρ]

theorem Step.history_new (hs : Step clash tracked s ev s') (ht : Timely s) (hu : Distinct s)
    (ho : Owned s) (hh : s'.history t = some h) :
    s.history t = some h ∨
      (s.history t = none ∧ s.EndOf t h.endTs ∧ (∀ u y, s.txn u = some y →
        y.status ≠ .committed h.endTs) ∧ ∀ r, ∀ v ∈ s.chain r,
          ¬ v.BornAt h.endTs ∧ ¬ v.DiedAt h.endTs) := by
  rcases hs.history_cases t with heq | ⟨x, e, -, hx, he, -, -, -, -, heq⟩
  · exact .inl (heq ▸ hh)
  rw [heq, some.injEq] at hh
  subst hh
  have hend : s.EndOf t e := .inl ⟨x, hx, .inl he⟩
  have hnone : s.history t = none := by
    cases hhist : s.history t with
    | none => rfl
    | some h =>
      rw [ht.history_committed t x h hx hhist] at he
      cases he
  have hdated : ∀ r, ¬ s.Dated r e := by
    rintro r (hle | ⟨u, h, hh, hue, -⟩)
    · have hlt := ht.endOf_lt hend
      omega
    · have hut := hu.end_unique u t e (.inr ⟨h, hh, hue⟩) hend
      rw [hut, hnone] at hh
      cases hh
  refine .inr ⟨hnone, hend, ?_, ?_⟩
  · intro u y hy hst
    have hut := hu.end_unique u t e (.inl ⟨y, hy, .inr hst⟩) hend
    rw [hut, hx, some.injEq] at hy
    rw [hy, hst] at he
    cases he
  · intro r v hv
    exact ⟨fun hb => hdated r (ho.born r v hv e hb), fun hb => hdated r (ho.died r v hv e hb)⟩

theorem Seen.step (h : Seen s) (ht : Timely s) (hu : Distinct s) (ho : Owned s) (hd : Dependable s)
    (hs : Step clash tracked s ev s') : Seen s' where
  byTxn r v' hv' t x' hx' hdied := by
    have hold : ∀ v ∈ s.chain r, v.DiedBy t →
        ∃ x, s.txn t = some x ∧ TxnChange s ev t x x' ∧ s.SeenBy t x v := by
      intro v hv hvd
      obtain ⟨x, hx, -⟩ := ho.mentions r v hv t (.inr hvd)
      exact ⟨x, hx, hs.changed ht.fresh hx hx', h.byTxn r v hv t x hx hvd⟩
    cases hs.chain_cases hv' with
    | kept hv =>
      obtain ⟨x, hx, hchange, hseen⟩ := hold v' hv hdied
      exact hs.seenBy_mono ht hd hv hx' hchange hseen
    | installed hx hactive hx' hr hid hmark =>
      rcases hmark with ⟨-, hnone⟩ | ⟨hborn, -⟩
      · rw [DiedBy, hnone] at hdied
        cases hdied
      · exact .inl hborn
    | @superseded u x y' v hv hx hactive hy' hr hfree hsees heq =>
      subst heq
      cases hdied
      have hseen : s.SeenBy t x v := by
        rcases hsees with hb | hb | ⟨d, y, e, hb, hy, hlt, hst⟩
        · exact .inr (.inl hb)
        · exact .inr (.inr (.inl hb))
        · exact .inr (.inr (.inr ⟨d, y, hb, hy, .inl ⟨e, hlt, hst⟩⟩))
      exact (hs.seenBy_mono ht hd hv hx' (hs.changed ht.fresh hx hx') hseen).congr rfl
    | restored hev hv hx hactive hdied' heq =>
      subst heq
      cases hdied
    | @stamped u e y v hv hy he heq =>
      subst heq
      obtain ⟨hvd, hne⟩ := diedBy_stamp hdied
      obtain ⟨x, hx, hchange, hseen⟩ := hold v hv hvd
      rcases hs.txn_forward ht.fresh hy with ⟨y', hy', hchangey⟩ | ⟨-, -, hchain, -⟩
      · exact (hs.seenBy_mono ht hd hv hx' hchange hseen).stamp hy' (hchangey.of_committed he) hne
      · -- the owner retires in a step that stamps nothing
        rw [hchain] at hv'
        exact hs.seenBy_mono ht hd hv' hx' hchange (hseen.stamp hy he hne)
    | wiped hv _ _ _ heq =>
      obtain rfl := wipe_of_died hdied heq
      obtain ⟨x, hx, hchange, hseen⟩ := hold v' hv hdied
      exact hs.seenBy_mono ht hd hv hx' hchange hseen
  byRecord r v' hv' t k hk hdied := by
    have hold : ∀ v ∈ s.chain r, v.DiedAt k.endTs → s.history t = some k ∧ s.SeenAt k v := by
      intro v hv hvd
      rcases hs.history_new ht hu ho hk with hk | ⟨-, -, -, hnew⟩
      · exact ⟨hk, h.byRecord r v hv t k hk hvd⟩
      · exact absurd hvd (hnew r v hv).2
    cases hs.chain_cases hv' with
    | kept hv => exact hs.seenAt_mono ht hv (hold v' hv hdied).2
    | installed hx hactive hx' hr hid hmark =>
      rcases hmark with ⟨-, hnone⟩ | ⟨-, hby⟩
      · rw [DiedAt, hnone] at hdied
        cases hdied
      · rw [DiedAt, hby] at hdied
        cases hdied
    | superseded _ _ _ _ _ _ _ heq | restored _ _ _ _ _ heq =>
      subst heq
      cases hdied
    | @stamped u e y v hv hy he heq =>
      subst heq
      have hseen : s.SeenAt k (v.stamp u e) := by
        rcases diedAt_stamp hdied with hvd | ⟨hvd, hke⟩
        · exact (hold v hv hvd).2.stamp hy he
        rcases hs.history_new ht hu ho hk with hk | ⟨-, -, hnew, -⟩
        · have hut : t = u := hu.end_unique t u e (.inr ⟨k, hk, hke⟩) (.inl ⟨y, hy, .inr he⟩)
          subst hut
          rw [ht.committed_history t y e hy he, some.injEq] at hk
          exact hk ▸ (h.byTxn r v hv t y hy hvd).committed hd hy he
        · exact absurd (hke ▸ he) (hnew u y hy)
      rcases hs.txn_forward ht.fresh hy with ⟨y', hy', hchange⟩ | ⟨-, -, hchain, -⟩
      · rcases hseen with hb | hb | ⟨d, z, f, hb, hz, hf, hlt⟩
        · exact .inl hb
        · exact .inr (.inl hb)
        · have hm : v.Mentions d := mentions_stamp (.inl hb)
          rcases hs.txn_forward ht.fresh hz with ⟨z', hz', hchange⟩ | ⟨-, -, -, -, -, hgone⟩
          · exact .inr (.inr ⟨d, z', f, hb, hz', hchange.of_committed hf, hlt⟩)
          · exact absurd hm (hgone r v hv)
      · rw [hchain] at hv'
        exact hs.seenAt_mono ht hv' hseen
    | wiped hv _ _ _ heq =>
      obtain rfl := wipe_of_died hdied heq
      exact hs.seenAt_mono ht hv (hold v' hv hdied).2
  atSeed r v' hv' ts hdied hle := by
    rw [hs.seed_eq] at hle
    cases hs.chain_cases hv' with
    | kept hv => exact h.atSeed r v' hv ts hdied hle
    | installed hx hactive hx' hr hid hmark =>
      rcases hmark with ⟨-, hnone⟩ | ⟨hborn, -⟩
      · rw [DiedAt, hnone] at hdied
        cases hdied
      · exact .inl hborn
    | superseded _ _ _ _ _ _ _ heq | restored _ _ _ _ _ heq =>
      subst heq
      cases hdied
    | @stamped u e y v hv hy he heq =>
      subst heq
      rcases diedAt_stamp hdied with hvd | ⟨-, rfl⟩
      · have hseen := h.atSeed r v hv ts hvd hle
        have hborn : ¬ v.BornBy u := by
          intro hb
          rw [BornBy] at hb
          rcases hseen with hn | ⟨b, hn, -⟩
          · rw [hn] at hb
            cases hb
          · rw [hn] at hb
            cases hb
        unfold BornAt at hseen ⊢
        rwa [stamp_born_of_ne hborn]
      · have hlt := ht.endOf_lt (.inl ⟨y, hy, .inr he⟩)
        omega
    | wiped hv _ _ _ heq =>
      obtain rfl := wipe_of_died hdied heq
      exact h.atSeed r v' hv ts hdied hle

end MultiVersion
