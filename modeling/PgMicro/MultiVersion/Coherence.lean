import PgMicro.MultiVersion.FirstCommitter

/-!
# The invariant of the protocol

The parts proved so far hold together in every state reached from an initial one.
-/

namespace MultiVersion

open State Version Function List

variable {ρ α : Type} {clash : ρ → ρ → Prop} {tracked : ρ → Prop} {s s' : State ρ α}

structure Numbered (s : State ρ α) : Prop where
  nodup : ∀ r, ((s.chain r).map Version.id).Nodup
  lt : ∀ r, ∀ v ∈ s.chain r, v.id < s.nextVersion

structure Initial (s : State ρ α) : Prop where
  idle : ∀ t, s.txn t = none
  blank : ∀ t, s.history t = none
  noEffect : ∀ t r, s.effect t r = none
  seed_lt : s.seed < s.clock
  numbered : Numbered s
  unmentioned : ∀ r, ∀ v ∈ s.chain r, ∀ t, ¬ v.Mentions t
  born_le : ∀ r, ∀ v ∈ s.chain r, ∀ ts, v.BornAt ts → ts ≤ s.seed
  died_le : ∀ r, ∀ v ∈ s.chain r, ∀ ts, v.DiedAt ts →
    ts ≤ s.seed ∧ (v.born = none ∨ ∃ b, v.BornAt b ∧ b ≤ ts)

structure Coherent (clash : ρ → ρ → Prop) (tracked : ρ → Prop) (s : State ρ α) : Prop where
  timely : Timely s
  distinct : Distinct s
  owned : Owned s
  dependable : Dependable s
  seen : Seen s
  present : Present tracked s
  admitted : Admitted clash s
  firstCommitter : FirstCommitter clash tracked s
  numbered : Numbered s

open List.Sublist

section

variable [DecidableEq ρ] {ev : Event ρ α}

theorem Step.nextVersion_le (hs : Step clash tracked s ev s') : s.nextVersion ≤ s'.nextVersion := by
  cases hs <;> simp

theorem Step.ids_cases (hs : Step clash tracked s ev s') (r : ρ) :
    ((s'.chain r).map Version.id).Sublist ((s.chain r).map Version.id) ∨
      (s'.nextVersion = s.nextVersion + 1 ∧
        ((s'.chain r).map Version.id).Perm (s.nextVersion :: (s.chain r).map Version.id)) := by
  cases hs with
  | skip | tick | begin | depend | prepare | validate | commit | release | abort | cascade
  | retire => exact .inl (refl _)
  | @install t x q v older newer writes hx hactive hchain hid =>
    by_cases hr : r = q
    · subst hr
      refine .inr ⟨rfl, ?_⟩
      simp only [update_self, hchain, map_append, map_cons, hid]
      exact perm_middle
    · simp only [update_of_ne hr]
      exact .inl (refl _)
  | @supersede t x q v older newer writes hx hactive hchain =>
    refine .inl ?_
    by_cases hr : r = q
    · subst hr
      simp only [update_self, hchain, map_append, map_cons]
      exact refl _
    · simp only [update_of_ne hr]
      exact refl _
  | undo hx hactive hchain => exact .inl (hchain r).ids
  | @stamp t e x q hx he =>
    refine .inl ?_
    by_cases hr : r = q
    · subst hr
      simp only [update_self, map_map, comp_def, id_stamp]
      exact refl _
    · simp only [update_of_ne hr]
      exact refl _
  | @wipe t x q hx haborted hdrained =>
    refine .inl ?_
    by_cases hr : r = q
    · subst hr
      simp only [update_self, map_map, comp_def, id_wipe]
      exact refl _
    · simp only [update_of_ne hr]
      exact refl _
  | collect hidle hchain => exact .inl ((hchain r).map _)

theorem Numbered.step (h : Numbered s) (hs : Step clash tracked s ev s') : Numbered s' where
  nodup r := by
    rcases hs.ids_cases r with hsub | ⟨-, hperm⟩
    · exact (h.nodup r).sublist hsub
    · rw [hperm.nodup_iff, nodup_cons]
      refine ⟨fun hmem => ?_, h.nodup r⟩
      obtain ⟨v, hv, hid⟩ := mem_map.1 hmem
      have hlt := h.lt r v hv
      omega
  lt r v' hv' := by
    have hle := hs.nextVersion_le
    have hmem : v'.id ∈ (s'.chain r).map Version.id := mem_map_of_mem hv'
    rcases hs.ids_cases r with hsub | ⟨hnext, hperm⟩
    · obtain ⟨v, hv, hid⟩ := mem_map.1 (hsub.subset hmem)
      have hlt := h.lt r v hv
      omega
    rw [hperm.mem_iff, mem_cons] at hmem
    rcases hmem with hid | hmem
    · omega
    · obtain ⟨v, hv, hid⟩ := mem_map.1 hmem
      have hlt := h.lt r v hv
      omega

theorem Coherent.step (h : Coherent clash tracked s) (hs : Step clash tracked s ev s') :
    Coherent clash tracked s' where
  timely := h.timely.step hs
  distinct := h.distinct.step h.timely hs
  owned := h.owned.step h.timely hs
  dependable := h.dependable.step h.timely h.owned hs
  seen := h.seen.step h.timely h.distinct h.owned h.dependable hs
  present := h.present.step h.seen h.timely h.owned h.dependable hs
  admitted := h.admitted.step h.timely h.distinct hs
  firstCommitter := h.firstCommitter.step h.present h.seen h.timely h.distinct h.owned
    h.dependable hs
  numbered := h.numbered.step hs

end

section

theorem Coherent.ended_before (h : Coherent clash tracked s) {t1 t2 : Nat} {k1 k2 : Record ρ}
    (h1 : s.history t1 = some k1) (h2 : s.history t2 = some k2) {r : ρ} (htracked : tracked r)
    (hclash : clash r r) (hr1 : r ∈ k1.writes) (hr2 : r ∈ k2.writes)
    (hlt : k1.endTs < k2.endTs) : k1.endTs < k2.beginTs := by
  have hne := h.distinct.end_ne_begin t1 t2 k1.endTs k2.beginTs (.inr ⟨k1, h1, rfl⟩)
    (.inr ⟨k2, h2, rfl⟩)
  by_contra hnot
  obtain ⟨x, hx, hst, -⟩ := h.firstCommitter t1 t2 k2.beginTs k1.endTs k2.endTs r htracked hclash
    (.inr ⟨k2, h2, rfl, rfl, hr2⟩) (.inr ⟨k1, h1, rfl, hr1⟩) (by omega) hlt
  have hcommitted := h.timely.history_committed t1 x k1 hx h1
  rw [hst] at hcommitted
  cases hcommitted

end

section

theorem Initial.not_endOf (h : Initial s) (t e : Nat) : ¬ s.EndOf t e := by
  rintro (⟨x, hx, -⟩ | ⟨k, hk, -⟩)
  · rw [h.idle t] at hx
    cases hx
  · rw [h.blank t] at hk
    cases hk

theorem Initial.coherent (h : Initial s) : Coherent clash tracked s := by
  have htxn : ∀ {t : Nat} {x : Txn ρ}, s.txn t ≠ some x := by simp [h.idle]
  have hhist : ∀ {t : Nat} {k : Record ρ}, s.history t ≠ some k := by simp [h.blank]
  have hvalid : ∀ {t b e : Nat} {r : ρ}, ¬ s.Validated t b e r :=
    fun hv => h.not_endOf _ _ hv.endOf
  exact {
    timely :=
      { seed_lt := h.seed_lt
        txn_lt := fun _ _ hx => absurd hx htxn
        end_lt := fun _ _ _ hx => absurd hx htxn
        history_lt := fun _ _ hk => absurd hk hhist
        committed_history := fun _ _ _ hx => absurd hx htxn
        history_committed := fun _ _ _ hx => absurd hx htxn
        unvalidated := fun _ _ hx => absurd hx htxn }
    distinct :=
      { end_unique := fun t _ e hend => absurd hend (h.not_endOf t e)
        end_ne_begin := fun t _ e _ hend => absurd hend (h.not_endOf t e) }
    owned :=
      { mentions := fun r v hv t hm => absurd hm (h.unmentioned r v hv t)
        born := fun r v hv ts hts => .inl (h.born_le r v hv ts hts)
        died := fun r v hv ts hts => .inl (h.died_le r v hv ts hts).1 }
    dependable :=
      { nodup := fun _ _ hy => absurd hy htxn
        idle := fun _ _ hy => absurd hy htxn
        before := fun _ _ _ _ _ hy => absurd hy htxn
        irrefl := fun _ _ hy => absurd hy htxn
        known := fun _ _ _ hy => absurd hy htxn
        writer := fun _ _ hy => absurd hy htxn
        pending := fun _ _ hx => absurd hx htxn
        settled := fun _ _ _ hx => absurd hx htxn
        registered := fun _ _ _ hx => absurd hx htxn }
    seen :=
      { byTxn := fun _ _ _ _ _ hx => absurd hx htxn
        byRecord := fun _ _ _ _ _ hk => absurd hk hhist
        atSeed := fun r v hv ts hts _ => (h.died_le r v hv ts hts).2 }
    present :=
      { live := fun _ _ _ hx => absurd hx htxn
        past := fun _ _ _ hk => absurd hk hhist }
    admitted := fun _ _ _ _ _ hv => absurd hv hvalid
    firstCommitter := fun _ _ _ _ _ _ _ _ hv => absurd hv hvalid
    numbered := h.numbered }

end

section

variable [DecidableEq ρ]

inductive Path (clash : ρ → ρ → Prop) (tracked : ρ → Prop) :
    State ρ α → List (Event ρ α) → State ρ α → Prop where
  | nil (s : State ρ α) : Path clash tracked s [] s
  | cons {s s' s'' : State ρ α} {ev : Event ρ α} {evs : List (Event ρ α)}
      (hs : Step clash tracked s ev s') (hp : Path clash tracked s' evs s'') :
      Path clash tracked s (ev :: evs) s''

variable {s'' : State ρ α} {evs evs' : List (Event ρ α)}

theorem Path.single {ev : Event ρ α} (hs : Step clash tracked s ev s') :
    Path clash tracked s [ev] s' :=
  .cons hs (.nil s')

theorem Path.append (h : Path clash tracked s evs s') (h' : Path clash tracked s' evs' s'') :
    Path clash tracked s (evs ++ evs') s'' := by
  induction h with
  | nil => exact h'
  | cons hs _ ih => exact .cons hs (ih h')

theorem Path.preserves {P : State ρ α → Prop} (h : Path clash tracked s evs s')
    (hstep : ∀ {s s' ev}, ev ∈ evs → Step clash tracked s ev s' → P s → P s') (hP : P s) :
    P s' := by
  induction h with
  | nil => exact hP
  | cons hs _ ih =>
    exact ih (fun hmem => hstep (mem_cons_of_mem _ hmem)) (hstep mem_cons_self hs hP)

theorem Coherent.path (h : Coherent clash tracked s) (hp : Path clash tracked s evs s') :
    Coherent clash tracked s' :=
  hp.preserves (fun _ hs h => h.step hs) h

end

end MultiVersion
