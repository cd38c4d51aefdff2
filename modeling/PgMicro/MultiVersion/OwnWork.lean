import PgMicro.MultiVersion.Sight

/-!
# What a transaction can take back

Versions an active transaction has created or ended stay its own until it undoes them or
ends itself: nobody else ends, restores or removes them.
-/

namespace MultiVersion

open State Version List Option

variable {ρ α : Type}

def Version.CreatedBy (v : Version α) (t : Nat) : Prop :=
  v.BornBy t ∨ v.born = none ∧ v.DiedBy t

def Version.EndedBy (v : Version α) (t : Nat) : Prop :=
  v.DiedBy t ∧ v.born ≠ none ∨ v.born = none ∧ v.died = none

variable [DecidableEq ρ] {clash : ρ → ρ → Prop} {tracked : ρ → Prop} {s s' : State ρ α}
  {ev : Event ρ α} {t n : Nat} {x : Txn ρ} {r : ρ}

section

variable {v' : Version α} (hs : Step clash tracked s ev s') (hx : s.txn t = some x)
  (hactive : x.status = .active) (hev : ev ≠ .undo t) (hn : n < s.nextVersion)

include hs hx hactive hev hn

theorem Step.createdBy_stays (hseen : Seen s) (ho : Owned s)
    (h : ∀ v ∈ s.chain r, v.id = n → v.CreatedBy t) (hv' : v' ∈ s'.chain r) (hid : v'.id = n) :
    v'.CreatedBy t := by
  cases hs.chain_cases hv' with
  | kept hv => exact h v' hv hid
  | installed _ _ _ _ hid' => omega
  | @superseded u y y' v hv hy hst hy' hr hfree hsees heq =>
    subst heq
    rcases h v hv hid with hborn | ⟨hborn, -⟩
    · exact .inl hborn
    · exact absurd hborn hsees.born_ne
  | @restored u y v hundo hv hy hst hdied heq =>
    subst heq
    have hne : u ≠ t := by
      rintro rfl
      exact hev hundo
    rcases h v hv hid with hborn | ⟨-, hdied'⟩
    · exact absurd (Stamp.tx.inj (hseen.own_died ho hv hx hactive hborn hdied)) hne
    · exact absurd (hdied.inj hdied') hne
  | @stamped u e y v hv hy hst heq =>
    subst heq
    have hne := ne_of_active hx hactive hy hst (by simp)
    rcases h v hv hid with hborn | ⟨hborn, hdied⟩
    · exact .inl ((stamp_born_of_ne fun hu => hne (hborn.inj hu)).trans hborn)
    · refine .inr ⟨(stamp_born_of_ne fun hu => ?_).trans hborn, stamp_diedBy_of_ne hdied hne⟩
      rw [BornBy, hborn] at hu
      cases hu
  | @wiped u y v hv hy hst hdrained heq =>
    subst heq
    rw [id_wipe] at hid
    have hne := ne_of_active hx hactive hy hst (by simp)
    rcases h v hv hid with hborn | ⟨hborn, hdied⟩
    · exact .inl ((wipe_born fun hu => hne (hborn.inj hu)).trans hborn)
    rw [wipe_of_not_mentions]
    · exact .inr ⟨hborn, hdied⟩
    · rintro (hu | hu)
      · rw [BornBy, hborn] at hu
        cases hu
      · exact hne (hdied.inj hu)

theorem Step.endedBy_stays (h : ∀ v ∈ s.chain r, v.id = n → v.EndedBy t) (hv' : v' ∈ s'.chain r)
    (hid : v'.id = n) : v'.EndedBy t := by
  cases hs.chain_cases hv' with
  | kept hv => exact h v' hv hid
  | installed _ _ _ _ hid' => omega
  | @superseded u y y' v hv hy hst hy' hr hfree hsees heq =>
    subst heq
    rcases h v hv hid with ⟨hdied, -⟩ | ⟨hborn, -⟩
    · rcases hfree with hn | ⟨a, z, hn, hz, haborted⟩ <;> unfold DiedBy at hdied <;>
        rw [hn] at hdied <;> cases hdied
      exact absurd rfl (ne_of_active hx hactive hz haborted (by simp))
    · exact absurd hborn hsees.born_ne
  | @restored u y v hundo hv hy hst hdied heq =>
    subst heq
    rcases h v hv hid with ⟨hdied', -⟩ | ⟨-, hnone⟩
    · exact absurd (hdied.inj hdied' ▸ hundo) hev
    · rw [DiedBy, hnone] at hdied
      cases hdied
  | @stamped u e y v hv hy hst heq =>
    subst heq
    have hne := ne_of_active hx hactive hy hst (by simp)
    rcases h v hv hid with ⟨hdied, hborn⟩ | ⟨hborn, hdied⟩
    · refine .inl ⟨stamp_diedBy_of_ne hdied hne, ?_⟩
      simp only [Version.stamp, stampBound]
      split
      · exact some_ne_none _
      · exact hborn
    · refine .inr ⟨?_, ?_⟩
      · simp only [Version.stamp, stampBound, hborn]
        rfl
      · simp only [Version.stamp, stampBound, hdied]
        rfl
  | @wiped u y v hv hy hst hdrained heq =>
    subst heq
    rw [id_wipe] at hid
    have hne := ne_of_active hx hactive hy hst (by simp)
    by_cases hborn : v.BornBy u
    · have hwipe : v.wipe u = { v with born := none, died := none } := if_pos hborn
      rw [hwipe]
      exact .inr ⟨rfl, rfl⟩
    rw [wipe_of_not_mentions]
    · exact h v hv hid
    · rintro (hu | hu)
      · exact hborn hu
      · rcases h v hv hid with ⟨hdied, -⟩ | ⟨-, hnone⟩
        · exact hne (hdied.inj hu)
        · rw [DiedBy, hnone] at hu
          cases hu

end

theorem Step.install_unique {v : Version α} (hs : Step clash tracked s (.install t r v) s')
    (hnum : Numbered s) : v.id = s.nextVersion ∧ s'.nextVersion = s.nextVersion + 1 ∧
      v.CreatedBy t ∧ ∀ v' ∈ s'.chain r, v'.id = s.nextVersion → v' = v := by
  cases hs with
  | @install _ y _ _ older newer writes hy hactive hchain hid hmark =>
    refine ⟨hid, rfl, hmark.imp And.left id, fun v' hv' hid' => ?_⟩
    simp only [Function.update_self, mem_append, mem_cons] at hv'
    have hold : ∀ u ∈ s.chain r, u.id ≠ s.nextVersion := fun u hu => (hnum.lt r u hu).ne
    rw [hchain] at hold
    rcases hv' with hv' | rfl | hv'
    · exact absurd hid' (hold v' (mem_append_left _ hv'))
    · rfl
    · exact absurd hid' (hold v' (mem_append_right _ hv'))

theorem Step.supersede_unique {v : Version α} (hs : Step clash tracked s (.supersede t r v) s')
    (hnum : Numbered s) : v ∈ s.chain r ∧ v.born ≠ none ∧
      (v.died = none ∨ ∃ a y, v.DiedBy a ∧ s.txn a = some y ∧ y.status = .aborted) ∧
      ∀ v' ∈ s'.chain r, v'.id = v.id → v' = { v with died := some (.tx t) } := by
  cases hs with
  | @supersede _ y _ _ older newer writes hy hactive hchain hfree hsees =>
    have hnodup := hnum.nodup r
    rw [hchain, map_append, map_cons, nodup_middle, nodup_cons,
      mem_append] at hnodup
    refine ⟨hchain ▸ mem_append_right _ mem_cons_self, hsees.born_ne, hfree, ?_⟩
    intro v' hv' hid
    simp only [Function.update_self, mem_append, mem_cons] at hv'
    rcases hv' with hv' | rfl | hv'
    · exact absurd (.inl (hid ▸ mem_map_of_mem hv')) hnodup.1
    · rfl
    · exact absurd (.inr (hid ▸ mem_map_of_mem hv')) hnodup.1

end MultiVersion
