import PgMicro.MultiVersion.Timestamps

/-!
# Ownership of references

A version refers only to transactions that are still there and that have its row in their
write set; a timestamp in a version is the end of a committed writer of its row.
-/

namespace MultiVersion

open State Version

variable {ρ α : Type}

def State.Dated (s : State ρ α) (r : ρ) (ts : Nat) : Prop :=
  ts ≤ s.seed ∨ ∃ t h, s.history t = some h ∧ h.endTs = ts ∧ r ∈ h.writes

structure Owned (s : State ρ α) : Prop where
  mentions : ∀ r, ∀ v ∈ s.chain r, ∀ t, v.Mentions t →
    ∃ x, s.txn t = some x ∧ r ∈ x.writes
  born : ∀ r, ∀ v ∈ s.chain r, ∀ ts, v.BornAt ts → s.Dated r ts
  died : ∀ r, ∀ v ∈ s.chain r, ∀ ts, v.DiedAt ts → s.Dated r ts

variable [DecidableEq ρ] {clash : ρ → ρ → Prop} {tracked : ρ → Prop} {s s' : State ρ α}
  {ev : Event ρ α}

section

variable (hs : Step clash tracked s ev s') (ht : Timely s)

include hs ht

theorem Step.history_mono {t : Nat} {h : Record ρ} (hh : s.history t = some h) :
    s'.history t = some h := by
  rcases hs.history_cases t with heq | ⟨x, e, -, hx, he, -⟩
  · exact heq.trans hh
  · rw [ht.history_committed t x h hx hh] at he
    cases he

theorem Step.dated {r : ρ} {ts : Nat} (h : s.Dated r ts) : s'.Dated r ts := by
  rcases h with h | ⟨t, h, hh, heq, hr⟩
  · exact .inl (hs.seed_eq ▸ h)
  · exact .inr ⟨t, h, hs.history_mono ht hh, heq, hr⟩

theorem Step.owner_stays {t : Nat} {x : Txn ρ} {r : ρ} {v' : Version α} (hx : s.txn t = some x)
    (hr : r ∈ x.writes) (hv' : v' ∈ s'.chain r) (hm : v'.Mentions t) :
    ∃ x', s'.txn t = some x' ∧ r ∈ x'.writes := by
  rcases hs.txn_forward ht.fresh hx with ⟨x', hx', hchange⟩ | ⟨-, -, hchain, -, -, hgone⟩
  · rcases hs.writes_forward hx hx' hchange hr with hr' | hgone
    · exact ⟨x', hx', hr'⟩
    · exact absurd hm (hgone v' hv')
  · rw [hchain] at hv'
    exact absurd hm (hgone r v' hv')

end

theorem Owned.step (h : Owned s) (ht : Timely s) (hs : Step clash tracked s ev s') :
    Owned s' where
  mentions r v' hv' t hm := by
    have hold : ∀ v ∈ s.chain r, v.Mentions t → ∃ x', s'.txn t = some x' ∧ r ∈ x'.writes := by
      intro v hv hvm
      obtain ⟨x, hx, hr⟩ := h.mentions r v hv t hvm
      exact hs.owner_stays ht hx hr hv' hm
    cases hs.chain_cases hv' with
    | kept hv => exact hold v' hv hm
    | @installed u x x' hx hactive hx' hr hid hmark =>
      have hut : u = t := by
        rcases hmark with ⟨hborn, hdied⟩ | ⟨hborn, hdied⟩ <;> rcases hm with hm | hm <;>
          simp_all [BornBy, DiedBy]
      exact hut ▸ ⟨x', hx', hr⟩
    | superseded hv hx hactive hx' hr hfree hsees heq =>
      subst heq
      rcases mentions_setDied hm with hm | hm
      · exact hold _ hv (.inl hm)
      · cases hm
        exact ⟨_, hx', hr⟩
    | restored hev hv hx hactive hdied heq =>
      subst heq
      rcases mentions_setDied hm with hm | hm
      · exact hold _ hv (.inl hm)
      · cases hm
    | stamped hv hx he heq =>
      subst heq
      exact hold _ hv (mentions_stamp hm)
    | wiped hv hx haborted hdrained heq =>
      subst heq
      exact hold _ hv (mentions_wipe hm)
  born r v' hv' ts hts := by
    cases hs.chain_cases hv' with
    | kept hv => exact hs.dated ht (h.born r v' hv ts hts)
    | installed hx hactive hx' hr hid hmark =>
      rcases hmark with ⟨hborn, -⟩ | ⟨hborn, -⟩ <;> simp_all [BornAt, BornBy]
    | superseded hv hx hactive hx' hr hfree hsees heq =>
      subst heq
      exact hs.dated ht (h.born r _ hv ts hts)
    | restored hev hv hx hactive hdied heq =>
      subst heq
      exact hs.dated ht (h.born r _ hv ts hts)
    | stamped hv hx he heq =>
      subst heq
      rcases bornAt_stamp hts with hts | ⟨hborn, rfl⟩
      · exact hs.dated ht (h.born r _ hv ts hts)
      · obtain ⟨y, hy, hr⟩ := h.mentions r _ hv _ (.inl hborn)
        rw [hx, Option.some.injEq] at hy
        subst hy
        exact hs.dated ht (.inr ⟨_, _, ht.committed_history _ _ _ hx he, rfl, hr⟩)
    | wiped hv hx haborted hdrained heq =>
      subst heq
      exact hs.dated ht (h.born r _ hv ts (bornAt_wipe hts))
  died r v' hv' ts hts := by
    cases hs.chain_cases hv' with
    | kept hv => exact hs.dated ht (h.died r v' hv ts hts)
    | installed hx hactive hx' hr hid hmark =>
      rcases hmark with ⟨-, hdied⟩ | ⟨-, hdied⟩ <;> simp_all [DiedAt, DiedBy]
    | superseded hv hx hactive hx' hr hfree hsees heq =>
      subst heq
      cases hts
    | restored hev hv hx hactive hdied heq =>
      subst heq
      cases hts
    | stamped hv hx he heq =>
      subst heq
      rcases diedAt_stamp hts with hts | ⟨hdied, rfl⟩
      · exact hs.dated ht (h.died r _ hv ts hts)
      · obtain ⟨y, hy, hr⟩ := h.mentions r _ hv _ (.inr hdied)
        rw [hx, Option.some.injEq] at hy
        subst hy
        exact hs.dated ht (.inr ⟨_, _, ht.committed_history _ _ _ hx he, rfl, hr⟩)
    | wiped hv hx haborted hdrained heq =>
      subst heq
      exact hs.dated ht (h.died r _ hv ts (diedAt_wipe hts))

end MultiVersion
