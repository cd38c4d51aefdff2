import PgMicro.MultiVersion.Coherence

/-!
# Transactions that do not act

A step is taken by one transaction, or by none. It leaves the others all that they wrote and
decided, and does not hold up one that waits for nobody.
-/

namespace MultiVersion

open State Function List

variable {ρ α : Type} {v' : Version α} {r : ρ}

def Event.actor : Event ρ α → Option Nat
  | .skip | .tick | .collect => none
  | .begin t | .depend t _ | .install t _ _ | .supersede t _ _ | .undo t | .prepare t
  | .validate t | .commit t | .stamp t _ | .release t | .abort t | .cascade t | .wipe t _
  | .retire t => some t

structure Bystander (x x' : Txn ρ) : Prop where
  status : x'.status = x.status
  beginTs : x'.beginTs = x.beginTs
  writes : x'.writes = x.writes
  validated : x'.validated = x.validated
  drained : x.dependents = [] → (∀ e, x.status ≠ .preparing e) → x'.dependents = []
  ready : x.pending = 0 → x.abortNow = false → x'.pending = 0 ∧ x'.abortNow = false

theorem Bystander.refl (x : Txn ρ) : Bystander x x :=
  ⟨rfl, rfl, rfl, rfl, fun h _ => h, fun h h' => ⟨h, h'⟩⟩

theorem Bystander.trans {x x' x'' : Txn ρ} (h : Bystander x x') (h' : Bystander x' x'') :
    Bystander x x'' where
  status := h'.status.trans h.status
  beginTs := h'.beginTs.trans h.beginTs
  writes := h'.writes.trans h.writes
  validated := h'.validated.trans h.validated
  drained hd hst := h'.drained (h.drained hd hst) (fun e => h.status ▸ hst e)
  ready hp ha := h'.ready (h.ready hp ha).1 (h.ready hp ha).2

variable {clash : ρ → ρ → Prop} {tracked : ρ → Prop} {s s' : State ρ α} {ev : Event ρ α}
  {evs : List (Event ρ α)} {u : Nat} {x : Txn ρ}

theorem Bystander.settle (hc : Coherent clash tracked s) {d : Nat} {y : Txn ρ} {aborted : Bool}
    (hy : s.txn d = some y) (hu : u ≠ d) (hx : s.txn u = some x) :
    ∃ x', s.settle d y aborted u = some x' ∧ Bystander x x' := by
  rw [settle_of_ne hu, hx, Option.map_some]
  refine ⟨_, rfl, ?_⟩
  split
  next hmem =>
    refine ⟨rfl, rfl, rfl, rfl, fun h _ => h, fun hpending _ => ?_⟩
    have hempty := hc.dependable.waitsOn_eq_empty hc.timely hx hpending
    have hd : d ∈ s.waitsOn u := ⟨y, hy, hmem⟩
    rw [hempty] at hd
    cases hd
  · exact .refl x

theorem Bystander.update {f : Nat → Option (Txn ρ)} {t : Nat} {y : Option (Txn ρ)} (hu : u ≠ t)
    (hx : f u = some x) : ∃ x', update f t y u = some x' ∧ Bystander x x' :=
  ⟨x, (update_of_ne hu ..).trans hx, .refl x⟩

variable [DecidableEq ρ]

theorem Step.bystander (hs : Step clash tracked s ev s') (hc : Coherent clash tracked s)
    (hev : ev.actor ≠ some u) (hx : s.txn u = some x) :
    ∃ x', s'.txn u = some x' ∧ Bystander x x' := by
  have hne : ∀ {t : Nat}, ev.actor = some t → u ≠ t := fun hact hut => hev (hut ▸ hact)
  cases hs with
  | skip | tick | stamp | wipe | collect => exact ⟨x, hx, .refl x⟩
  | begin | install | supersede | undo | prepare | validate | commit | abort | retire =>
    exact Bystander.update (hne rfl) hx
  | @depend t d e z y hz hactive hy he =>
    have hut : u ≠ t := hne rfl
    by_cases hud : u = d
    · subst hud
      rw [hx, Option.some.injEq] at hy
      subst hy
      refine ⟨{ x with dependents := t :: x.dependents }, ?_, ?_⟩
      · simp [update_of_ne hut, update_self]
      · exact ⟨rfl, rfl, rfl, rfl, fun _ hst => absurd he (hst e), fun h h' => ⟨h, h'⟩⟩
    · refine ⟨x, ?_, .refl x⟩
      simp [update_of_ne hut, update_of_ne hud, hx]
  | release hy | cascade hy => exact Bystander.settle hc hy (hne rfl) hx

theorem Step.mentions_back (hs : Step clash tracked s ev s') (hev : ev.actor ≠ some u)
    (hv' : v' ∈ s'.chain r) (hm : v'.Mentions u) : ∃ v ∈ s.chain r, v.Mentions u := by
  cases hs with
  | skip | tick | begin | depend | prepare | validate | commit | release | abort | cascade
  | retire => exact ⟨v', hv', hm⟩
  | @install t y q w older newer writes hy hactive hchain hid hmark =>
    have hut : u ≠ t := fun hut => hev (hut ▸ rfl)
    rcases mem_update_insert (by simp [hchain]) (by simp [hchain]) hv' with ⟨rfl, rfl⟩ | hv'
    · rcases hmark with ⟨hborn, hdied⟩ | ⟨hborn, hdied⟩ <;> rcases hm with hm | hm <;>
        simp only [Version.BornBy, Version.DiedBy] at hborn hdied hm <;>
        simp_all
    · exact ⟨v', hv', hm⟩
  | @supersede t y q w older newer writes hy hactive hchain =>
    have hut : u ≠ t := fun hut => hev (hut ▸ rfl)
    rcases mem_update_insert (by simp [hchain]) (by simp [hchain]) hv' with ⟨rfl, rfl⟩ | hv'
    · refine ⟨w, hchain ▸ mem_append_right _ mem_cons_self, .inl ?_⟩
      rcases Version.mentions_setDied hm with hm | hm
      · exact hm
      · cases hm
        exact absurd rfl hut
    · exact ⟨v', hv', hm⟩
  | undo hy hactive hchain =>
    rcases (hchain r).back v' hv' with hv | ⟨w, hw, -, rfl⟩
    · exact ⟨v', hv, hm⟩
    · refine ⟨w, hw, .inl ?_⟩
      rcases Version.mentions_setDied hm with hm | hm
      · exact hm
      · cases hm
  | @stamp t e y q hy he =>
    rcases mem_update hv' with ⟨rfl, hmap⟩ | hv'
    · obtain ⟨w, hw, rfl⟩ := mem_map.1 hmap
      exact ⟨w, hw, Version.mentions_stamp hm⟩
    · exact ⟨v', hv', hm⟩
  | @wipe t y q hy haborted hdrained =>
    rcases mem_update hv' with ⟨rfl, hmap⟩ | hv'
    · obtain ⟨w, hw, rfl⟩ := mem_map.1 hmap
      exact ⟨w, hw, Version.mentions_wipe hm⟩
    · exact ⟨v', hv', hm⟩
  | collect hidle hchain => exact ⟨v', (hchain r).subset hv', hm⟩

theorem Path.bystander (hp : Path clash tracked s evs s') (hc : Coherent clash tracked s)
    (hev : ∀ ev ∈ evs, ev.actor ≠ some u) (hx : s.txn u = some x) :
    ∃ x', s'.txn u = some x' ∧ Bystander x x' := by
  induction hp generalizing x with
  | nil => exact ⟨x, hx, .refl x⟩
  | cons hs _ ih =>
    obtain ⟨hev1, hev⟩ := forall_mem_cons.1 hev
    obtain ⟨x1, hx1, hby1⟩ := hs.bystander hc hev1 hx
    obtain ⟨x', hx', hby⟩ := ih (hc.step hs) hev hx1
    exact ⟨x', hx', hby1.trans hby⟩

theorem Path.mentions_back (hp : Path clash tracked s evs s') (hev : ∀ ev ∈ evs, ev.actor ≠ some u)
    (hv' : v' ∈ s'.chain r) (hm : v'.Mentions u) : ∃ v ∈ s.chain r, v.Mentions u := by
  induction hp with
  | nil => exact ⟨v', hv', hm⟩
  | cons hs _ ih =>
    obtain ⟨hev1, hev⟩ := forall_mem_cons.1 hev
    obtain ⟨v, hv, hm⟩ := ih hev hv'
    exact hs.mentions_back hev1 hv hm

end MultiVersion
