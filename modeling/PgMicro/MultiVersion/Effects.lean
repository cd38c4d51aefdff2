import PgMicro.MultiVersion.Protocol

/-!
# What one step can do

Each step is described once: what becomes of a transaction, of the history and of a
version. The invariants are proved from these descriptions and not from the steps.
-/

namespace MultiVersion

open State Function List Option

variable {ρ α : Type} {s : State ρ α} {ev : Event ρ α} {x x' y y' : Txn ρ} {v : Version α}
  {u t : Nat} {r q : ρ}

/-- How the status of the transaction `t` may change in one step at the time `clock`. -/
inductive StatusStep (clock : Nat) (ev : Event ρ α) (t : Nat) (x x' : Txn ρ) : Prop where
  | same (h : x'.status = x.status)
  | prepare (hev : ev = .prepare t) (hactive : x.status = .active)
      (h : x'.status = .preparing clock)
  | commit {e : Nat} (hev : ev = .commit t) (he : x.status = .preparing e)
      (hvalid : x.validated = true) (habort : x.abortNow = false) (hpending : x.pending = 0)
      (h : x'.status = .committed e)
  | abort (hev : ev = .abort t) (hopen : x.status = .active ∨ ∃ e, x.status = .preparing e)
      (h : x'.status = .aborted)

inductive WritesStep (ev : Event ρ α) (t : Nat) (x x' : Txn ρ) : Prop where
  | same (h : x'.writes = x.writes)
  | grow {r : ρ} (hwrite : ∃ v, ev = .install t r v ∨ ev = .supersede t r v)
      (hactive : x.status = .active) (hactive' : x'.status = .active)
      (h : ∀ r', r' ∈ x'.writes ↔ r' = r ∨ r' ∈ x.writes)
  | shrink (hundo : ev = .undo t) (hactive : x.status = .active) (hactive' : x'.status = .active)
      (h : ∀ r ∈ x'.writes, r ∈ x.writes)

structure TxnChange (s : State ρ α) (ev : Event ρ α) (t : Nat) (x x' : Txn ρ) : Prop where
  beginTs : x'.beginTs = x.beginTs
  status : StatusStep s.clock ev t x x'
  writes : WritesStep ev t x x'
  abortNow : x.abortNow = true → x'.abortNow = true
  validated : x'.validated = x.validated ∨ (x'.validated = true ∧ ev = .validate t) ∨
    (x'.validated = false ∧ x'.status = .aborted)

theorem TxnChange.refl (s : State ρ α) (ev : Event ρ α) (t : Nat) (x : Txn ρ) :
    TxnChange s ev t x x :=
  ⟨rfl, .same rfl, .same rfl, id, .inl rfl⟩

theorem TxnChange.writes_eq (h : TxnChange s ev t x x')
    (hclosed : x.status ≠ .active ∨ x'.status ≠ .active) : x'.writes = x.writes := by
  cases h.writes with
  | same h => exact h
  | grow _ hactive hactive' | shrink _ hactive hactive' => tauto

namespace TxnChange

section

variable (h : TxnChange s ev t x x')

include h

theorem active (hst : x'.status = .active) : x.status = .active := by
  cases h.status with
  | same hx' => exact hx'.symm.trans hst
  | prepare _ _ hx' | commit _ _ _ _ _ hx' | abort _ _ hx' =>
    rw [hst] at hx'
    cases hx'

variable {e : Nat}

theorem preparing (hst : x'.status = .preparing e) :
    x.status = .preparing e ∨ (ev = .prepare t ∧ x.status = .active ∧ e = s.clock) := by
  cases h.status with
  | same hx' => exact .inl (hx'.symm.trans hst)
  | prepare hev hactive hx' =>
    rw [hst, Status.preparing.injEq] at hx'
    exact .inr ⟨hev, hactive, hx'⟩
  | commit _ _ _ _ _ hx' | abort _ _ hx' =>
    rw [hst] at hx'
    cases hx'

theorem committed (hst : x'.status = .committed e) :
    x.status = .committed e ∨ (ev = .commit t ∧ x.status = .preparing e ∧
      x.validated = true ∧ x.abortNow = false ∧ x.pending = 0) := by
  cases h.status with
  | same hx' => exact .inl (hx'.symm.trans hst)
  | commit hev he hvalid habort hpending hx' =>
    rw [hst, Status.committed.injEq] at hx'
    exact .inr ⟨hev, hx' ▸ he, hvalid, habort, hpending⟩
  | prepare _ _ hx' | abort _ _ hx' =>
    rw [hst] at hx'
    cases hx'

theorem ended (hst : x'.status = .preparing e ∨ x'.status = .committed e) :
    (x.status = .preparing e ∨ x.status = .committed e) ∨
      (ev = .prepare t ∧ x.status = .active ∧ e = s.clock) := by
  rcases hst with hst | hst
  · exact (h.preparing hst).imp_left .inl
  · rcases h.committed hst with hold | ⟨-, hpre, -⟩
    · exact .inl (.inr hold)
    · exact .inl (.inl hpre)

theorem of_active (hst : x.status = .active) :
    x'.status = .active ∨ (ev = .prepare t ∧ x'.status = .preparing s.clock) ∨
      x'.status = .aborted := by
  cases h.status with
  | same hx' => exact .inl (hx'.trans hst)
  | prepare hev _ hx' => exact .inr (.inl ⟨hev, hx'⟩)
  | commit _ he =>
    rw [hst] at he
    cases he
  | abort _ _ hx' => exact .inr (.inr hx')

theorem of_preparing (hst : x.status = .preparing e) :
    x'.status = .preparing e ∨ x'.status = .committed e ∨ x'.status = .aborted := by
  cases h.status with
  | same hx' => exact .inl (hx'.trans hst)
  | prepare _ hactive =>
    rw [hst] at hactive
    cases hactive
  | commit _ he _ _ _ hx' =>
    rw [hst, Status.preparing.injEq] at he
    exact .inr (.inl (he ▸ hx'))
  | abort _ _ hx' => exact .inr (.inr hx')

theorem of_committed (hst : x.status = .committed e) : x'.status = .committed e := by
  cases h.status with
  | same hx' => exact hx'.trans hst
  | prepare _ hopen | commit _ hopen | abort _ hopen => simp [hst] at hopen

theorem of_aborted (hst : x.status = .aborted) : x'.status = .aborted := by
  cases h.status with
  | same hx' => exact hx'.trans hst
  | prepare _ hopen | commit _ hopen => simp [hst] at hopen
  | abort _ _ hx' => exact hx'

end

end TxnChange

open TxnChange

variable {f : Nat → Option (Txn ρ)}

theorem update_eq_some (h : update f t (some y) u = some y') :
    (u = t ∧ y = y') ∨ (u ≠ t ∧ f u = some y') := by
  by_cases hu : u = t
  · subst hu
    rw [update_self, some.injEq] at h
    exact .inl ⟨rfl, h⟩
  · rw [update_of_ne hu] at h
    exact .inr ⟨hu, h⟩

theorem TxnChange.update (hx : f t = some x) (hy : update f t (some x') u = some y')
    (hchange : TxnChange s ev t x x') : ∃ y, f u = some y ∧ TxnChange s ev u y y' := by
  rcases update_eq_some hy with ⟨rfl, rfl⟩ | ⟨-, hy⟩
  · exact ⟨x, hx, hchange⟩
  · exact ⟨y', hy, .refl _ _ _ _⟩

theorem mem_update [DecidableEq ρ] {f : ρ → List (Version α)} {l : List (Version α)}
    (h : v ∈ update f q l r) : (r = q ∧ v ∈ l) ∨ v ∈ f r := by
  by_cases hr : r = q
  · subst hr
    rw [update_self] at h
    exact .inl ⟨rfl, h⟩
  · rw [update_of_ne hr] at h
    exact .inr h

/-- A version is put into the chain of `q`, in place of another one or between two of them. -/
theorem mem_update_insert [DecidableEq ρ] {f : ρ → List (Version α)}
    {older newer : List (Version α)} {u : Version α} (hold : older ⊆ f q) (hnew : newer ⊆ f q)
    (h : v ∈ update f q (older ++ u :: newer) r) : (r = q ∧ v = u) ∨ v ∈ f r := by
  rcases mem_update h with ⟨rfl, hv⟩ | hv
  · rcases mem_append.1 hv with hv | hv
    · exact .inr (hold hv)
    · exact (mem_cons.1 hv).imp (fun hv => ⟨rfl, hv⟩) fun hv => hnew hv
  · exact .inr hv

theorem update_isSome (hf : (f t).isSome) : (update f u (some y) t).isSome := by
  by_cases ht : t = u
  · subst ht
    rw [update_self, isSome_some]
  · rwa [update_of_ne ht]

theorem ne_of_active {st : Status} (hx : f t = some x) (hactive : x.status = .active)
    (hy : f u = some y) (hst : y.status = st) (hne : st ≠ .active) : t ≠ u := by
  rintro rfl
  rw [hx, some.injEq] at hy
  exact hne (hst.symm.trans (hy ▸ hactive))

namespace State

variable {aborted : Bool}

theorem settle_self : s.settle t x aborted t = some { x with dependents := [] } := by
  simp [settle]

theorem settle_of_ne (hu : u ≠ t) :
    s.settle t x aborted u = (s.txn u).map fun y =>
      if u ∈ x.dependents then
        { y with abortNow := y.abortNow || aborted, pending := y.pending - 1 }
      else y := by
  simp [settle, if_neg hu]

theorem settle_cases {ev : Event ρ α} (hx : s.txn t = some x)
    (hy : s.settle t x aborted u = some y') : ∃ y, s.txn u = some y ∧ TxnChange s ev u y y' := by
  by_cases hu : u = t
  · subst hu
    rw [settle_self, some.injEq] at hy
    exact ⟨x, hx, hy ▸ ⟨rfl, .same rfl, .same rfl, id, .inl rfl⟩⟩
  rw [settle_of_ne hu, map_eq_some_iff] at hy
  obtain ⟨y, hy, rfl⟩ := hy
  refine ⟨y, hy, ?_⟩
  split
  · exact ⟨rfl, .same rfl, .same rfl, fun h => by simp [h],
      .inl rfl⟩
  · exact .refl _ _ _ _

theorem settle_isSome (hu : (s.txn u).isSome) : (s.settle t x aborted u).isSome := by
  by_cases ht : u = t
  · subst ht
    rw [settle_self, isSome_some]
  · rwa [settle_of_ne ht, isSome_map]

end State

variable [DecidableEq ρ] {clash : ρ → ρ → Prop} {tracked : ρ → Prop} {s' : State ρ α}

section

variable (hs : Step clash tracked s ev s')

include hs

theorem Step.txn_cases (hx' : s'.txn t = some x') :
    (t = s.nextTxn ∧ x' = .fresh s.clock ∧ ev = .begin t) ∨
      ∃ x, s.txn t = some x ∧ TxnChange s ev t x x' := by
  cases hs with
  | skip | tick | stamp | wipe | collect => exact .inr ⟨x', hx', .refl _ _ _ _⟩
  | begin =>
    rcases update_eq_some hx' with ⟨rfl, rfl⟩ | ⟨-, hx'⟩
    · exact .inl ⟨rfl, rfl, rfl⟩
    · exact .inr ⟨x', hx', .refl _ _ _ _⟩
  | @depend u d e x y hx hactive hy he =>
    rcases update_eq_some hx' with ⟨rfl, rfl⟩ | ⟨-, hx'⟩
    · exact .inr ⟨x, hx, ⟨rfl, .same rfl, .same rfl, id, .inl rfl⟩⟩
    · exact .inr (update hy hx' ⟨rfl, .same rfl, .same rfl, id, .inl rfl⟩)
  | install hx hactive _ _ _ _ hwrites =>
    exact .inr (update hx hx'
      ⟨rfl, .same rfl, .grow ⟨_, .inl rfl⟩ hactive hactive hwrites, id, .inl rfl⟩)
  | supersede hx hactive _ _ _ _ hwrites =>
    exact .inr (update hx hx'
      ⟨rfl, .same rfl, .grow ⟨_, .inr rfl⟩ hactive hactive hwrites, id, .inl rfl⟩)
  | undo hx hactive _ hsub =>
    exact .inr (update hx hx'
      ⟨rfl, .same rfl, .shrink rfl hactive hactive hsub, id, .inl rfl⟩)
  | prepare hx hactive =>
    exact .inr (update hx hx' ⟨rfl, .prepare rfl hactive rfl, .same rfl, id, .inl rfl⟩)
  | validate hx =>
    exact .inr (update hx hx' ⟨rfl, .same rfl, .same rfl, id, .inr (.inl ⟨rfl, rfl⟩)⟩)
  | commit hx he hvalid habort hpending =>
    exact .inr (update hx hx'
      ⟨rfl, .commit rfl he hvalid habort hpending rfl, .same rfl, id, .inl rfl⟩)
  | release hx | cascade hx => exact .inr (settle_cases hx hx')
  | abort hx hopen =>
    exact .inr (update hx hx'
      ⟨rfl, .abort rfl hopen rfl, .same rfl, id, .inr (.inr ⟨rfl, rfl⟩)⟩)
  | @retire u y hy =>
    by_cases ht : t = u
    · subst ht
      simp only [update_self, reduceCtorEq] at hx'
    · simp only [update_of_ne ht] at hx'
      exact .inr ⟨x', hx', .refl _ _ _ _⟩

theorem Step.changed (hfresh : s.txn s.nextTxn = none) (hx : s.txn t = some x)
    (hx' : s'.txn t = some x') : TxnChange s ev t x x' := by
  rcases hs.txn_cases hx' with ⟨rfl, -⟩ | ⟨y, hy, hchange⟩
  · rw [hfresh] at hx
    cases hx
  · rw [hx, some.injEq] at hy
    exact hy ▸ hchange

theorem Step.txn_forward (hfresh : s.txn s.nextTxn = none) (hx : s.txn t = some x) :
    (∃ x', s'.txn t = some x' ∧ TxnChange s ev t x x') ∨
      (s'.txn t = none ∧ ev = .retire t ∧ s'.chain = s.chain ∧
        (x.status = .aborted ∨ ∃ e, x.status = .committed e) ∧ x.dependents = [] ∧
        ∀ r, ∀ v ∈ s.chain r, ¬ v.Mentions t) := by
  by_cases hstays : (s'.txn t).isSome
  · obtain ⟨x', hx'⟩ := isSome_iff_exists.1 hstays
    exact .inl ⟨x', hx', hs.changed hfresh hx hx'⟩
  have hsome : (s.txn t).isSome := by rw [hx, isSome_some]
  cases hs with
  | skip | tick | stamp | wipe | collect => exact absurd hsome hstays
  | begin | install | supersede | undo | prepare | validate | commit | abort =>
    exact absurd (update_isSome hsome) hstays
  | depend => exact absurd (update_isSome (update_isSome hsome)) hstays
  | release | cascade => exact absurd (settle_isSome hsome) hstays
  | @retire u y hy hended hdrained hgone =>
    by_cases ht : t = u
    · subst ht
      rw [hy, some.injEq] at hx
      subst hx
      exact .inr ⟨update_self .., rfl, rfl, hended, hdrained, hgone⟩
    · exact absurd ((congrArg isSome (update_of_ne ht ..)).trans hsome) hstays

theorem Step.clock_le : s.clock ≤ s'.clock := by
  cases hs <;> simp

theorem Step.nextTxn_le : s.nextTxn ≤ s'.nextTxn := by
  cases hs <;> simp

theorem Step.seed_eq : s'.seed = s.seed := by
  cases hs <;> rfl

end

theorem Step.clock_of_prepare (hs : Step clash tracked s (.prepare t) s') :
    s'.clock = s.clock + 1 := by
  cases hs
  rfl

theorem Step.clock_of_begin (hs : Step clash tracked s (.begin t) s') :
    s'.clock = s.clock + 1 ∧ s'.nextTxn = t + 1 := by
  cases hs
  exact ⟨rfl, rfl⟩

theorem Step.history_cases (hs : Step clash tracked s ev s') (t : Nat) :
    s'.history t = s.history t ∨
      ∃ x e, ev = .commit t ∧ s.txn t = some x ∧ x.status = .preparing e ∧
        x.validated = true ∧ x.abortNow = false ∧ x.pending = 0 ∧
        s'.txn t = some { x with status := .committed e } ∧
        s'.history t = some ⟨x.beginTs, e, x.writes⟩ := by
  cases hs with
  | @commit u e x hx he hvalid habort hpending =>
    by_cases ht : t = u
    · subst ht
      exact .inr ⟨x, e, rfl, hx, he, hvalid, habort, hpending, update_self ..,
        update_self ..⟩
    · exact .inl (update_of_ne ht ..)
  | _ => exact .inl rfl

theorem Step.commit_history {e : Nat} (hs : Step clash tracked s (.commit t) s')
    (hx' : s'.txn t = some x') (he : x'.status = .committed e) :
    s'.history t = some ⟨x'.beginTs, e, x'.writes⟩ := by
  cases hs
  simp only [update_self, some.injEq] at hx'
  subst hx'
  cases he
  simp

theorem Step.writes_forward (hs : Step clash tracked s ev s') (hx : s.txn t = some x)
    (hx' : s'.txn t = some x') (hchange : TxnChange s ev t x x') (hr : r ∈ x.writes) :
    r ∈ x'.writes ∨ ∀ v ∈ s'.chain r, ¬ v.Mentions t := by
  cases hchange.writes with
  | same h => exact .inl (h ▸ hr)
  | grow _ _ _ h => exact .inl ((h r).2 (.inr hr))
  | shrink hundo =>
    subst hundo
    cases hs with
    | @undo _ z chain' writes hz _ _ _ hgone =>
      rw [hx, some.injEq] at hz
      subst hz
      simp only [update_self, some.injEq] at hx'
      subst hx'
      by_cases hw : r ∈ writes
      · exact .inl hw
      · exact .inr (hgone r hr hw)

inductive Origin (s : State ρ α) (ev : Event ρ α) (s' : State ρ α) (r : ρ) (v' : Version α) :
    Prop where
  | kept (hv : v' ∈ s.chain r)
  | installed {t : Nat} {x x' : Txn ρ} (hx : s.txn t = some x) (hactive : x.status = .active)
      (hx' : s'.txn t = some x') (hr : r ∈ x'.writes) (hid : v'.id = s.nextVersion)
      (hmark : v'.BornBy t ∧ v'.died = none ∨ v'.born = none ∧ v'.DiedBy t)
  | superseded {t : Nat} {x x' : Txn ρ} {v : Version α} (hv : v ∈ s.chain r)
      (hx : s.txn t = some x) (hactive : x.status = .active) (hx' : s'.txn t = some x')
      (hr : r ∈ x'.writes)
      (hfree : v.died = none ∨
        ∃ a y, v.DiedBy a ∧ s.txn a = some y ∧ y.status = .aborted)
      (hsees : s.SeesBirth t x.beginTs v) (heq : v' = { v with died := some (.tx t) })
  | restored {t : Nat} {x : Txn ρ} {v : Version α} (hev : ev = .undo t) (hv : v ∈ s.chain r)
      (hx : s.txn t = some x) (hactive : x.status = .active) (hdied : v.DiedBy t)
      (heq : v' = { v with died := none })
  | stamped {t e : Nat} {x : Txn ρ} {v : Version α} (hv : v ∈ s.chain r)
      (hx : s.txn t = some x) (he : x.status = .committed e) (heq : v' = v.stamp t e)
  | wiped {t : Nat} {x : Txn ρ} {v : Version α} (hv : v ∈ s.chain r)
      (hx : s.txn t = some x) (haborted : x.status = .aborted)
      (hdrained : x.dependents = []) (heq : v' = v.wipe t)

inductive Fate (s : State ρ α) (ev : Event ρ α) (s' : State ρ α) (r : ρ) (v : Version α) :
    Prop where
  | kept (hv : v ∈ s'.chain r)
  | superseded {t : Nat} {x : Txn ρ} (hx : s.txn t = some x) (hactive : x.status = .active)
      (hfree : v.died = none ∨
        ∃ a y, v.DiedBy a ∧ s.txn a = some y ∧ y.status = .aborted)
      (hsees : s.SeesBirth t x.beginTs v) (hv : { v with died := some (.tx t) } ∈ s'.chain r)
  | restored {t : Nat} {x : Txn ρ} (hev : ev = .undo t) (hx : s.txn t = some x)
      (hactive : x.status = .active) (hdied : v.DiedBy t)
      (hv : { v with died := none } ∈ s'.chain r)
  | dropped {t : Nat} {x : Txn ρ} (hev : ev = .undo t) (hx : s.txn t = some x)
      (hactive : x.status = .active) (hown : v.BornBy t ∨ v.born = none ∧ v.DiedBy t)
  | stamped {t e : Nat} {x : Txn ρ} (hx : s.txn t = some x) (he : x.status = .committed e)
      (hv : v.stamp t e ∈ s'.chain r)
  | wiped {t : Nat} {x : Txn ρ} (hx : s.txn t = some x) (haborted : x.status = .aborted)
      (hdrained : x.dependents = []) (hv : v.wipe t ∈ s'.chain r)
  | collected (hidle : ∀ t, s'.txn t = none)

theorem Step.chain_cases (hs : Step clash tracked s ev s') {v' : Version α}
    (hv' : v' ∈ s'.chain r) :
    Origin s ev s' r v' := by
  cases hs with
  | skip | tick | begin | depend | prepare | validate | commit | release | abort | cascade
  | retire => exact .kept hv'
  | @install t x q v older newer writes hx hactive hchain hid hmark hnewer hwrites =>
    rcases mem_update_insert (by simp [hchain]) (by simp [hchain]) hv' with ⟨rfl, rfl⟩ | hv'
    · have hx' : update s.txn t (some { x with writes := writes }) t = _ := update_self ..
      exact .installed hx hactive hx' ((hwrites r).2 (.inl rfl)) hid hmark
    · exact .kept hv'
  | @supersede t x q v older newer writes hx hactive hchain hfree hsees hnewer hwrites =>
    rcases mem_update_insert (by simp [hchain]) (by simp [hchain]) hv' with ⟨rfl, rfl⟩ | hv'
    · have hx' : update s.txn t (some { x with writes := writes }) t = _ := update_self ..
      exact .superseded (hchain ▸ mem_append_right _ mem_cons_self) hx hactive hx'
        ((hwrites r).2 (.inl rfl)) hfree hsees rfl
    · exact .kept hv'
  | @undo t x chain' writes hx hactive hchain =>
    rcases (hchain r).back v' hv' with hv | ⟨u, hu, hdied, rfl⟩
    · exact .kept hv
    · exact .restored rfl hu hx hactive hdied rfl
  | @stamp t e x q hx he =>
    rcases mem_update hv' with ⟨rfl, hmap⟩ | hv'
    · obtain ⟨v, hv, rfl⟩ := mem_map.1 hmap
      exact .stamped hv hx he rfl
    · exact .kept hv'
  | @wipe t x q hx haborted hdrained =>
    rcases mem_update hv' with ⟨rfl, hmap⟩ | hv'
    · obtain ⟨v, hv, rfl⟩ := mem_map.1 hmap
      exact .wiped hv hx haborted hdrained rfl
    · exact .kept hv'
  | collect _ hchain => exact .kept ((hchain r).subset hv')

theorem Step.chain_forward (hs : Step clash tracked s ev s') (hv : v ∈ s.chain r) :
    Fate s ev s' r v := by
  cases hs with
  | skip | tick | begin | depend | prepare | validate | commit | release | abort | cascade
  | retire => exact .kept hv
  | @install t x q u older newer writes hx hactive hchain =>
    refine .kept ?_
    by_cases hr : r = q
    · subst hr
      rw [hchain, mem_append] at hv
      simp only [update_self, mem_append]
      tauto
    · simpa [update_of_ne hr] using hv
  | @supersede t x q u older newer writes hx hactive hchain hfree hsees hnewer hwrites =>
    by_cases hr : r = q
    · subst hr
      rw [hchain, mem_append, mem_cons] at hv
      have hmem : ∀ w, w ∈ older ∨ w = { u with died := some (.tx t) } ∨ w ∈ newer →
          w ∈ update s.chain r
            (older ++ { u with died := some (.tx t) } :: newer) r := by
        intro w hw
        simpa using hw
      rcases hv with hv | rfl | hv
      · exact .kept (hmem v (.inl hv))
      · exact .superseded hx hactive hfree hsees (hmem _ (.inr (.inl rfl)))
      · exact .kept (hmem v (.inr (.inr hv)))
    · exact .kept (by simpa [update_of_ne hr] using hv)
  | undo hx hactive hchain =>
    rcases (hchain r).forth v hv with hv | ⟨hdied, hv⟩ | hborn | ⟨hborn, hdied⟩
    · exact .kept hv
    · exact .restored rfl hx hactive hdied hv
    · exact .dropped rfl hx hactive (.inl hborn)
    · exact .dropped rfl hx hactive (.inr ⟨hborn, hdied⟩)
  | @stamp t e x q hx he =>
    by_cases hr : r = q
    · subst hr
      refine .stamped hx he ?_
      simp only [update_self, List.mem_map]
      exact ⟨v, hv, rfl⟩
    · exact .kept (by simpa [update_of_ne hr] using hv)
  | @wipe t x q hx haborted hdrained =>
    by_cases hr : r = q
    · subst hr
      refine .wiped hx haborted hdrained ?_
      simp only [update_self, List.mem_map]
      exact ⟨v, hv, rfl⟩
    · exact .kept (by simpa [update_of_ne hr] using hv)
  | collect hidle => exact .collected hidle

end MultiVersion
