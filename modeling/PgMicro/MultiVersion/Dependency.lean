import Mathlib.Data.Set.Card
import Mathlib.Order.Interval.Finset.Nat
import Mathlib.Order.Interval.Set.Infinite
import PgMicro.MultiVersion.Ownership

/-!
# Commit dependencies

The counter of a transaction is the number of transactions it waits for; it commits when
the counter is zero, and then everything it ever depended on has committed.
-/

namespace MultiVersion

open State Version Function List Option

variable {ρ α : Type} {clash : ρ → ρ → Prop} {tracked : ρ → Prop} {ev : Event ρ α}
  {s s' : State ρ α} {x y z' x' y' : Txn ρ} {t d u c : Nat} {aborted : Bool}

/-- The transactions that `t` waits for. -/
def State.waitsOn (s : State ρ α) (t : Nat) : Set Nat :=
  {d | ∃ y, s.txn d = some y ∧ t ∈ y.dependents}

structure SameDeps (x x' : Txn ρ) : Prop where
  dependents : x'.dependents = x.dependents
  pending : x'.pending = x.pending
  registered : x'.registered = x.registered
  abortNow : x'.abortNow = x.abortNow

inductive DepStep (s s' : State ρ α) : Prop where
  | frame (hback : ∀ d y', s'.txn d = some y' →
        (∃ y, s.txn d = some y ∧ SameDeps y y') ∨ (d = s.nextTxn ∧ y' = .fresh s.clock))
      (hforth : ∀ d y, s.txn d = some y → y.dependents ≠ [] →
        ∃ y', s'.txn d = some y' ∧ y'.dependents = y.dependents)
  | depend {t d e : Nat} {x y : Txn ρ} (hx : s.txn t = some x) (hactive : x.status = .active)
      (hy : s.txn d = some y) (he : y.status = .preparing e) (hlt : e < x.beginTs)
      (hnew : t ∉ y.dependents) (hmark : ∃ r, ∃ v ∈ s.chain r, v.Mentions d)
      (htxn : s'.txn = update
        (update s.txn d (some { y with dependents := t :: y.dependents })) t
        (some { x with pending := x.pending + 1, registered := d :: x.registered }))
  | settle {d : Nat} {y : Txn ρ} (aborted : Bool) (hy : s.txn d = some y)
      (hended : if aborted then y.status = .aborted else ∃ e, y.status = .committed e)
      (htxn : s'.txn = s.settle d y aborted)

theorem SameDeps.refl (x : Txn ρ) : SameDeps x x := ⟨rfl, rfl, rfl, rfl⟩

theorem DepStep.of_update (hx : s.txn t = some x) (htxn : s'.txn = update s.txn t (some x'))
    (hsame : SameDeps x x') : DepStep s s' := by
  refine .frame ?_ ?_
  · intro d y' hy'
    rcases update_eq_some (htxn ▸ hy') with ⟨rfl, rfl⟩ | ⟨-, hy'⟩
    · exact .inl ⟨x, hx, hsame⟩
    · exact .inl ⟨y', hy', .refl _⟩
  · intro d y hy _
    rw [htxn]
    by_cases hd : d = t
    · subst hd
      rw [hx, some.injEq] at hy
      exact ⟨x', update_self .., hy ▸ hsame.dependents⟩
    · exact ⟨y, (update_of_ne hd ..).trans hy, rfl⟩

theorem DepStep.of_txn_eq (htxn : s'.txn = s.txn) : DepStep s s' :=
  .frame (fun _ y' hy' => .inl ⟨y', htxn ▸ hy', .refl _⟩)
    (fun _ y hy _ => ⟨y, htxn ▸ hy, rfl⟩)

section

variable [DecidableEq ρ]

theorem Step.depStep (hs : Step clash tracked s ev s') (ht : Timely s) : DepStep s s' := by
  cases hs with
  | skip | tick | stamp | wipe | collect => exact .of_txn_eq rfl
  | begin =>
    refine .frame ?_ ?_
    · intro d y' hy'
      rcases update_eq_some hy' with ⟨rfl, rfl⟩ | ⟨-, hy'⟩
      · exact .inr ⟨rfl, rfl⟩
      · exact .inl ⟨y', hy', .refl _⟩
    · intro d y hy _
      have hd : d ≠ s.nextTxn := (ht.txn_lt d y hy).1.ne
      exact ⟨y, (update_of_ne hd ..).trans hy, rfl⟩
  | depend hx hactive hy he hlt hnew hmark =>
    exact .depend hx hactive hy he hlt hnew hmark rfl
  | install hx | supersede hx | undo hx | prepare hx | validate hx | commit hx | abort hx =>
    exact .of_update hx rfl ⟨rfl, rfl, rfl, rfl⟩
  | release hx he => exact .settle false hx ⟨_, he⟩ rfl
  | cascade hx haborted => exact .settle true hx haborted rfl
  | @retire t x hx hended hdrained hgone =>
    refine .frame ?_ ?_
    · intro d y' hy'
      by_cases hd : d = t
      · subst hd
        simp only [update_self, reduceCtorEq] at hy'
      · simp only [update_of_ne hd] at hy'
        exact .inl ⟨y', hy', .refl _⟩
    · intro d y hy hne
      have hd : d ≠ t := by
        rintro rfl
        rw [hx, some.injEq] at hy
        exact hne (hy ▸ hdrained)
      exact ⟨y, (update_of_ne hd ..).trans hy, rfl⟩

end

/-- How the dependents of the transaction `d` may change in one step. -/
inductive DependentsStep (s : State ρ α) (d : Nat) (y y' : Txn ρ) : Prop where
  | same (h : y'.dependents = y.dependents)
  | drained (h : y'.dependents = [])
  | grow {t e : Nat} {x : Txn ρ} (hx : s.txn t = some x) (hactive : x.status = .active)
      (he : y.status = .preparing e) (hlt : e < x.beginTs) (hnew : t ∉ y.dependents)
      (hmark : ∃ r, ∃ v ∈ s.chain r, v.Mentions d) (h : y'.dependents = t :: y.dependents)

theorem DepStep.dependents (h : DepStep s s') (hz' : s'.txn c = some z') :
    (c = s.nextTxn ∧ z' = .fresh s.clock) ∨ ∃ z, s.txn c = some z ∧ DependentsStep s c z z' := by
  cases h with
  | frame hback _ =>
    rcases hback c z' hz' with ⟨z, hz, hsame⟩ | hfresh
    · exact .inr ⟨z, hz, .same hsame.dependents⟩
    · exact .inl hfresh
  | @depend t d e x y hx hactive hy he hlt hnew hmark htxn =>
    right
    rcases update_eq_some (htxn ▸ hz') with ⟨rfl, rfl⟩ | ⟨-, hz'⟩
    · exact ⟨x, hx, .same rfl⟩
    · rcases update_eq_some hz' with ⟨rfl, rfl⟩ | ⟨-, hz'⟩
      · exact ⟨y, hy, .grow hx hactive he hlt hnew hmark rfl⟩
      · exact ⟨z', hz', .same rfl⟩
  | @settle d y aborted hy _ htxn =>
    right
    rw [htxn] at hz'
    by_cases hcd : c = d
    · subst hcd
      rw [settle_self, some.injEq] at hz'
      exact ⟨y, hy, .drained (hz' ▸ rfl)⟩
    · rw [settle_of_ne hcd, map_eq_some_iff] at hz'
      obtain ⟨z, hz, rfl⟩ := hz'
      refine ⟨z, hz, .same ?_⟩
      split <;> rfl

section

theorem waitsOn_frame (hback : ∀ d y', s'.txn d = some y' →
      (∃ y, s.txn d = some y ∧ SameDeps y y') ∨ (d = s.nextTxn ∧ y' = .fresh s.clock))
    (hforth : ∀ d y, s.txn d = some y → y.dependents ≠ [] →
      ∃ y', s'.txn d = some y' ∧ y'.dependents = y.dependents) :
    s'.waitsOn u = s.waitsOn u := by
  ext d
  constructor
  · rintro ⟨y', hy', hu⟩
    rcases hback d y' hy' with ⟨y, hy, hsame⟩ | ⟨-, rfl⟩
    · exact ⟨y, hy, hsame.dependents ▸ hu⟩
    · cases hu
  · rintro ⟨y, hy, hu⟩
    obtain ⟨y', hy', heq⟩ := hforth d y hy (ne_nil_of_mem hu)
    exact ⟨y', hy', heq ▸ hu⟩

theorem waitsOn_depend (hx : s.txn t = some x) (hy : s.txn d = some y) (hne : t ≠ d)
    (htxn : s'.txn = update
      (update s.txn d (some { y with dependents := t :: y.dependents })) t
      (some { x with pending := x.pending + 1, registered := d :: x.registered })) :
    s'.waitsOn u = if u = t then insert d (s.waitsOn u) else s.waitsOn u := by
  have hmem : ∀ c, c ∈ s'.waitsOn u ↔ (c = d ∧ u = t) ∨ c ∈ s.waitsOn u := by
    intro c
    simp only [waitsOn, htxn]
    by_cases hct : c = t
    · subst hct
      simp [hx, hne]
    · by_cases hcd : c = d
      · subst hcd
        simp [update_of_ne hct, hy]
      · simp [update_of_ne hct, hcd]
  ext c
  split
  · simp_all
  · simp_all

theorem waitsOn_settle (hy : s.txn d = some y) (htxn : s'.txn = s.settle d y aborted) :
    s'.waitsOn u = s.waitsOn u \ {d} := by
  ext c
  simp only [waitsOn, Set.mem_ofPred_eq, htxn, Set.mem_sdiff, Set.mem_singleton_iff]
  by_cases hcd : c = d
  · subst hcd
    simp [settle_self]
  simp only [settle_of_ne hcd, map_eq_some_iff, hcd, not_false_eq_true, and_true]
  constructor
  · rintro ⟨y', ⟨z, hz, rfl⟩, hu⟩
    refine ⟨z, hz, ?_⟩
    split at hu <;> exact hu
  · rintro ⟨z, hz, hu⟩
    refine ⟨_, ⟨z, hz, rfl⟩, ?_⟩
    split <;> exact hu

end

structure Dependable (s : State ρ α) : Prop where
  nodup : ∀ d y, s.txn d = some y → y.dependents.Nodup
  idle : ∀ d y, s.txn d = some y → y.status = .active → y.dependents = []
  before : ∀ d y t x e, s.txn d = some y → t ∈ y.dependents → s.txn t = some x →
    y.status = .preparing e ∨ y.status = .committed e → e < x.beginTs
  irrefl : ∀ d y, s.txn d = some y → d ∉ y.dependents
  known : ∀ d y t, s.txn d = some y → t ∈ y.dependents → t < s.nextTxn
  writer : ∀ d y, s.txn d = some y → y.dependents ≠ [] → y.writes ≠ []
  pending : ∀ t x, s.txn t = some x → x.pending = (s.waitsOn t).ncard
  settled : ∀ t x e, s.txn t = some x → x.status = .committed e →
    s.waitsOn t = ∅ ∧ x.abortNow = false
  registered : ∀ t x d, s.txn t = some x → d ∈ x.registered →
    (∃ h, s.history d = some h) ∨ x.abortNow = true ∨ d ∈ s.waitsOn t

namespace Dependable

theorem finite_waitsOn (ht : Timely s) (t : Nat) : (s.waitsOn t).Finite := by
  refine (Set.finite_Iio s.nextTxn).subset ?_
  rintro d ⟨y, hy, -⟩
  exact (ht.txn_lt d y hy).1

theorem waitsOn_eq_empty (h : Dependable s) (ht : Timely s) (hx : s.txn t = some x)
    (hpending : x.pending = 0) : s.waitsOn t = ∅ := by
  rw [h.pending t x hx, Set.ncard_eq_zero (finite_waitsOn ht t)] at hpending
  exact hpending

variable [DecidableEq ρ]

theorem change_of_txn (ht : Timely s) (hs : Step clash tracked s ev s') (hy' : s'.txn d = some y') :
    (d = s.nextTxn ∧ y' = .fresh s.clock) ∨
      ∃ y, s.txn d = some y ∧ TxnChange s ev d y y' ∧ DependentsStep s d y y' := by
  rcases (hs.depStep ht).dependents hy' with hfresh | ⟨y, hy, hdep⟩
  · exact .inl hfresh
  · exact .inr ⟨y, hy, hs.changed ht.fresh hy hy', hdep⟩

theorem dependent_cases (ht : Timely s) (hs : Step clash tracked s ev s') (hy' : s'.txn d = some y')
    (hu : u ∈ y'.dependents) :
    ∃ y, s.txn d = some y ∧ TxnChange s ev d y y' ∧ (u ∈ y.dependents ∨
      ∃ x e, s.txn u = some x ∧ x.status = .active ∧ y.status = .preparing e ∧ e < x.beginTs ∧
        ∃ r, ∃ v ∈ s.chain r, v.Mentions d) := by
  rcases change_of_txn ht hs hy' with ⟨-, rfl⟩ | ⟨y, hy, hchange, hdep⟩
  · cases hu
  refine ⟨y, hy, hchange, ?_⟩
  cases hdep with
  | same hdep => exact .inl (hdep ▸ hu)
  | drained hdep =>
    rw [hdep] at hu
    cases hu
  | @grow t e x hx hactive he hlt _ hmark hdep =>
    rw [hdep] at hu
    rcases mem_cons.1 hu with rfl | hu
    · exact .inr ⟨x, e, hx, hactive, he, hlt, hmark⟩
    · exact .inl hu

/-- What is said of the counter and of the flag of a transaction. -/
def Counted (s : State ρ α) (t : Nat) (x : Txn ρ) : Prop :=
  x.pending = (s.waitsOn t).ncard ∧
    (∀ e, x.status = .committed e → s.waitsOn t = ∅ ∧ x.abortNow = false) ∧
    ∀ d ∈ x.registered, (∃ h, s.history d = some h) ∨ x.abortNow = true ∨ d ∈ s.waitsOn t

omit [DecidableEq ρ] in
theorem counted (h : Dependable s) (hx : s.txn t = some x) : Counted s t x :=
  ⟨h.pending t x hx, fun e => h.settled t x e hx, fun d => h.registered t x d hx⟩

section

variable (h : Dependable s)

include h

theorem counted_frame (ht : Timely s) (hs : Step clash tracked s ev s')
    (hback : ∀ d y', s'.txn d = some y' →
      (∃ y, s.txn d = some y ∧ SameDeps y y') ∨ (d = s.nextTxn ∧ y' = .fresh s.clock))
    (hwaits : ∀ u, s'.waitsOn u = s.waitsOn u) (hx' : s'.txn t = some x') :
    Counted s' t x' := by
  rw [Counted, hwaits]
  rcases hback t x' hx' with ⟨x, hx, hsame⟩ | ⟨rfl, rfl⟩
  · obtain ⟨hpending, hsettled, hregistered⟩ := h.counted hx
    rw [hsame.pending, hsame.abortNow, hsame.registered]
    refine ⟨hpending, fun e he => ?_, fun d hd => ?_⟩
    · rcases (hs.changed ht.fresh hx hx').committed he with hold | ⟨-, -, -, habort, hnone⟩
      · exact hsettled e hold
      · exact ⟨h.waitsOn_eq_empty ht hx hnone, habort⟩
    · exact (hregistered d hd).imp_left fun ⟨q, hq⟩ => ⟨q, hs.history_mono ht hq⟩
  · have hempty : s.waitsOn s.nextTxn = ∅ := by
      rw [Set.eq_empty_iff_forall_notMem]
      rintro d ⟨y, hy, hmem⟩
      exact absurd (h.known d y _ hy hmem) (Nat.lt_irrefl _)
    rw [hempty, Set.ncard_empty]
    exact ⟨rfl, nofun, nofun⟩

theorem counted_depend (ht : Timely s) (hs : Step clash tracked s ev s') {e : Nat}
    (hx : s.txn t = some x) (hactive : x.status = .active) (hy : s.txn d = some y)
    (he : y.status = .preparing e) (hnew : t ∉ y.dependents) (htxn : s'.txn = update
      (update s.txn d (some { y with dependents := t :: y.dependents })) t
      (some { x with pending := x.pending + 1, registered := d :: x.registered }))
    (hz' : s'.txn c = some z') : Counted s' c z' := by
  have hne := ne_of_active hx hactive hy he nofun
  have hpast {a : Nat} (h : ∃ q, s.history a = some q) : ∃ q, s'.history a = some q :=
    h.imp fun _ hq => hs.history_mono ht hq
  rw [Counted, waitsOn_depend hx hy hne htxn]
  rcases update_eq_some (htxn ▸ hz') with ⟨rfl, rfl⟩ | ⟨hct, hz'⟩
  · obtain ⟨hpending, -, hregistered⟩ := h.counted hx
    have hd : d ∉ s.waitsOn c := by
      rintro ⟨z, hz, hmem⟩
      rw [hy, some.injEq] at hz
      exact hnew (hz ▸ hmem)
    rw [if_pos rfl, Set.ncard_insert_of_notMem hd (finite_waitsOn ht c), ← hpending]
    refine ⟨rfl, fun f hf => ?_, fun a ha => ?_⟩
    · simp only [hactive, reduceCtorEq] at hf
    · rcases mem_cons.1 ha with rfl | ha
      · exact .inr (.inr (Set.mem_insert a _))
      · exact (hregistered a ha).imp hpast (Or.imp_right (Set.mem_insert_of_mem d))
  · obtain ⟨z, hz, hsame⟩ : ∃ z, s.txn c = some z ∧ (z' = z ∨
        z' = { z with dependents := t :: z.dependents }) := by
      rcases update_eq_some hz' with ⟨rfl, rfl⟩ | ⟨-, hz'⟩
      · exact ⟨y, hy, .inr rfl⟩
      · exact ⟨z', hz', .inl rfl⟩
    obtain ⟨hpending, hsettled, hregistered⟩ := h.counted hz
    rw [if_neg hct]
    rcases hsame with rfl | rfl <;>
      exact ⟨hpending, hsettled, fun a ha => (hregistered a ha).imp_left hpast⟩

theorem counted_settle (ht : Timely s) (hs : Step clash tracked s ev s') (hy : s.txn d = some y)
    (hended : if aborted then y.status = .aborted else ∃ e, y.status = .committed e)
    (htxn : s'.txn = s.settle d y aborted) (hz' : s'.txn c = some z') : Counted s' c z' := by
  rw [Counted, waitsOn_settle hy htxn]
  rw [htxn] at hz'
  -- the transactions that do not wait for `d`
  have hapart {z : Txn ρ} (hz : s.txn c = some z) (hnot : d ∉ s.waitsOn c) :
      z.pending = (s.waitsOn c \ {d}).ncard ∧
        (∀ e, z.status = .committed e → s.waitsOn c \ {d} = ∅ ∧ z.abortNow = false) ∧
        ∀ a ∈ z.registered, (∃ q, s'.history a = some q) ∨ z.abortNow = true ∨
          a ∈ s.waitsOn c \ {d} := by
    rw [Set.sdiff_singleton_eq_self hnot]
    obtain ⟨hpending, hsettled, hregistered⟩ := h.counted hz
    exact ⟨hpending, hsettled,
      fun a ha => (hregistered a ha).imp_left fun ⟨q, hq⟩ => ⟨q, hs.history_mono ht hq⟩⟩
  by_cases hcd : c = d
  · subst hcd
    rw [settle_self, some.injEq] at hz'
    subst hz'
    have hself : c ∉ s.waitsOn c := by
      rintro ⟨z, hz, hc⟩
      exact h.irrefl c z hz hc
    have hsame := hapart hy hself
    exact hsame
  · rw [settle_of_ne hcd, map_eq_some_iff] at hz'
    obtain ⟨z, hz, rfl⟩ := hz'
    split
    next hc =>
      have hwait : d ∈ s.waitsOn c := ⟨y, hy, hc⟩
      obtain ⟨hpending, hsettled, hregistered⟩ := h.counted hz
      refine ⟨?_, fun f hf => ?_, fun a ha => ?_⟩
      · rw [Set.ncard_sdiff_singleton_of_mem hwait, ← hpending]
      · rw [(hsettled f hf).1] at hwait
        cases hwait
      · rcases hregistered a ha with ⟨q, hq⟩ | habort | hwaits
        · exact .inl ⟨q, hs.history_mono ht hq⟩
        · exact .inr (.inl (by simp [habort]))
        · by_cases had : a = d
          · subst had
            cases aborted with
            | false =>
              obtain ⟨e, he⟩ := hended
              exact .inl ⟨_, hs.history_mono ht (ht.committed_history a y e hy he)⟩
            | true => exact .inr (.inl (Bool.or_true _))
          · exact .inr (.inr ⟨hwaits, had⟩)
    next hc =>
      refine hapart hz ?_
      rintro ⟨w, hw, hmem⟩
      rw [hy, some.injEq] at hw
      exact hc (hw ▸ hmem)

theorem step (ht : Timely s) (ho : Owned s) (hs : Step clash tracked s ev s') : Dependable s' := by
  have hcounted : ∀ t x', s'.txn t = some x' → Counted s' t x' := by
    intro t x' hx'
    cases hs.depStep ht with
    | frame hback hforth =>
      exact h.counted_frame ht hs hback (fun u => waitsOn_frame hback hforth) hx'
    | depend hx hactive hy he hlt hnew hmark htxn =>
      exact h.counted_depend ht hs hx hactive hy he hnew htxn hx'
    | settle aborted hy hended htxn => exact h.counted_settle ht hs hy hended htxn hx'
  have hknown : ∀ {d y' t}, s'.txn d = some y' → t ∈ y'.dependents → t < s.nextTxn := by
    intro d y' t hy' ht'
    obtain ⟨y, hy, -, hold | ⟨x, e, hx, -⟩⟩ := dependent_cases ht hs hy' ht'
    · exact h.known d y t hy hold
    · exact (ht.txn_lt t x hx).1
  constructor
  case nodup =>
    intro d y' hy'
    rcases change_of_txn ht hs hy' with ⟨-, rfl⟩ | ⟨y, hy, -, hdep⟩
    · exact nodup_nil
    · cases hdep with
      | same hdep => exact hdep ▸ h.nodup d y hy
      | drained hdep => exact hdep ▸ nodup_nil
      | grow _ _ _ _ hnew _ hdep => exact hdep ▸ nodup_cons.2 ⟨hnew, h.nodup d y hy⟩
  case idle =>
    intro d y' hy' hactive
    by_contra hne
    obtain ⟨u, hu⟩ := exists_mem_of_ne_nil _ hne
    obtain ⟨y, hy, hchange, hold | ⟨x, e, -, -, he, -⟩⟩ := dependent_cases ht hs hy' hu
    · rw [h.idle d y hy (hchange.active hactive)] at hold
      cases hold
    · rw [hchange.active hactive] at he
      cases he
  case before =>
    intro d y' t x' e hy' ht' hx' he
    have hlt := hknown hy' ht'
    obtain ⟨y, hy, hchange, hold⟩ := dependent_cases ht hs hy' ht'
    rcases change_of_txn ht hs hx' with ⟨rfl, -⟩ | ⟨x, hx, hchangex, -⟩
    · exact absurd hlt (Nat.lt_irrefl _)
    have hended := hchange.ended he
    rw [hchangex.beginTs]
    rcases hold with hold | ⟨z, f, hz, -, hf, hlt, -⟩
    · rcases hended with hended | ⟨-, hactive, -⟩
      · exact h.before d y t x e hy hold hx hended
      · rw [h.idle d y hy hactive] at hold
        cases hold
    · rw [hx, some.injEq] at hz
      have hfe : f = e := by simpa [hf] using hended
      rw [← hfe, hz]
      exact hlt
  case irrefl =>
    intro d y' hy' hd
    obtain ⟨y, hy, -, hold | ⟨x, e, hx, hactive, he, -⟩⟩ := dependent_cases ht hs hy' hd
    · exact h.irrefl d y hy hold
    · exact absurd rfl (ne_of_active hx hactive hy he nofun)
  case known => exact fun d y' t hy' ht' => (hknown hy' ht').trans_le hs.nextTxn_le
  case writer =>
    intro d y' hy' hne
    obtain ⟨u, hu⟩ := exists_mem_of_ne_nil _ hne
    obtain ⟨y, hy, hchange, hold⟩ := dependent_cases ht hs hy' hu
    suffices hclosed : y.status ≠ .active ∧ y.writes ≠ [] by
      rw [hchange.writes_eq (.inl hclosed.1)]
      exact hclosed.2
    rcases hold with hold | ⟨x, e, -, -, he, -, r, v, hv, hm⟩
    · have hne := ne_nil_of_mem hold
      exact ⟨fun hactive => hne (h.idle d y hy hactive), h.writer d y hy hne⟩
    · obtain ⟨z, hz, hr⟩ := ho.mentions r v hv d hm
      rw [hy, some.injEq] at hz
      exact ⟨by simp [he], ne_nil_of_mem (hz ▸ hr)⟩
  case pending => exact fun t x hx => (hcounted t x hx).1
  case settled => exact fun t x e hx => (hcounted t x hx).2.1 e
  case registered => exact fun t x d hx => (hcounted t x hx).2.2 d

end

end Dependable

end MultiVersion
