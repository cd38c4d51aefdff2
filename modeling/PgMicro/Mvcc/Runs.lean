import PgMicro.Mvcc.ExecRefinement

/-!
# Runs of the store

Every action refines the protocol, so the protocol's invariant holds in every state that a run
reaches from a store at rest.
-/

namespace PgMicro.Mvcc

open MultiVersion Function List MvStore Option

variable {κ η : Type} {clash : RowID κ → RowID κ → Prop} {seed : Nat} {w w' : World κ η}
  {u : TxID} {a : Action κ η}

/-- Both fields of the version are timestamps up to `ts`, in order. -/
structure RowVersion.SettledBy (ts : Nat) (rv : RowVersion κ) : Prop where
  begin_ : ∀ ref, rv.begin_ = some ref → ∃ b, ref = .timestamp b ∧ b ≤ ts
  end_ : ∀ ref, rv.end_ = some ref → ∃ e, ref = .timestamp e ∧ e ≤ ts ∧
    ∀ b, rv.begin_ = some (.timestamp b) → b ≤ e

structure World.Init (w : World κ η) : Prop where
  txs : ∀ t, w.store.txs t = none
  commits : ∀ t, w.commits t = none
  rollbacks : ∀ t, w.rollbacks t = none
  history : ∀ t, w.history t = none
  published : w.published = []
  lastWrite : ∀ t id, w.lastWrite t id = none
  lock : w.store.blockingCheckpointLock = .new
  seeded : w.store.lastCommittedTxTs < w.store.clock
  settled : ∀ id, ∀ rv ∈ w.store.rows id, rv.SettledBy w.store.lastCommittedTxTs
  nodup : ∀ id, ((w.store.rows id).map RowVersion.id).Nodup
  counted : ∀ id, ∀ rv ∈ w.store.rows id, rv.id < w.store.versionIdCounter

theorem World.init_opened (header : η) (btree : RowID κ → Option (Row κ)) (boundary : Nat) :
    (opened header btree boundary).Init where
  txs _ := rfl
  commits _ := rfl
  rollbacks _ := rfl
  history _ := rfl
  published := rfl
  lastWrite _ _ := rfl
  lock := rfl
  seeded := Nat.succ_pos boundary
  settled _ _ hrv := absurd hrv not_mem_nil
  nodup _ := nodup_nil
  counted _ _ hrv := absurd hrv not_mem_nil

structure World.Sound (clash : RowID κ → RowID κ → Prop) (seed : Nat) (w : World κ η) : Prop where
  coherent : Coherent clash IntKeyed (w.toState seed)
  control : w.Control seed

theorem RowVersion.SettledBy.bornAt {ts b : Nat} {rv : RowVersion κ} (h : rv.SettledBy ts)
    (hb : rv.toVersion.BornAt b) : rv.begin_ = some (.timestamp b) ∧ b ≤ ts := by
  obtain ⟨ref, href, heq⟩ := map_eq_some_iff.1 hb
  obtain ⟨b', rfl, hle⟩ := h.begin_ ref href
  cases heq
  exact ⟨href, hle⟩

theorem World.Init.initial (h : w.Init) : Initial (w.toState w.store.lastCommittedTxTs) where
  idle t := by simp only [toState, MvStore.toState, toTxns, h.txs t, Option.map_none]
  blank t := by
    simp [toState, MvStore.toState, ghosts, h.history t]
  noEffect t r := h.lastWrite t r
  seed_lt := h.seeded
  numbered := by
    refine ⟨fun r => ?_, fun r v hv => ?_⟩
    · simp only [toState, MvStore.toState, toChains, List.map_map]
      exact h.nodup r
    · obtain ⟨rv, hrv, rfl⟩ := mem_map.1 hv
      exact h.counted r rv hrv
  unmentioned r v hv t hm := by
    obtain ⟨rv, hrv, rfl⟩ := mem_map.1 hv
    have hs := h.settled r rv hrv
    rcases hm with hm | hm
    · obtain ⟨b, heq, -⟩ := hs.begin_ _ (RowVersion.bornBy_iff.1 hm)
      cases heq
    · obtain ⟨e, heq, -⟩ := hs.end_ _ (RowVersion.diedBy_iff.1 hm)
      cases heq
  born_le r v hv ts hts := by
    obtain ⟨rv, hrv, rfl⟩ := mem_map.1 hv
    exact ((h.settled r rv hrv).bornAt hts).2
  died_le r v hv ts hts := by
    obtain ⟨rv, hrv, rfl⟩ := mem_map.1 hv
    have hs := h.settled r rv hrv
    obtain ⟨ref, href, heq⟩ := Option.map_eq_some_iff.1 hts
    obtain ⟨e, rfl, hle, horder⟩ := hs.end_ ref href
    cases heq
    refine ⟨hle, ?_⟩
    cases hb : rv.begin_ with
    | none => exact .inl (by simp [RowVersion.toVersion, hb])
    | some ref =>
      obtain ⟨b, rfl, -⟩ := hs.begin_ ref hb
      refine .inr ⟨b, ?_, horder b hb⟩
      simp [Version.BornAt, RowVersion.toVersion, hb, TxTimestampOrID.toStamp]

theorem World.Init.sound (h : w.Init) : w.Sound clash w.store.lastCommittedTxTs where
  coherent := h.initial.coherent
  control := by
    refine ⟨fun t => ⟨fun tx htx => ?_, fun sm hsm => ?_, fun rb hrb => ?_, fun tx htx => ?_⟩, ?_⟩
    · rw [h.txs t] at htx
      cases htx
    · rw [h.commits t] at hsm
      cases hsm
    · rw [h.rollbacks t] at hrb
      cases hrb
    · rw [h.txs t] at htx
      cases htx
    · refine ⟨by rw [h.lock]; rfl, ?_⟩
      simp [h.lock, h.txs, TursoRwLock.new]

variable {as : List (Action κ η)}

inductive World.CommitsAside (w : World κ η) (a : Action κ η) (w' : World κ η) : Prop where
  | same (h : w'.commits = w.commits)
  | started {t : TxID} {schema : Bool} (hnone : w.commits t = none)
      (h : w'.commits = update w.commits t (some ⟨.initial, schema, [], none⟩))
  | abandoned {t : TxID} (ha : a = .rollbackTx t) (hroll : w.store.isTxRollbackable t = true)
      (h : w'.commits = update w.commits t none)

structure World.Aside (w : World κ η) (a : Action κ η) (w' : World κ η) : Prop where
  history : w'.history = w.history
  published : w'.published = w.published
  commits : w.CommitsAside a w'

theorem World.Aside.of_eq (h : (w'.history, w'.published, w'.commits) =
    (w.history, w.published, w.commits)) : w.Aside a w' := by
  simp only [Prod.mk.injEq] at h
  exact ⟨h.1, h.2.1, .same h.2.2⟩

theorem World.Aside.goes_on (h : w.Aside a w') {sm : CommitStateMachine κ η}
    (hsm : w.commits u = some sm) :
    w'.commits u = some sm ∨ (a = .rollbackTx u ∧ w.store.isTxRollbackable u = true) := by
  cases h.commits with
  | same h => exact .inl (h ▸ hsm)
  | @started t schema hnone h =>
    have hne : u ≠ t := by
      rintro rfl
      rw [hnone] at hsm
      cases hsm
    exact .inl (by rw [h, update_of_ne hne, hsm])
  | @abandoned t ha hroll h =>
    rcases eq_or_ne u t with rfl | hne
    · exact .inr ⟨ha, hroll⟩
    · exact .inl (by rw [h, update_of_ne hne, hsm])

variable [DecidableEq κ] [IndexKey κ]

theorem World.Sound.exec (h : w.Sound clash seed) (hcover : w.store.Covers clash)
    (hexec : w.exec a = some w') :
    w'.Sound clash seed ∧ ∃ evs, Path clash IntKeyed (w.toState seed) evs (w'.toState seed) ∧
      a.Allows evs := by
  obtain ⟨evs, hrefines, hallows⟩ := exec_refines h.coherent h.control hcover hexec
  exact ⟨⟨hrefines.coherent h.coherent, hrefines.control h.coherent h.control⟩, evs,
    hrefines.path, hallows⟩

theorem World.exec_aside (hexec : w.exec a = some w') (ha : ∀ t, a ≠ .commitStep t) :
    w.Aside a w' := by
  have hop : ∀ {α : Type} {t : TxID} {op : Except Failure (MvStore κ η × α)},
      w.runOp t op = some w' → w.Aside a w' := by
    intro α t op h
    unfold runOp at h
    split at h
    · split at h <;> cases h
      exact .of_eq rfl
    · cases h
  have hwrite : ∀ {t : TxID} {id : RowID κ} {value : Option (Row κ)}
      {op : Except Failure (MvStore κ η × Except LimboError Bool)},
      w.runWrite t id value op = some w' → w.Aside a w' := by
    intro t id value op h
    unfold runWrite at h
    split at h
    · split at h <;> cases h <;> exact .of_eq rfl
    · cases h
  cases a with
  | commitStep t => exact absurd rfl (ha t)
  | queryBtreeVersionIsValid | withHeaderMut | beginSavepoint | beginNamedSavepoint
  | releaseNamedSavepoint | rollbackFirstSavepoint
  | rollbackToNamedSavepoint => exact hop hexec
  | releaseSavepoint t =>
    simp only [exec] at hexec
    exact hop hexec
  | insert | insertTombstone | insertBtreeResident | update | delete => exact hwrite hexec
  | beginTx =>
    simp only [exec] at hexec
    split at hexec <;> cases hexec
    exact .of_eq rfl
  | beginExclusiveTx =>
    cases hexec
    exact .of_eq rfl
  | upgradeToExclusiveTx t =>
    simp only [exec] at hexec
    split at hexec
    · split at hexec <;> cases hexec
      exact .of_eq rfl
    · cases hexec
  | read t id =>
    obtain ⟨⟨w1, row⟩, hread, rfl⟩ := map_eq_some_iff.1 hexec
    unfold read at hread
    split at hread
    · split at hread <;> cases hread
      exact .of_eq rfl
    · cases hread
  | commitTx t b =>
    simp only [exec] at hexec
    split at hexec
    next hrunning =>
      cases hexec
      refine ⟨rfl, rfl, .started ?_ rfl⟩
      simp only [isRunning, Bool.and_eq_true, isNone_iff_eq_none] at hrunning
      exact hrunning.2
    · cases hexec
  | rollbackTx t =>
    simp only [exec, rollbackTx] at hexec
    split at hexec
    next hroll =>
      cases hexec
      exact ⟨rfl, rfl, .abandoned rfl hroll rfl⟩
    · cases hexec
  | rollbackStep t =>
    obtain ⟨rb, -, hstep⟩ := bind_eq_some_iff.1 hexec
    split at hstep
    · cases hstep
      exact .of_eq rfl
    · cases hstep
      exact .of_eq rfl
    · obtain ⟨s, -, rfl⟩ := map_eq_some_iff.1 hstep
      exact .of_eq rfl
  | checkpoint old rewrite =>
    simp only [exec] at hexec
    split at hexec
    · split at hexec <;> cases hexec
      exact .of_eq rfl
    · cases hexec

theorem World.Sound.run (h : w.Sound rowClash seed) (hrun : w.run as = some w') :
    w'.Sound rowClash seed :=
  Transition.run_preserves (fun _ h hexec => (h.exec (covers_rowClash _) hexec).1)
    (Transition.meets_of_forall fun _ _ _ => trivial) h hrun

theorem World.Init.run (h : w.Init) (hrun : w.run as = some w') :
    w'.Sound rowClash w.store.lastCommittedTxTs :=
  h.sound.run hrun

end PgMicro.Mvcc
