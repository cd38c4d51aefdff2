import PgMicro.Mvcc.CommitRefinement

/-!
# The rollback refines the protocol

The phases of `rollback_tx`: mark the transaction aborted, abort its dependents, take its
marks back row by row, and remove it.
-/

namespace PgMicro.Mvcc

open MultiVersion Function Transaction World TransactionState MvStore

variable {κ η : Type} {clash : RowID κ → RowID κ → Prop} {seed : Nat}
  {w w' : World κ η} {t : TxID} {tx : Transaction κ η}
  {g : Ghosts κ} {s : MvStore κ η} {rb rb' : RollbackState κ}

def IsRollback (t : TxID) : Event (RowID κ) (Row κ) → Prop
  | .abort u | .cascade u | .wipe u _ | .retire u => u = t
  | _ => False

theorem IsRollback.actor {ev : Event (RowID κ) (Row κ)} (h : IsRollback t ev) {u : TxID}
    (hu : ev.actor = some u) : u = t := by
  cases ev <;> first
    | exact h.elim
    | exact (Option.some.inj hu).symm.trans h

theorem World.rolling_refines [DecidableEq κ] (hw : w.Control seed) (htx : w.store.txs t = some tx)
    (ev : Event (RowID κ) (Row κ)) (hev : IsRollback t ev)
    (hstep : Step clash IntKeyed (w.toState seed) ev (w'.toState seed))
    (hcommits : ∀ u, u ≠ t → w'.commits u = w.commits u) (hcommit : w'.commits t = none)
    (hrollbacks : w'.rollbacks = update w.rollbacks t (some rb'))
    (hlock : w'.store.blockingCheckpointLock = w.store.blockingCheckpointLock)
    (hothers : ∀ u, u ≠ t →
      (w'.store.txs u).map core = (w.store.txs u).map core)
    {tx' : Transaction κ η} (htx' : w'.store.txs t = some tx') (hid : tx'.txId = tx.txId)
    (hmatch : rb'.Matches (w'.toState seed) t (tx'.toTxn ((w'.ghosts seed).validated t))) :
    w.Refines clash seed t [ev] w' := by
  have hst := hmatch.aborted
  refine hw.refines htx (.single hstep) ?_ (fun u hu => ⟨hothers u hu, hcommits u hu, ?_⟩) hlock
    htx' hid (fun sm hsm => ?_) (fun rb hrb => ?_) (fun hactive => ?_)
  · intro ev' hev' u hu
    exact IsRollback.actor (List.mem_singleton.1 hev' ▸ hev) hu
  · rw [hrollbacks, update_of_ne hu]
  · cases hcommit.symm.trans hsm
  · rw [hrollbacks, update_self, Option.some.injEq] at hrb
    exact hrb ▸ hmatch
  · simp [toTxn, hactive, toStatus] at hst

theorem MvStore.abort_step [DecidableEq κ] (htx : s.txs t = some tx)
    (hopen : tx.state = .active ∨ ∃ e, tx.state = .preparing e) :
    Step clash IntKeyed (s.toState g) (.abort t)
      ((s.modifyTx t fun tx => { tx with state := .aborted }).toState (g.phase t false)) := by
  have hopen' : (tx.toTxn (g.validated t)).status = .active ∨
      ∃ e, (tx.toTxn (g.validated t)).status = .preparing e := by
    rcases hopen with hst | ⟨e, hst⟩
    · exact .inl (congrArg toStatus hst)
    · exact .inr ⟨e, congrArg toStatus hst⟩
  have hstep : Step clash IntKeyed (s.toState g) (.abort t) _ :=
    Step.abort _ (txn_of_txs htx) hopen'
  have htxns : toTxns (g.phase t false)
      (update s.txs t (some { tx with state := .aborted })) =
      update (toTxns g s.txs) t
        (some ({ tx with state := .aborted }.toTxn false)) := by
    rw [toTxns_update, toTxns_phase htx, update_idem]
    simp [Ghosts.phase]
  rw [modifyTx_eq htx]
  simp only [toState, htxns]
  exact hstep

theorem World.ghosts_abandoned (w : World κ η) (s : MvStore κ η)
    (rollbacks : TxID → Option (RollbackState κ)) :
    ghosts seed { w with
      store := s
      commits := update w.commits t none
      rollbacks := rollbacks } = (w.ghosts seed).phase t false := by
  simp only [ghosts, Ghosts.phase, Ghosts.mk.injEq, and_true]
  funext u
  by_cases hu : u = t
  · subst hu
    simp
  · simp [update_of_ne hu]

theorem World.rollbackTx_refines [DecidableEq κ] (hw : w.Control seed)
    (hstep : w.rollbackTx t = some w') : w.Refines clash seed t [.abort t] w' := by
  unfold rollbackTx at hstep
  split at hstep
  next hopen =>
    cases hstep
    cases htx : w.store.txs t with
    | none => simp [isTxRollbackable, htx] at hopen
    | some tx =>
      have hopen' : tx.state = .active ∨ ∃ e, tx.state = .preparing e := by
        simp only [isTxRollbackable] at hopen
        cases hst : tx.state <;> simp_all
      have haborted := modifyTx_eq (f := fun tx => { tx with state := .aborted }) htx
      have htx1 : (w.store.modifyTx t fun tx => { tx with state := .aborted }).txs t =
          some { tx with state := .aborted } :=
        (congrFun (congrArg txs haborted) t).trans (update_self ..)
      have hsame := (w.store.modifyTx t fun tx =>
        { tx with state := .aborted }).unlockCommitLockIfHeld_same t
      obtain ⟨held, htx'⟩ := hsame.own _ htx1
      have hstep : Step clash IntKeyed (w.toState seed) (.abort t) _ :=
        abort_step htx hopen'
      rw [← hsame.toState_eq htx1, ← ghosts_abandoned] at hstep
      refine rolling_refines hw htx (.abort t) rfl hstep
        (fun u hu => update_of_ne hu ..) (update_self ..) rfl hsame.lock ?_ htx'
        rfl rfl
      intro u hu
      rw [hsame.others u hu, haborted]
      exact congrArg _ (update_of_ne hu ..)
  · cases hstep

theorem World.rollbackStep_refines [DecidableEq κ] (hc : Coherent clash IntKeyed (w.toState seed))
    (hw : w.Control seed) (hstep : w.rollbackStep t = some w') :
    ∃ ev, IsRollback t ev ∧ w.Refines clash seed t [ev] w' := by
  obtain ⟨rb, hrb, hstep⟩ := Option.bind_eq_some_iff.1 hstep
  obtain ⟨x, hx, hmatch⟩ := (hw.each t).rollback rb hrb
  obtain ⟨tx, htx, rfl⟩ := MvStore.txs_of_txn hx
  have hcommit : w.commits t = none := by
    cases hsm : w.commits t with
    | none => rfl
    | some sm =>
      obtain ⟨tx', h⟩ := committing hc hw hsm
      rw [h.rollback] at hrb
      cases hrb
  cases rb with
  | notifyDependents =>
    cases hstep
    have hst : tx.state.toStatus = .aborted := hmatch
    have hcascade : Step clash IntKeyed (w.toState seed) (.cascade t) _ :=
      MvStore.drainCommitDepSet_cascade hc htx hst
    obtain ⟨tx', htx', hcore⟩ := (w.store.drainCommitDepSet_frame t true).forth htx
    have hsame := (w.store.drainCommitDepSet t true).releaseIfExclusive_same t
    obtain ⟨held, htx''⟩ := hsame.own tx' htx'
    rw [← hsame.toState_eq htx'] at hcascade
    have hid := congrArg txId hcore
    have hst' := congrArg state hcore
    refine ⟨.cascade t, rfl, rolling_refines hw htx (.cascade t) rfl hcascade
      (fun _ _ => rfl) hcommit rfl (hsame.lock.trans (w.store.drainCommitDepSet_lock t true)) ?_
      htx'' (show tx'.txId = tx.txId from hid) ?_⟩
    · intro u hu
      rw [hsame.others u hu]
      exact w.store.drainCommitDepSet_frame t true u
    · refine ⟨?_, w.store.drainCommitDepSet_drained hc htx htx', ?_⟩
      · exact (congrArg toStatus (show tx'.state = tx.state from hst')).trans hst
      · intro r hr v hv hm
        rw [toState, hsame.toState_eq htx', MvStore.toState,
          w.store.drainCommitDepSet_rows t true] at hv
        obtain ⟨y, hy, hmem⟩ := hc.owned.mentions r v hv t hm
        rw [hx, Option.some.injEq] at hy
        subst hy
        rw [htx] at hr
        exact hr hmem
  | rollbackRows ids =>
    obtain ⟨hst, hdrained, hmarked⟩ := hmatch
    cases ids with
    | cons id ids =>
      cases hstep
      have hwipe : Step clash IntKeyed (w.toState seed) (.wipe t id) _ :=
        MvStore.rollbackRowid_step htx hst hdrained id
      refine ⟨.wipe t id, rfl, rolling_refines hw htx (.wipe t id) rfl hwipe
        (fun _ _ => rfl) hcommit rfl rfl (fun _ _ => rfl) htx rfl ⟨hst, hdrained, ?_⟩⟩
      intro r hr v hv hm
      by_cases hid : r = id
      · subst hid
        simp only [toState, MvStore.toState, toChains, MvStore.rollbackRowid,
          update_self, List.map_map, List.mem_map, comp_apply] at hv
        obtain ⟨rv, -, rfl⟩ := hv
        rw [rollbackRowVersion_toVersion] at hm
        exact Version.not_mentions_wipe hm
      · simp only [toState, MvStore.toState, toChains, MvStore.rollbackRowid,
          update_of_ne hid] at hv
        exact hmarked r (by simp [hid, hr]) v hv hm
    | nil =>
      obtain ⟨s, hremove, heq⟩ := Option.map_eq_some_iff.1 hstep
      subst heq
      have heq := MvStore.modifyTx_eq (f := fun tx => { tx with state := .terminated }) htx
      have htx1 : (w.store.modifyTx t fun tx => { tx with state := .terminated }).txs t =
          some { tx with state := .terminated } :=
        (congrFun (congrArg MvStore.txs heq) t).trans (update_self ..)
      -- the protocol does not tell terminated from aborted
      have hterm : (w.store.modifyTx t fun tx => { tx with state := .terminated }).toState
          (w.ghosts seed) = w.toState seed := by
        have htoTxn : { tx with state := .terminated }.toTxn ((w.ghosts seed).validated t) =
            tx.toTxn ((w.ghosts seed).validated t) := by
          simp only [toTxn, toStatus] at hst ⊢
          rw [hst]
        have hupdate : update (toTxns (w.ghosts seed) w.store.txs) t
            (some (tx.toTxn ((w.ghosts seed).validated t))) =
              toTxns (w.ghosts seed) w.store.txs := by
          rw [update_eq_self_iff]
          exact hx.symm
        rw [heq]
        simp [toState, MvStore.toState, toTxns_update, htoTxn, hupdate]
      obtain ⟨s2, hremove2, hretire⟩ : ∃ s2,
          (w.store.modifyTx t fun tx => { tx with state := .terminated }).removeTx t = some s2 ∧
            Step clash IntKeyed _ (.retire t) (s2.toState (w.ghosts seed)) :=
        MvStore.removeTx_retire htx1 (.inl rfl) hdrained
          (fun r rv hrv hm => hmarked r List.not_mem_nil _ (MvStore.mem_chain hrv) hm)
      rw [hremove, Option.some.injEq] at hremove2
      subst hremove2
      rw [hterm] at hretire
      obtain ⟨htxs, -, hunlock⟩ := MvStore.removeTx_frame hremove htx1
      have htxs' : s.txs = update w.store.txs t none := by
        rw [htxs, heq]
        exact update_idem ..
      refine ⟨.retire t, rfl, leaves hw htx (.single hretire) (actor_single rfl) hunlock ?_ ?_
        hcommit (update_self ..)⟩
      · intro u hu
        refine ⟨?_, rfl, update_of_ne hu ..⟩
        simp [htxs', update_of_ne hu]
      · simp [htxs']

end PgMicro.Mvcc
