import PgMicro.Mvcc.CommitFrame

/-!
# The commit refines the protocol

The phases of the commit state machine, one by one.
-/

namespace PgMicro.Mvcc

open MultiVersion Function List CommitStateMachine TransactionState MvStore Ghosts Option

variable {κ η : Type} {clash : RowID κ → RowID κ → Prop} {seed e : Nat} {w w' : World κ η}
  {evs : List (Event (RowID κ) (Row κ))} {t : TxID} {tx : Transaction κ η} {s : MvStore κ η}
  {sm sm' : CommitStateMachine κ η} {state : CommitState κ η}
  {record : Option (CommitRecord κ)} [DecidableEq κ]

namespace World.Committing

variable (h : w.Committing clash seed t tx sm)

include h

omit [DecidableEq κ] in
theorem at_phase (hphase : sm.state = state) :
    { sm with state := state }.Matches (w.toState seed) t
      (tx.toTxn ((w.ghosts seed).validated t)) :=
  hphase ▸ h.state

theorem refines (hto : w.CommitTo t (some sm') record s w')
    (hpath : Path clash IntKeyed (w.toState seed) evs (w'.toState seed))
    (hact : ∀ ev ∈ evs, IsCommit t ev)
    (hlock : s.blockingCheckpointLock = w.store.blockingCheckpointLock)
    (hothers : ∀ u, u ≠ t → (s.txs u).map Transaction.core = (w.store.txs u).map Transaction.core)
    {tx' : Transaction κ η} (htx' : s.txs t = some tx') (hid : tx'.txId = tx.txId)
    (hmatch : sm'.Matches (w'.toState seed) t (tx'.toTxn ((w'.ghosts seed).validated t)))
    (hstack : tx'.state = .active → SavepointsOK (w'.toState seed) t tx'.savepointStack) :
    w.CommitRefines clash seed t w' := by
  obtain rfl := hto.store
  refine ⟨evs, h.control.refines h.txs hpath (fun ev hev u => (hact ev hev).actor)
    (fun u hu => ⟨hothers u hu, ?_, congrFun hto.rollbacks u⟩) hlock htx' hid (fun sm1 hsm1 => ?_)
    (fun rb hrb => ?_) hstack, hact⟩
  · rw [hto.commits, update_of_ne hu]
  · rw [hto.commits, update_self, some.injEq] at hsm1
    exact hsm1 ▸ hmatch
  · rw [hto.rollbacks, h.rollback] at hrb
    cases hrb

theorem leaves (hto : w.CommitTo t none record s w')
    (hpath : Path clash IntKeyed (w.toState seed) evs (w'.toState seed))
    (hact : ∀ ev ∈ evs, IsCommit t ev)
    (hlock : s.blockingCheckpointLock = w.store.blockingCheckpointLock.unlock)
    (htxs : s.txs = update w.store.txs t none) : w.CommitRefines clash seed t w' := by
  obtain rfl := hto.store
  refine ⟨evs, leaves h.control h.txs hpath (fun ev hev u => (hact ev hev).actor) hlock
    (fun u hu => ⟨?_, ?_, congrFun hto.rollbacks u⟩) ?_ ?_ ?_, hact⟩
  · rw [htxs, update_of_ne hu]
  · rw [hto.commits, update_of_ne hu]
  · rw [htxs, update_self]
  · rw [hto.commits, update_self]
  · rw [hto.rollbacks, h.rollback]

theorem refines_same (hto : w.CommitTo t (some sm') none s w') (hsame : w.store.SameFor t s)
    (hvalid : sm'.isValidated = sm.isValidated)
    (hmatch : sm'.Matches (w.toState seed) t (tx.toTxn ((w.ghosts seed).validated t))) :
    w.CommitRefines clash seed t w' := by
  have hghosts : w'.ghosts seed = w.ghosts seed := by
    have hval : (w.ghosts seed).validated t = sm'.isValidated := by
      simp [ghosts, h.commit, hvalid]
    rw [hto.ghosts, any_some, phase, ← hval, update_eq_self]
  have hstate : w'.toState seed = w.toState seed := by
    rw [toState, hghosts, hto.store]
    exact hsame.toState_eq h.txs
  obtain ⟨held, htx'⟩ := hsame.own tx h.txs
  have hpath : Path clash IntKeyed (w.toState seed) [] (w'.toState seed) := hstate ▸ .nil _
  refine h.refines hto hpath (by simp) hsame.lock
    (fun u hu => congrArg _ (hsame.others u hu)) htx' rfl ?_ ?_
  · rw [hstate, hghosts]
    exact hmatch
  · intro hactive
    rw [hstate]
    exact (h.control.each t).savepoints tx h.txs hactive

theorem refines_none (hto : w.CommitTo t (some sm) none w.store w') :
    w.CommitRefines clash seed t w' :=
  h.refines_same hto (.refl t w.store) rfl h.state

theorem readOnly_refines (hto : w.CommitTo t none (some ⟨tx.beginTs, e, []⟩) s w')
    {s1 : MvStore κ η} {tx1 : Transaction κ η}
    (hpre : Path clash IntKeyed (w.toState seed) evs (s1.toState ((w.ghosts seed).phase t true)))
    (hact : ∀ ev ∈ evs, IsCommit t ev) (htx1 : s1.txs t = some tx1)
    (hst : tx1.state.toStatus = .preparing e) (hbegin : tx1.beginTs = tx.beginTs)
    (habort : tx1.abortNow = false) (hcounter : tx1.commitDepCounter = 0)
    (hwrites : tx1.writeSet = []) (hothers : ∀ u, u ≠ t → s1.txs u = w.store.txs u)
    (hlock : s1.blockingCheckpointLock = w.store.blockingCheckpointLock)
    (hfinish : s1.finishReadOnly t e = some s) : w.CommitRefines clash seed t w' := by
  obtain ⟨s2, hfinish2, hpath⟩ := finishReadOnly_path (h.coherent.path hpre) htx1 hst
    (update_self ..) habort hcounter hwrites
  rw [hfinish, some.injEq] at hfinish2
  subst hfinish2
  obtain ⟨htxs, hunlock⟩ := finishReadOnly_frame hfinish htx1
  have hstate : w'.toState seed = s.toState
      (((w.ghosts seed).phase t true).committed t ⟨tx1.beginTs, e, []⟩) := by
    rw [toState, hto.store, hto.ghosts_commit, hbegin]
    simp only [MvStore.toState]
    congr 1
    refine toTxns_congr (fun u tx2 htx2 => ?_)
    have hu : u ≠ t := by
      rintro rfl
      rw [htxs, update_self] at htx2
      cases htx2
    simp [Ghosts.committed, Ghosts.phase, update_of_ne hu]
  refine h.leaves hto (hpre.append (hstate ▸ hpath)) (forall_mem_append.2 ⟨hact, ?_⟩)
    (hunlock.trans (congrArg _ hlock)) (htxs.trans ?_)
  · exact forall_mem_cons.2 ⟨rfl, forall_mem_singleton.2 rfl⟩
  · funext u
    by_cases hu : u = t
    · rw [hu, update_self, update_self]
    · rw [update_of_ne hu, update_of_ne hu, hothers u hu]

omit h [DecidableEq κ] in
theorem perm_sortWriteSet [IndexKey κ] (ids : List (RowID κ)) : (sortWriteSet ids).Perm ids :=
  perm_insertionSort _ _

theorem prepared_refines (hactive : tx.state = .active)
    (hto : w.CommitTo t (some sm') none (w.store.prepared t) w')
    (hpath : Path clash IntKeyed ((w.store.prepared t).toState (w.ghosts seed)) evs
      (w'.toState seed))
    (hact : ∀ ev ∈ evs, IsCommit t ev)
    (hmatch : ∀ st validated, sm'.Matches st t
      ({ tx with state := .preparing w.store.clock }.toTxn validated)) :
    w.CommitRefines clash seed t w' := by
  have hprepare : Step clash IntKeyed (w.toState seed) (.prepare t) _ :=
    prepare_step h.txs hactive
  have htxs : (w.store.prepared t).txs =
      update w.store.txs t (some { tx with state := .preparing w.store.clock }) := by
    rw [prepared_eq h.txs]
  refine h.refines hto (.cons hprepare hpath) (forall_mem_cons.2 ⟨rfl, hact⟩) rfl
    (fun u hu => ?_) ((congrFun htxs t).trans (update_self ..)) rfl (hmatch _ _)
    (fun hst => by cases hst)
  rw [htxs, update_of_ne hu]

omit [DecidableEq κ] in
theorem validated (hvalid : sm.isValidated = true) : (w.ghosts seed).validated t = true := by
  simp [ghosts, h.commit, hvalid]

theorem refines_single (ev : Event (RowID κ) (Row κ)) (hev : IsCommit t ev)
    (hvalid : sm.isValidated = true) (hvalid' : sm'.isValidated = true)
    (hto : w.CommitTo t (some sm') none s w')
    (hstep : Step clash IntKeyed (w.toState seed) ev (s.toState (w.ghosts seed)))
    (hframe : TxsFrame w.store.txs s.txs)
    (hlock : s.blockingCheckpointLock = w.store.blockingCheckpointLock)
    (hactive : tx.state ≠ .active) (hmatch : ∀ tx', s.txs t = some tx' → tx'.core = tx.core →
      sm'.Matches (s.toState (w.ghosts seed)) t (tx'.toTxn true)) :
    w.CommitRefines clash seed t w' := by
  have hval := h.validated hvalid
  have hghosts : w'.ghosts seed = w.ghosts seed := by
    rw [hto.ghosts, any_some, hvalid', phase, ← hval, update_eq_self]
  have hstate : w'.toState seed = s.toState (w.ghosts seed) := by
    rw [toState, hghosts, hto.store]
  rw [← hstate] at hstep
  obtain ⟨tx', htx', hcore⟩ := hframe.forth h.txs
  have hid := congrArg Transaction.txId hcore
  have hst := congrArg Transaction.state hcore
  refine h.refines hto (.single hstep) (forall_mem_singleton.2 hev) hlock
    (fun u _ => hframe u) htx' (show tx'.txId = tx.txId from hid) ?_ ?_
  · rw [hstate, hghosts, hval]
    exact hmatch tx' htx' hcore
  · exact fun hactive' => absurd ((show tx.state = tx'.state from hst.symm).trans hactive') hactive

omit h [DecidableEq κ] in
theorem not_active (hst : tx.state.toStatus = .committed e) : tx.state ≠ .active := by
  intro hactive
  simp [hactive, toStatus] at hst

variable {ids : List (RowID κ)}

theorem rewrite_refines {id : RowID κ} {ids : List (RowID κ)}
    (hphase : sm.state = .rewriteLiveVersions e (id :: ids))
    (hto : w.CommitTo t (some { sm with state := .rewriteLiveVersions e ids }) none
      (w.store.rewriteRowid t e id) w') : w.CommitRefines clash seed t w' := by
  obtain ⟨hst, hmarked⟩ := h.at_phase hphase
  refine h.refines_single (.stamp t id) rfl (by simp [isValidated, hphase])
    rfl hto (w.store.rewriteRowid_step h.txs hst id) (.refl _) rfl (not_active hst) ?_
  intro tx' htx' _
  rw [show (w.store.rewriteRowid t e id).txs t = _ from h.txs, Option.some.injEq] at htx'
  subst htx'
  refine ⟨hst, ?_⟩
  intro r hr v hv hm
  by_cases hid : r = id
  · subst hid
    simp only [MvStore.toState, toChains, MvStore.rewriteRowid, update_self,
      List.map_map, List.mem_map, comp_apply] at hv
    obtain ⟨rv, -, rfl⟩ := hv
    rw [rewriteRowVersion_toVersion] at hm
    exact Version.not_mentions_stamp hm
  · simp only [MvStore.toState, toChains, MvStore.rewriteRowid,
      update_of_ne hid] at hv
    exact hmarked r (by simp [hid, hr]) v hv hm

theorem notify_refines (hphase : sm.state = .notifyDependents e)
    (hto : w.CommitTo t (some { sm with state := .publishCommit e }) none
      (w.store.drainCommitDepSet t false) w') : w.CommitRefines clash seed t w' := by
  obtain ⟨hst, hmarked⟩ := h.at_phase hphase
  refine h.refines_single (.release t) rfl (by simp [isValidated, hphase])
    rfl hto (w.store.drainCommitDepSet_release h.coherent h.txs hst)
    (w.store.drainCommitDepSet_frame t false) (w.store.drainCommitDepSet_lock t false)
    (not_active hst) ?_
  intro tx' htx' hcore
  have hst' := congrArg Transaction.state hcore
  refine ⟨?_, hmarked.frame ?_, w.store.drainCommitDepSet_drained h.coherent h.txs htx'⟩
  · exact (congrArg toStatus (show tx'.state = tx.state from hst')).trans hst
  · intro r v' hv' hm
    rw [MvStore.toState, w.store.drainCommitDepSet_rows t false] at hv'
    exact ⟨v', hv', hm⟩

omit [DecidableEq κ] in
theorem markedOnlyIn_writeSet (hperm : ids.Perm tx.writeSet) :
    MarkedOnlyIn (w.toState seed) t ids := by
  intro r hr v hv hm
  obtain ⟨x, hx, hmem⟩ := h.coherent.owned.mentions r v hv t hm
  rw [show (w.toState seed).txn t = _ from txn_of_txs h.txs, some.injEq] at hx
  subst hx
  exact hr (hperm.mem_iff.2 hmem)

section

variable {result : TransitionResult}
  (hto : w.CommitTo t (if result = .done then none else some sm')
    (commitRecord w.store t sm result) s w')

include hto

theorem refines_phase (hstate : sm.state = state) (hsame : w.store.SameFor t s)
    (hvalid : sm'.isValidated = sm.isValidated)
    (hmatch : sm'.Matches (w.toState seed) t (tx.toTxn ((w.ghosts seed).validated t)))
    (hgo : result ≠ .done ∧ state ≠ .initial ∧ ∀ e, state ≠ .commitEnd e) :
    w.CommitRefines clash seed t w' := by
  subst hstate
  have hrecord : commitRecord w.store t sm result = none := by
    rw [commitRecord, h.txs, bind_some]
    split
    · exact absurd (by assumption) (hgo.2.2 _)
    · exact absurd (by assumption) hgo.2.1
    · exact absurd rfl hgo.1
    · rfl
  rw [hrecord, if_neg hgo.1] at hto
  exact h.refines_same hto hsame hvalid hmatch

theorem initial_refines [IndexKey κ] (hinit : sm.state = .initial)
    (hrun : stepInitial w.store t sm = some (s, sm', result)) :
    w.CommitRefines clash seed t w' := by
  have hval : (w.ghosts seed).validated t = false := by
    simp [ghosts, h.commit, isValidated, hinit]
  have hphase : (w.ghosts seed).phase t false = w.ghosts seed := by
    rw [phase, ← hval, update_eq_self]
  simp only [commitRecord, h.txs, hinit] at hto
  simp only [stepInitial, h.txs] at hrun
  cases hst : tx.state with
  | terminated =>
    have hstate := h.state
    simp [CommitStateMachine.Matches, hinit, Transaction.toTxn, hst,
      toStatus] at hstate
  | preparing | aborted | committed => simp [hst] at hrun
  | active =>
    simp only [hst] at hrun
    split at hrun
    · -- the schema has changed
      cases hrun
      exact h.refines_none hto
    have hprep : (w.store.prepared t).txs t =
        some { tx with state := .preparing w.store.clock } := by
      rw [prepared_eq h.txs]
      exact update_self ..
    have hquiet : ∀ {sm' : CommitStateMachine κ η}, sm'.isValidated = false →
        w.CommitTo t (some sm') none (w.store.prepared t) w' →
        Path clash IntKeyed ((w.store.prepared t).toState (w.ghosts seed)) []
          (w'.toState seed) := by
      intro sm' hsm' hto
      rw [toState, hto.store, hto.ghosts, any_some, hsm', hphase]
      exact .nil _
    split at hrun
    next hempty =>
      have hwrites : tx.writeSet = [] := by
        have hperm := perm_sortWriteSet tx.writeSet
        rw [hempty.1] at hperm
        exact hperm.symm.eq_nil
      have hvalidate : Step clash IntKeyed ((w.store.prepared t).toState (w.ghosts seed))
          (.validate t) ((w.store.prepared t).toState ((w.ghosts seed).phase t true)) :=
        validate_step hprep rfl (fun r hr => by
          rw [show Transaction.writeSet _ = tx.writeSet from rfl, hwrites] at hr
          cases hr)
      split at hrun
      · -- nothing written, but told to abort
        cases hrun
        simp only [hinit] at hto
        exact h.prepared_refines hst hto (hquiet rfl hto) (by simp) (fun _ _ => .inr ⟨_, rfl⟩)
      split at hrun
      · -- nothing written, and dependencies to wait for
        cases hrun
        have hto : w.CommitTo t (some _) none _ w' := hto
        have hstate : w'.toState seed =
            (w.store.prepared t).toState ((w.ghosts seed).phase t true) := by
          rw [toState, hto.store, hto.ghosts, any_some]
          rfl
        rw [← hstate] at hvalidate
        exact h.prepared_refines hst hto (.single hvalidate) (forall_mem_singleton.2 rfl)
          (fun _ _ => ⟨rfl, perm_sortWriteSet _⟩)
      · -- nothing written, nothing to wait for
        rename_i habort hcounter
        obtain ⟨s2, hfinish, heq⟩ := map_eq_some_iff.1 hrun
        cases heq
        have hsame := ((w.store.prepared t).releaseIfExclusive_same t).trans
          (unlockCommitLockIfHeld_same _ t)
        obtain ⟨held, htx1⟩ := hsame.own _ hprep
        have hprepare : Step clash IntKeyed (w.toState seed) (.prepare t) _ :=
          prepare_step h.txs hst
        have hpre : Path clash IntKeyed (w.toState seed) [.prepare t, .validate t] _ :=
          .cons hprepare (.single hvalidate)
        rw [← hsame.toState_eq hprep] at hpre
        refine h.readOnly_refines hto hpre ?_ htx1 rfl rfl (Bool.eq_false_of_not_eq_true habort)
          (Nat.eq_zero_of_not_pos hcounter) hwrites ?_ hsame.lock hfinish
        · exact forall_mem_cons.2 ⟨rfl, forall_mem_singleton.2 rfl⟩
        · intro u hu
          rw [hsame.others u hu, prepared_eq h.txs]
          exact update_of_ne hu ..
    · -- the commit goes on to validation
      cases hrun
      exact h.prepared_refines hst hto (hquiet rfl hto) (by simp)
        (fun _ _ => ⟨rfl, perm_sortWriteSet _⟩)

theorem commit_refines [IndexKey κ] (hphase : sm.state = .commit e) (hcover : w.store.Covers clash)
    (hrun : stepCommit w.store t sm e = some (s, sm', result)) :
    w.CommitRefines clash seed t w' := by
  have hstate := h.at_phase hphase
  simp only [commitRecord, h.txs, hphase] at hto
  simp only [stepCommit, h.txs] at hrun
  split at hrun
  · cases hrun
    exact h.refines_none hto
  split at hrun
  · cases hrun
    exact h.refines_none hto
  next hok =>
    cases hrun
    have hvalidate : Step clash IntKeyed (w.toState seed) (.validate t)
        (w.store.toState ((w.ghosts seed).phase t true)) :=
      validate_step h.txs hstate.1 (admits_of_validate hcover h.coherent h.txs
        h.txId hstate.1 (fun r hr => hstate.2.mem_iff.2 hr) hok)
    have hstate' : w'.toState seed = w.store.toState ((w.ghosts seed).phase t true) := by
      rw [toState, hto.store, hto.ghosts]
      rfl
    rw [← hstate'] at hvalidate
    refine h.refines hto (.single hvalidate) (forall_mem_singleton.2 rfl) rfl
      (fun _ _ => rfl) h.txs rfl hstate (fun hactive => ?_)
    have hst := hstate.1
    simp [Transaction.toTxn, hactive, toStatus] at hst

theorem wait_refines (hphase : sm.state = .waitForDependencies e)
    (hrun : stepWaitForDependencies w.store t sm e = some (s, sm', result)) :
    w.CommitRefines clash seed t w' := by
  obtain ⟨hst, hperm⟩ := h.at_phase hphase
  have hvalid : sm.isValidated = true := by simp only [isValidated, hphase]
  simp only [stepWaitForDependencies, h.txs] at hrun
  split at hrun
  · cases hrun
    exact h.refines_phase hto hphase (.refl t _) rfl h.state (by simp)
  rename_i habort
  split at hrun
  · cases hrun
    exact h.refines_phase hto hphase (.refl t _) rfl h.state (by simp)
  rename_i hcounter
  have hready : tx.commitDepCounter = 0 ∧ tx.abortNow = false :=
    ⟨Nat.eq_zero_of_not_pos hcounter, Bool.eq_false_of_not_eq_true habort⟩
  split at hrun
  next hempty =>
    have hwrites : tx.writeSet = [] := by
      rw [hempty.1] at hperm
      exact hperm.symm.eq_nil
    obtain ⟨s2, hfinish, heq⟩ := map_eq_some_iff.1 hrun
    cases heq
    simp only [commitRecord, h.txs, hphase] at hto
    have hsame : w.store.SameFor t (if w.store.isExclusiveTx t = true then
        { w.store.releaseExclusiveTx with
          pagerCommitLock := w.store.pagerCommitLock.unlock } else w.store) := by
      split
      · exact .of_txs rfl
      · exact .refl t _
    obtain ⟨held, htx1⟩ := hsame.own tx h.txs
    have hpre := hsame.toState_eq (g := (w.ghosts seed).phase t true) h.txs
    rw [phase, ← h.validated hvalid, update_eq_self] at hpre
    refine h.readOnly_refines hto ?_ (forall_mem_nil _) htx1 hst rfl hready.2 hready.1
      hwrites hsame.others hsame.lock hfinish
    rw [phase, ← h.validated hvalid, update_eq_self, hpre]
    exact .nil _
  · obtain ⟨logRecord, -, heq⟩ := map_eq_some_iff.1 hrun
    split at heq
    · cases heq
      refine h.refines_phase hto hphase ?_ hvalid.symm ⟨hst, hperm, hready⟩ (by simp)
      split
      · exact w.store.unlockCommitLockIfHeld_same t
      · exact .refl t _
    · cases heq
      exact h.refines_phase hto hphase (.refl t _) hvalid.symm
        ⟨hst, hperm, hready⟩ (by simp)

theorem beginLog_refines {logRecord : LogRecord κ η}
    (hphase : sm.state = .beginCommitLogicalLog e logRecord)
    (hrun : stepBeginCommitLogicalLog w.store t sm e logRecord =
      some (s, sm', result)) : w.CommitRefines clash seed t w' := by
  have hstate := h.at_phase hphase
  have hvalid : sm.isValidated = true := by simp only [isValidated, hphase]
  simp only [stepBeginCommitLogicalLog, h.txs] at hrun
  split at hrun
  · cases hrun
    exact h.refines_phase hto hphase (.refl t _) hvalid.symm hstate (by simp)
  split at hrun
  · cases hrun
    exact h.refines_phase hto hphase (.refl t _) rfl h.state (by simp)
  · cases hrun
    refine h.refines_phase hto hphase ?_ hvalid.symm hstate (by simp)
    refine ⟨rfl, rfl, rfl, rfl, rfl, fun u hu => update_of_ne hu .., fun tx' htx' => ?_⟩
    exact ⟨true, (update_self ..).trans (congrArg _ htx')⟩

theorem commitEnd_refines (hphase : sm.state = .commitEnd e)
    (hrun : stepCommitEnd w.store t sm e = some (s, sm', result)) :
    w.CommitRefines clash seed t w' := by
  obtain ⟨hst, hperm, hcounter, habort⟩ := h.at_phase hphase
  have hval := h.validated (by simp [isValidated, hphase])
  simp only [stepCommitEnd, h.txs] at hrun
  cases hrun
  simp only [commitRecord, h.txs, hphase, reduceCtorEq, if_false] at hto
  have hstep : Step clash IntKeyed (w.toState seed) (.commit t) _ :=
    MvStore.commit_step h.txs hst hval habort hcounter
  have hghosts : w'.ghosts seed =
      (w.ghosts seed).committed t ⟨tx.beginTs, e, tx.writeSet⟩ := by
    rw [hto.ghosts_commit, any_some, phase,
      show isValidated _ = true from rfl, ← hval, update_eq_self]
    rfl
  have hstate : w'.toState seed =
      (w.store.modifyTx t fun tx => { tx with state := .committed e }).toState
        ((w.ghosts seed).committed t ⟨tx.beginTs, e, tx.writeSet⟩) := by
    rw [toState, hghosts, hto.store]
    rfl
  rw [← hstate] at hstep
  have htxs := congrArg MvStore.txs (MvStore.modifyTx_eq
    (f := fun tx => { tx with state := .committed e }) h.txs)
  refine h.refines hto (.single hstep) (forall_mem_singleton.2 rfl) rfl (fun u hu => ?_)
    ((congrFun htxs t).trans (update_self ..)) rfl ⟨rfl, ?_⟩ (by simp)
  · exact congrArg _ ((congrFun htxs u).trans (update_of_ne hu ..))
  · refine (h.markedOnlyIn_writeSet hperm).frame ?_
    intro r v' hv' hm
    rw [hstate] at hv'
    exact ⟨v', hv', hm⟩

theorem leave_refines (hphase : sm.state = .leaveTxs e)
    (hrun : stepLeaveTxs w.store t sm = some (s, sm', result)) :
    w.CommitRefines clash seed t w' := by
  obtain ⟨hst, hmarked, hdrained⟩ := h.at_phase hphase
  obtain ⟨s1, hremove, heq⟩ := map_eq_some_iff.1 hrun
  cases heq
  simp only [commitRecord, h.txs, hphase] at hto
  obtain ⟨s2, hremove2, hstep⟩ : ∃ s2, w.store.removeTx t = some s2 ∧
      Step clash IntKeyed (w.toState seed) (.retire t) (s2.toState (w.ghosts seed)) :=
    MvStore.removeTx_retire h.txs (.inr ⟨e, hst⟩) hdrained
      (fun r rv hrv hm => hmarked r not_mem_nil _ (MvStore.mem_chain hrv) hm)
  rw [hremove, some.injEq] at hremove2
  subst hremove2
  obtain ⟨htxs, -, hunlock⟩ := MvStore.removeTx_frame hremove h.txs
  have hsame := s1.releaseIfExclusive_same t
  have htxs' : (if s1.isExclusiveTx t then s1.releaseExclusiveTx else s1).txs =
      update w.store.txs t none := by
    rw [← htxs]
    split <;> rfl
  have hstate : w'.toState seed = s1.toState (w.ghosts seed) := by
    have hvalidated : toTxns (w'.ghosts seed) w'.store.txs =
        toTxns (w.ghosts seed) w'.store.txs := by
      refine toTxns_congr (fun u tx1 htx1 => ?_)
      have hu : u ≠ t := by
        rintro rfl
        rw [hto.store, htxs', update_self] at htx1
        cases htx1
      rw [hto.ghosts]
      exact update_of_ne hu ..
    rw [toState, MvStore.toState, hvalidated, hto.store, htxs', ← htxs, hto.ghosts]
    simp [MvStore.toState, phase, hsame.rows, hsame.clock, hsame.txIds,
      hsame.versionIdCounter]
  rw [← hstate] at hstep
  exact h.leaves hto (.single hstep) (forall_mem_singleton.2 rfl)
    (hsame.lock.trans hunlock) htxs'

end

end World.Committing

theorem World.commitStep_refines [IndexKey κ] (hc : Coherent clash IntKeyed (w.toState seed))
    (hw : w.Control seed) (hcover : w.store.Covers clash) (hstep : w.commitStep t = some w') :
    w.CommitRefines clash seed t w' := by
  obtain ⟨sm, hsm, hstep⟩ := bind_eq_some_iff.1 hstep
  obtain ⟨⟨s, sm', result⟩, hrun, heq⟩ := map_eq_some_iff.1 hstep
  obtain ⟨tx, h⟩ := committing hc hw hsm
  have hto : w.CommitTo t (if result = .done then none else some sm')
      (commitRecord w.store t sm result) s w' := by
    subst heq
    exact ⟨rfl, rfl, rfl, rfl, rfl⟩
  unfold step at hrun
  split at hrun
  · exact h.initial_refines hto (by assumption) hrun
  · exact h.commit_refines hto (by assumption) hcover hrun
  · exact h.wait_refines hto (by assumption) hrun
  · exact h.beginLog_refines hto (by assumption) hrun
  next e hphase =>
    cases hrun
    exact h.refines_phase hto hphase (.refl t _) (by simp [isValidated, hphase])
      (h.at_phase hphase :) (by simp)
  next e hphase =>
    simp only [stepEndCommitLogicalLog, h.txs] at hrun
    cases hrun
    exact h.refines_phase hto hphase (.of_txs rfl) (by simp [isValidated, hphase])
      (h.at_phase hphase :) (by simp)
  · exact h.commitEnd_refines hto (by assumption) hrun
  next e hphase =>
    cases hrun
    exact h.refines_phase hto hphase (.refl t _) (by simp [isValidated, hphase])
      (h.at_phase hphase :) (by simp)
  next e id ids hphase =>
    cases hrun
    simp only [commitRecord, h.txs, hphase] at hto
    exact h.rewrite_refines hphase hto
  next e hphase =>
    cases hrun
    simp only [commitRecord, h.txs, hphase] at hto
    exact h.notify_refines hphase hto
  next e hphase =>
    simp only [stepPublishCommit, h.txs] at hrun
    cases hrun
    exact h.refines_phase hto hphase ((w.store.unlockCommitLockIfHeld_same t).trans (.of_txs rfl))
      (by simp [isValidated, hphase]) (h.at_phase hphase :) (by simp)
  · exact h.leave_refines hto (by assumption) hrun

end PgMicro.Mvcc
