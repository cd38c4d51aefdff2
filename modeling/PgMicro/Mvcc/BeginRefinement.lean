import PgMicro.Mvcc.RollbackRefinement

/-!
# Beginnings and checkpoints

Beginning a transaction, upgrading it and a checkpoint refine the protocol, and keep the
checkpoint lock counting the transactions.
-/

namespace PgMicro.Mvcc

open MultiVersion Function List MvStore Option

variable {κ η : Type} {clash : RowID κ → RowID κ → Prop} {seed old : Nat} {w w' : World κ η}
  {t u : TxID} {tx : Transaction κ η} {g : Ghosts κ} {s s' : MvStore κ η}
  {btree : RowID κ → Option (Row κ)} {lock : TursoRwLock} {tracked : RowID κ → Prop}

section

theorem MvStore.LockOK.add (h : s.LockOK) (hc : Coherent clash tracked (s.toState g))
    (hread : s.blockingCheckpointLock.read = some lock) (hlock : s'.blockingCheckpointLock = lock)
    (htxs : s'.txs = update s.txs s.txIds (some tx)) : s'.LockOK := by
  simp only [TursoRwLock.read, h.writer, Bool.false_eq_true, if_false, some.injEq] at hread
  subst hread
  have hfresh : s.txIds ∉ {u | (s.txs u).isSome} := by
    intro hmem
    obtain ⟨tx', htx'⟩ := isSome_iff_exists.1 hmem
    exact absurd (hc.timely.txn_lt _ _ (txn_of_txs htx')).1 (lt_irrefl _)
  have hdom : {u | (s'.txs u).isSome} = insert s.txIds {u | (s.txs u).isSome} := by
    ext u
    rw [htxs]
    by_cases hu : u = s.txIds
    · subst hu
      simp
    · simp [hu]
  refine ⟨?_, ?_⟩
  · rw [hlock]
  · rw [hdom, Set.ncard_insert_of_notMem hfresh (finite_txs hc), ← h.readers, hlock]

theorem MvStore.acquireExclusiveTx_ok (h : s.acquireExclusiveTx t = .ok s') :
    s' = { s with exclusiveTx := s'.exclusiveTx } := by
  unfold acquireExclusiveTx at h
  split at h
  · cases h
    rfl
  split at h
  · split at h
    · cases h
    split at h
    · cases h
      rfl
    · cases h
  · split at h
    · cases h
      rfl
    · cases h

section

variable (hc : Coherent clash IntKeyed (w.toState seed)) (hw : w.Control seed)

include hc hw

theorem World.fresh : w.commits w.store.txIds = none ∧ w.rollbacks w.store.txIds = none := by
  have hnone : ∀ x, (w.toState seed).txn w.store.txIds ≠ some x :=
    fun x hx => absurd (hc.timely.txn_lt _ _ hx).1 (lt_irrefl _)
  constructor
  · cases hsm : w.commits w.store.txIds with
    | none => rfl
    | some sm =>
      obtain ⟨x, hx, -⟩ := (hw.each _).commit sm hsm
      exact absurd hx (hnone x)
  · cases hrb : w.rollbacks w.store.txIds with
    | none => rfl
    | some rb =>
      obtain ⟨x, hx, -⟩ := (hw.each _).rollback rb hrb
      exact absurd hx (hnone x)

theorem World.begun_refines [DecidableEq κ]
    (hread : w.store.blockingCheckpointLock.read = some lock)
    (hlock : s'.blockingCheckpointLock = lock)
    (htoTxn : ∀ validated, tx.toTxn validated = { Txn.fresh w.store.clock with
      validated := validated }) (hid : tx.txId = w.store.txIds) (hstack : tx.savepointStack = [])
    (htxs : s'.txs = update w.store.txs w.store.txIds (some tx)) (hrows : s'.rows = w.store.rows)
    (hclock : s'.clock = w.store.clock + 1) (hids : s'.txIds = w.store.txIds + 1)
    (hver : s'.versionIdCounter = w.store.versionIdCounter) :
    w.Refines clash seed w.store.txIds [.begin w.store.txIds] (w.withStore s') := by
  obtain ⟨hcommit, hrollback⟩ := fresh hc hw
  have hval : (w.ghosts seed).validated w.store.txIds = false := by
    simp [ghosts, hcommit]
  have hstep : Step clash IntKeyed (w.toState seed) (.begin w.store.txIds) _ := Step.begin _
  have hstate : (w.withStore s').toState seed = { w.toState seed with
      txn := update (w.toState seed).txn w.store.txIds (some (.fresh w.store.clock))
      nextTxn := w.store.txIds + 1
      clock := w.store.clock + 1 } := by
    change s'.toState (w.ghosts seed) = _
    simp only [MvStore.toState, htxs, toTxns_update, hrows, hclock, hids, hver, htoTxn, hval]
    rfl
  replace hstep : Step clash IntKeyed (w.toState seed) (.begin w.store.txIds)
      ((w.withStore s').toState seed) := hstate ▸ hstep
  have htx : (w.withStore s').store.txs w.store.txIds = some tx :=
    (congrFun htxs _).trans (update_self ..)
  refine ⟨.single hstep, actor_single rfl, fun u hu => ⟨?_, rfl, rfl⟩, ?_, ?_⟩
  · exact congrArg _ ((congrFun htxs u).trans (update_of_ne hu ..))
  · refine ⟨fun tx1 htx1 => ?_, fun sm hsm => ?_, fun rb hrb => ?_, fun tx1 htx1 _ => ?_⟩
    · rw [htx, some.injEq] at htx1
      exact htx1 ▸ hid
    · rw [show (w.withStore s').commits = w.commits from rfl, hcommit] at hsm
      cases hsm
    · rw [show (w.withStore s').rollbacks = w.rollbacks from rfl, hrollback] at hrb
      cases hrb
    · rw [htx, some.injEq] at htx1
      rw [← htx1, hstack]
      exact .nil
  · exact hw.lock.add hc hread hlock htxs

theorem World.idle_refines [DecidableEq κ] (t : TxID)
    (hpath : Path clash IntKeyed (w.toState seed) evs (w'.toState seed))
    (hact : ∀ ev ∈ evs, ev.actor = none) (htxs : w'.store.txs = w.store.txs)
    (hlock : w'.store.blockingCheckpointLock = w.store.blockingCheckpointLock)
    (hcommits : w'.commits = w.commits) (hrollbacks : w'.rollbacks = w.rollbacks) :
    w.Refines clash seed t evs w' where
  path := hpath
  actor ev hev u hu := by
    rw [hact ev hev] at hu
    cases hu
  others u _ := ⟨congrArg _ (congrFun htxs u), congrFun hcommits u, congrFun hrollbacks u⟩
  own := by
    refine (hw.each t).frame hc hpath (fun ev hev => ?_)
      ⟨congrArg _ (congrFun htxs t), congrFun hcommits t, congrFun hrollbacks t⟩
    rw [hact ev hev]
    exact nofun
  lock := hw.lock.frame hlock (fun u => congrArg _ (congrFun htxs u))

theorem World.beginTx_refines [DecidableEq κ] (hrun : w.store.beginTx = .ok (s, u)) :
    u = w.store.txIds ∧ w.Refines clash seed u [.begin u] (w.withStore s) := by
  unfold beginTx at hrun
  split at hrun
  · cases hrun
  next lock hread =>
    cases hrun
    exact ⟨rfl, begun_refines hc hw hread rfl (fun _ => rfl) rfl rfl rfl rfl rfl rfl rfl⟩

theorem World.beginExclusiveTx_refines [DecidableEq κ] :
    ∃ evs, w.Refines clash seed w.store.txIds evs (w.withStore w.store.beginExclusiveTx.1) ∧
      (evs = [] ∨ evs = [.tick] ∨ evs = [.begin w.store.txIds]) := by
  have htick : w.Refines clash seed w.store.txIds [.tick] (w.withStore
      { w.store with txIds := w.store.txIds + 1, clock := w.store.clock + 1 }) :=
    idle_refines hc hw _ (.single (Step.tick _)) (fun ev hev => by
      rw [mem_singleton] at hev
      subst hev
      rfl) rfl rfl rfl rfl
  unfold beginExclusiveTx
  split
  · exact ⟨[], idle_refines hc hw _ (.nil _) (fun ev hev => by cases hev) rfl rfl rfl rfl,
      .inl rfl⟩
  next lock hread =>
    simp only
    split
    · exact ⟨[.tick], htick, .inr (.inl rfl)⟩
    next acquired hacquire =>
      split
      · exact ⟨[.tick], htick, .inr (.inl rfl)⟩
      next commitLock hcommit =>
        rw [acquireExclusiveTx_ok hacquire]
        exact ⟨[.begin w.store.txIds], begun_refines hc hw hread rfl (fun _ => rfl) rfl rfl
          rfl rfl rfl rfl rfl, .inr (.inr rfl)⟩

end

theorem World.Running.upgrade_refines [DecidableEq κ] (h : w.Running clash seed t tx)
    (hrun : w.store.upgradeToExclusiveTx t = .ok s) :
    w.Refines clash seed t [] (w.withStore s) := by
  simp only [upgradeToExclusiveTx, h.txs] at hrun
  split at hrun
  · cases hrun
  next acquired hacquire =>
    have heq := acquireExclusiveTx_ok hacquire
    have htxs : acquired.txs t = some tx := by
      rw [heq]
      exact h.txs
    split at hrun
    · cases hrun
      rw [modifyTx_eq htxs, heq]
      exact And.right (h.refines_quiet rfl rfl rfl (fun _ => rfl) rfl h.savepointsOK)
    split at hrun
    · cases hrun
    next commitLock _ =>
      cases hrun
      rw [modifyTx_eq (show ({ acquired with pagerCommitLock := commitLock } :
        MvStore κ η).txs t = _ from htxs), heq]
      exact And.right (h.refines_quiet rfl rfl rfl (fun _ => rfl) rfl h.savepointsOK)

end

theorem gcVersionChain_sublist (versions : List (RowVersion κ)) (lwm ckptMax : Nat) :
    (gcVersionChain versions lwm ckptMax).Sublist versions := by
  have hfilter : ((versions.filter fun rv => !(rv.begin_.isNone && rv.end_.isNone)).filter
      (gcKeepsSuperseded ((versions.filter fun rv =>
        !(rv.begin_.isNone && rv.end_.isNone)).any RowVersion.isCommittedCurrent) lwm
          ckptMax)).Sublist versions :=
    filter_sublist.trans filter_sublist
  unfold gcVersionChain
  simp only
  split
  · split
    · split
      · exact nil_sublist _
      · exact hfilter
    · exact hfilter
  · exact hfilter

theorem MvStore.LockOK.idle (h : s.LockOK) (hc : Coherent clash tracked (s.toState g))
    (hwrite : s.blockingCheckpointLock.write = some lock) : ∀ t, s.txs t = none := by
  simp only [TursoRwLock.write, h.writer, Bool.false_or, bne_iff_ne, ite_none_left_eq_some,
    not_not] at hwrite
  have hcard := h.readers.symm.trans hwrite.1
  rw [Set.ncard_eq_zero (finite_txs hc)] at hcard
  intro t
  by_contra hne
  have hmem : t ∈ {u | (s.txs u).isSome} := isSome_iff_ne_none.2 hne
  rw [hcard] at hmem
  cases hmem

variable {rewrite : RowVersion κ → RowVersion κ → Bool}

theorem MvStore.checkpoint_frame {btree' : RowID κ → Option (Row κ)}
    (hrun : s.checkpoint rewrite old btree = .ok (s', btree')) :
    (∃ lock, s.blockingCheckpointLock.write = some lock) ∧
      (∀ id, (s'.rows id).Sublist (s.rows id)) ∧
      s' = { s with
        rows := s'.rows
        indexKeys := s'.indexKeys
        finalizedTxStates := s'.finalizedTxStates
        durableTxidMax := s'.durableTxidMax
        log := s'.log } := by
  unfold checkpoint at hrun
  split at hrun
  · cases hrun
  next lock hwrite =>
    cases hrun
    refine ⟨⟨lock, hwrite⟩, fun id => (gcVersionChain_sublist _ _ _).trans ?_, rfl⟩
    simp only
    split
    · exact List.Sublist.refl _
    · exact gcVersionChain_sublist _ _ _

theorem World.checkpoint_refines [DecidableEq κ] (hc : Coherent clash IntKeyed (w.toState seed))
    (hw : w.Control seed) (hrun : w.store.checkpoint rewrite old w.btree = .ok (s, btree))
    (t : TxID) :
    (∀ u, w.store.txs u = none) ∧
      w.Refines clash seed t [.collect] { w with store := s, btree := btree } := by
  obtain ⟨⟨lock, hwrite⟩, hsub, hs⟩ := MvStore.checkpoint_frame hrun
  have hidle := hw.lock.idle hc hwrite
  have hcollect : Step clash IntKeyed (w.toState seed) .collect
      { w.toState seed with chain := toChains s.rows } := by
    refine Step.collect _ (fun u => ?_) (fun r => (hsub r).map _)
    simp [toState, MvStore.toState, toTxns, hidle u]
  refine ⟨hidle, idle_refines hc hw t (.single ?_) ?_ ?_ ?_ rfl rfl⟩
  · rw [hs]
    exact hcollect
  · intro ev hev
    rw [mem_singleton] at hev
    subst hev
    rfl
  · rw [hs]
  · rw [hs]

end PgMicro.Mvcc
