import PgMicro.Mvcc.BeginRefinement

/-!
# Every action refines the protocol

An action of the step system is a path of the protocol, made of the events that the action
allows.
-/

namespace PgMicro.Mvcc

open MultiVersion Function List MvStore Option

variable {κ η α : Type} {clash : RowID κ → RowID κ → Prop} {seed : Nat} {w w' : World κ η}
  {evs : List (Event (RowID κ) (Row κ))} {t : TxID} {tx : Transaction κ η} {s : MvStore κ η}

def IsLook (t : TxID) (evs : List (Event (RowID κ) (Row κ))) : Prop :=
  ∀ ev ∈ evs, ∃ d, ev = .depend t d

def Action.actor (w : World κ η) : Action κ η → TxID
  | .beginTx | .beginExclusiveTx => w.store.txIds
  | .upgradeToExclusiveTx t | .read t _ | .queryBtreeVersionIsValid t _ | .insert t _
  | .insertTombstone t _ | .insertBtreeResident t _ | .update t _ | .delete t _
  | .withHeaderMut t _ | .beginSavepoint t | .beginNamedSavepoint t _ _ _ | .releaseSavepoint t
  | .releaseNamedSavepoint t _ | .rollbackFirstSavepoint t | .rollbackToNamedSavepoint t _
  | .commitTx t _ | .commitStep t | .rollbackTx t | .rollbackStep t => t
  | .checkpoint _ _ => 0

def Action.Allows (evs : List (Event (RowID κ) (Row κ))) : Action κ η → Prop
  | .beginTx => ∃ t, evs = [.begin t]
  | .beginExclusiveTx => evs = [] ∨ evs = [.tick] ∨ ∃ t, evs = [.begin t]
  | .read t _ | .queryBtreeVersionIsValid t _ => IsLook t evs
  | .insert t row | .insertBtreeResident t row =>
    ∃ v, v.image = some row ∧ evs = [.install t row.id v]
  | .insertTombstone t row => ∃ v, v.image = none ∧ evs = [.install t row.id v]
  | .update t row => IsLook t evs ∨ ∃ pre u v, IsLook t pre ∧ v.image = some row ∧
      evs = pre ++ [.supersede t row.id u, .install t row.id v]
  | .delete t id => IsLook t evs ∨ ∃ pre u, IsLook t pre ∧ evs = pre ++ [.supersede t id u]
  | .rollbackFirstSavepoint t | .rollbackToNamedSavepoint t _ =>
    ∃ n, evs = replicate n (.undo t)
  | .commitStep t => ∀ ev ∈ evs, IsCommit t ev
  | .rollbackTx t => evs = [.abort t]
  | .rollbackStep t => ∀ ev ∈ evs, IsRollback t ev
  | .checkpoint _ _ => evs = [.collect]
  | .upgradeToExclusiveTx _ | .withHeaderMut _ _ | .beginSavepoint _
  | .beginNamedSavepoint _ _ _ _ | .releaseSavepoint _ | .releaseNamedSavepoint _ _
  | .commitTx _ _ => evs = []

variable (tx)

theorem Transaction.releaseSavepoint_frame :
    (∀ b, tx.releaseSavepoint.toTxn b = tx.toTxn b) ∧ tx.releaseSavepoint.txId = tx.txId := by
  unfold Transaction.releaseSavepoint
  split
  · exact ⟨fun _ => rfl, rfl⟩
  · split <;> exact ⟨fun _ => rfl, rfl⟩

theorem Transaction.releaseNamedSavepoint_frame (name : String) :
    (∀ b, (tx.releaseNamedSavepoint name).1.toTxn b = tx.toTxn b) ∧
      (tx.releaseNamedSavepoint name).1.txId = tx.txId := by
  unfold Transaction.releaseNamedSavepoint
  split
  · exact ⟨fun _ => rfl, rfl⟩
  · split <;> exact ⟨fun _ => rfl, rfl⟩

variable {tx}

variable [DecidableEq κ] {op : Except Failure (MvStore κ η)}

section

variable (h : w.Running clash seed t tx)

include h

theorem World.Running.modify_refines
    (f : Transaction κ η → Transaction κ η) (hop : op = .ok (w.store.modifyTx t f))
    (htoTxn : ∀ b, (f tx).toTxn b = tx.toTxn b) (hid : (f tx).txId = tx.txId)
    (hstack : SavepointsOK (w.toState seed) t (f tx).savepointStack) {a a' : α}
    (heq : op.map (fun s => (s, a)) = .ok (s, a')) : w.Refines clash seed t [] (w.withStore s) := by
  rw [hop, Except.map, Except.ok.injEq, Prod.mk.injEq] at heq
  exact heq.1 ▸ (h.modifyTx_quiet f htoTxn hid hstack).2

theorem World.Running.rollbackFirst_refines {b : Bool}
    (hop : w.store.rollbackFirstSavepoint t = .ok (s, b)) :
    ∃ n, w.Refines clash seed t (replicate n (.undo t)) (w.withStore s) := by
  simp only [rollbackFirstSavepoint, h.txs] at hop
  split at hop
  next sp tx' hpop =>
    cases hop
    unfold Transaction.popStatementSavepoint at hpop
    split at hpop
    · cases hpop
    next sp' rest hstack =>
      split at hpop
      · cases hpop
        have hok : SavepointsOK (w.toState seed) t ([sp] ++ rest) := by
          have hok := h.savepointsOK
          rwa [hstack] at hok
        exact ⟨1, h.undo_refines hok⟩
      · cases hpop
  · cases hop
    exact ⟨0, idle_refines h.reader.coherent h.control t (.nil _)
      (fun ev hev => by cases hev) rfl rfl rfl rfl⟩

theorem World.Running.rollbackTo_refines {name : String}
    {fk : Option Int} (hop : w.store.rollbackToNamedSavepoint t name = .ok (s, fk)) :
    ∃ n, w.Refines clash seed t (replicate n (.undo t)) (w.withStore s) := by
  simp only [rollbackToNamedSavepoint, h.txs] at hop
  split at hop
  next drained fk tx' hroll =>
    cases hop
    unfold Transaction.rollbackToNamedSavepoint at hroll
    split at hroll
    · cases hroll
    next above target below hsplit =>
      cases hroll
      obtain ⟨hstack, -⟩ := Transaction.splitAtNamed_eq hsplit
      have hok := h.savepointsOK
      rw [hstack] at hok
      -- the target is back on the stack, with empty lists
      have hpush : SavepointsOK (w.toState seed) t (.named name target.startsTransaction
          target.deferredFkViolations target.header target.headerDirty ::
            (above ++ target :: below)) := hok.push rfl rfl
      refine ⟨_, h.undo_refines (hpush.perm ?_)⟩
      rw [show above ++ target :: below = (above ++ [target]) ++ below by simp]
      exact perm_middle.symm
  · cases hop
    exact ⟨0, idle_refines h.reader.coherent h.control t (.nil _)
      (fun ev hev => by cases hev) rfl rfl rfl rfl⟩

theorem World.Running.commitTx_refines (schema : Bool) :
    w.Refines clash seed t [] { w with
      commits := update w.commits t (some ⟨.initial, schema, [], none⟩) } := by
  have hghosts : ghosts seed { w with
      commits := update w.commits t (some ⟨.initial, schema, [], none⟩) } =
        w.ghosts seed := by
    simp only [ghosts, Ghosts.mk.injEq, and_true]
    funext u
    by_cases hu : u = t
    · subst hu
      simp only [update_self, h.commit]
      rfl
    · simp [update_of_ne hu]
  have hstate : toState seed { w with
      commits := update w.commits t (some ⟨.initial, schema, [], none⟩) } =
        w.toState seed := by
    rw [toState, hghosts]
    rfl
  refine h.control.refines h.txs (hstate ▸ .nil _) (by simp)
    (fun u hu => ⟨rfl, update_of_ne hu .., rfl⟩) rfl h.txs rfl (fun sm hsm => ?_)
    (fun rb hrb => ?_) (fun _ => hstate ▸ h.savepointsOK)
  · simp only [update_self, some.injEq] at hsm
    subst hsm
    exact .inl (congrArg TransactionState.toStatus h.active)
  · rw [h.rollback] at hrb
    cases hrb

end

variable (hc : Coherent clash IntKeyed (w.toState seed)) (hw : w.Control seed)

include hc hw

omit [DecidableEq κ] in
theorem World.runOp_cases {op : Except Failure (MvStore κ η × α)} (hexec : w.runOp t op = some w') :
    ∃ tx s a, w.Running clash seed t tx ∧ op = .ok (s, a) ∧ w' = w.withStore s := by
  unfold runOp at hexec
  split at hexec
  next hrun =>
    obtain ⟨tx, h⟩ := running hc hw hrun
    split at hexec
    next s a =>
      cases hexec
      exact ⟨tx, s, a, h, rfl, rfl⟩
    · cases hexec
  · cases hexec

variable {id : RowID κ} {value : Option (Row κ)}

theorem World.runWrite_cases {op : Except Failure (MvStore κ η × Except LimboError Bool)}
    (hexec : w.runWrite t id value op = some w') :
    ∃ tx s res, w.Running clash seed t tx ∧ op = .ok (s, res) ∧ w'.store = s ∧
      w'.commits = w.commits ∧ w'.rollbacks = w.rollbacks ∧
      (res = .ok true ∧ w'.ghosts seed = (w.ghosts seed).wrote t id value ∨
        res ≠ .ok true ∧ w' = w.withStore s) := by
  unfold runWrite at hexec
  split at hexec
  next hrun =>
    obtain ⟨tx, h⟩ := running hc hw hrun
    split at hexec
    next s =>
      cases hexec
      exact ⟨tx, s, _, h, rfl, rfl, rfl, rfl, .inl ⟨rfl, rfl⟩⟩
    next s res hres =>
      cases hexec
      exact ⟨tx, s, res, h, rfl, rfl, rfl, rfl, .inr ⟨hres, rfl⟩⟩
    · cases hexec
  · cases hexec

variable {row : Row κ}

theorem World.create_refines [IndexKey κ] {row : Row κ} {value : Option (Row κ)}
    {op : Except Failure (MvStore κ η)}
    (hspec : ∀ tx, w.Running clash seed t tx → ∃ s', op = .ok s' ∧
      Creates clash IntKeyed (w.ghosts seed) t row.id value w.store s')
    (hexec : w.runWrite t row.id value (op.map fun s => (s, .ok true)) = some w') :
    ∃ v, v.image = value ∧ w.Refines clash seed t [.install t row.id v] w' := by
  obtain ⟨tx, s, res, h, hop, hstore, hcommits, hrollbacks, hres⟩ := runWrite_cases hc hw hexec
  obtain ⟨s', rfl, hcreates⟩ := hspec tx h
  obtain ⟨rfl, rfl⟩ := hop
  rcases hres with ⟨-, hghosts⟩ | ⟨hne, -⟩
  · exact h.creates_refines hcreates hstore hghosts hcommits hrollbacks
  · exact absurd rfl hne

theorem World.delete_refines
    (hexec : w.runWrite t id none (w.store.deleteFromTableOrIndex t id) = some w') :
    ∃ evs, w.Refines clash seed t evs w' ∧ Action.Allows evs (.delete t id : Action κ η) := by
  obtain ⟨tx, s, res, h, hop, hstore, hcommits, hrollbacks, hres⟩ := runWrite_cases hc hw hexec
  have hdeletes := h.reader.delete_spec h.txs hop
  rcases hres with ⟨rfl, hghosts⟩ | ⟨hne, rfl⟩
  · obtain ⟨pre, v, tx', hrefines, hlook, -⟩ := h.ended_refines hdeletes hstore hghosts hcommits
      hrollbacks
    exact ⟨_, hrefines, .inr ⟨pre, v, hlook, rfl⟩⟩
  · obtain ⟨evs, hrefines, hlook⟩ := h.missed_refines hdeletes hne
    exact ⟨evs, hrefines, .inl hlook⟩

theorem World.update_refines [IndexKey κ]
    (hexec : w.runWrite t row.id (some row) (w.store.updateToTableOrIndex t row) = some w') :
    ∃ evs, w.Refines clash seed t evs w' ∧ Action.Allows evs (.update t row : Action κ η) := by
  obtain ⟨tx, s, res, h, hop, hstore, hcommits, hrollbacks, hres⟩ := runWrite_cases hc hw hexec
  rcases h.reader.update_spec h.txs row hop with ⟨hdeletes, hne⟩ | ⟨rfl, s1, hdeletes, hcreates⟩
  · rcases hres with ⟨heq, -⟩ | ⟨-, rfl⟩
    · exact absurd heq hne
    · obtain ⟨evs, hrefines, hlook⟩ := h.missed_refines hdeletes hne
      exact ⟨evs, hrefines, .inl hlook⟩
  · rcases hres with ⟨-, hghosts⟩ | ⟨hne, -⟩
    · -- the world between the two halves of the update
      let w1 : World κ η := { w with
        store := s1
        lastWrite := update w.lastWrite t
          (update (w.lastWrite t) row.id (some none)) }
      have hmid : w1.store = s1 := rfl
      obtain ⟨pre, v, tx1, hrefines, hlook, h1⟩ := h.ended_refines hdeletes hmid rfl rfl rfl
      have hghosts' : w'.ghosts seed =
          ((w.ghosts seed).wrote t row.id none).wrote t row.id (some row) := by
        rw [hghosts]
        simp [Ghosts.wrote]
      obtain ⟨u, himage, hrefines'⟩ :=
        h1.creates_refines hcreates hstore hghosts' hcommits hrollbacks
      refine ⟨_, hrefines.trans hrefines', .inr ⟨pre, v, u, hlook, himage, ?_⟩⟩
      rw [append_assoc]
      rfl
    · exact absurd rfl hne

theorem World.read_refines {row : Option (Row κ)} (hread : w.read t id = some (w', row)) :
    ∃ evs, w.Refines clash seed t evs w' ∧ IsLook t evs ∧
      ∃ tx, w.store.txs t = some tx ∧ tx.state = .active ∧
        World.Running.Finds (w'.toState seed) t tx.beginTs id row := by
  unfold read at hread
  split at hread
  next hrun =>
    obtain ⟨tx, h⟩ := running hc hw hrun
    split at hread
    next s row' hop =>
      cases hread
      obtain ⟨evs, hrefines, hlook, hfinds⟩ := h.read_spec hop
      have hown := hrefines.own
      refine ⟨evs, ⟨hrefines.path, hrefines.actor, fun u hu => ?_, ?_, hrefines.lock⟩,
        hlook, tx, h.txs, h.active, hfinds⟩
      · have hsame := hrefines.others u hu
        exact ⟨hsame.core, hsame.commit, hsame.rollback⟩
      · exact ⟨hown.txId, hown.commit, hown.rollback, hown.savepoints⟩
    · cases hread
  · cases hread

theorem World.exec_refines [IndexKey κ] (hcover : w.store.Covers clash) {a : Action κ η}
    (hexec : w.exec a = some w') :
    ∃ evs, w.Refines clash seed (a.actor w) evs w' ∧ a.Allows evs := by
  cases a with
  | beginTx =>
    simp only [exec] at hexec
    split at hexec
    next s u hrun =>
      cases hexec
      obtain ⟨rfl, hrefines⟩ := beginTx_refines hc hw hrun
      exact ⟨_, hrefines, _, rfl⟩
    · cases hexec
  | beginExclusiveTx =>
    cases hexec
    obtain ⟨evs, hrefines, hevs⟩ := beginExclusiveTx_refines hc hw
    exact ⟨evs, hrefines, hevs.imp_right (.imp_right fun h => ⟨_, h⟩)⟩
  | upgradeToExclusiveTx t =>
    simp only [exec] at hexec
    split at hexec
    next hrun =>
      obtain ⟨tx, h⟩ := running hc hw hrun
      split at hexec
      · cases hexec
        exact ⟨[], h.upgrade_refines (by assumption), rfl⟩
      · cases hexec
    · cases hexec
  | read t id =>
    obtain ⟨⟨w1, row⟩, hread, heq⟩ := map_eq_some_iff.1 hexec
    subst heq
    obtain ⟨evs, hrefines, hlook, -⟩ := read_refines hc hw hread
    exact ⟨evs, hrefines, hlook⟩
  | queryBtreeVersionIsValid t id =>
    obtain ⟨tx, s, a, h, hop, rfl⟩ := runOp_cases hc hw hexec
    obtain ⟨evs, hrefines, hlook⟩ := h.query_refines hop
    exact ⟨evs, hrefines, hlook⟩
  | insert t row =>
    obtain ⟨v, himage, hrefines⟩ := create_refines hc hw
      (fun tx h => h.reader.insert_spec h.txs row) hexec
    exact ⟨_, hrefines, v, himage, rfl⟩
  | insertTombstone t row =>
    obtain ⟨v, himage, hrefines⟩ := create_refines hc hw
      (fun tx h => h.reader.insertTombstone_spec h.txs row) hexec
    exact ⟨_, hrefines, v, himage, rfl⟩
  | insertBtreeResident t row =>
    obtain ⟨v, himage, hrefines⟩ := create_refines hc hw
      (fun tx h => h.reader.insertBtreeResident_spec h.txs row) hexec
    exact ⟨_, hrefines, v, himage, rfl⟩
  | update t row => exact update_refines hc hw hexec
  | delete t id => exact delete_refines hc hw hexec
  | withHeaderMut t f =>
    obtain ⟨tx, s, a, h, hop, rfl⟩ := runOp_cases hc hw hexec
    refine ⟨[], h.modify_refines
      (fun tx => { tx with header := f tx.header, headerDirty := true }) ?_ (fun _ => rfl) rfl
      h.savepointsOK hop, rfl⟩
    simp [withHeaderMut, h.txs]
  | beginSavepoint t =>
    obtain ⟨tx, s, a, h, hop, rfl⟩ := runOp_cases hc hw hexec
    refine ⟨[], h.modify_refines Transaction.beginSavepoint ?_ (fun _ => rfl) rfl ?_ hop, rfl⟩
    · simp [beginSavepoint, h.txs]
    · exact h.savepointsOK.push rfl rfl
  | beginNamedSavepoint t name starts fk =>
    obtain ⟨tx, s, a, h, hop, rfl⟩ := runOp_cases hc hw hexec
    refine ⟨[], h.modify_refines (·.beginNamedSavepoint name starts fk) ?_ (fun _ => rfl) rfl ?_
      hop, rfl⟩
    · simp [beginNamedSavepoint, h.txs]
    · exact h.savepointsOK.push rfl rfl
  | releaseSavepoint t =>
    have hexec : w.runOp t (.ok (w.store.releaseSavepoint t, ())) = some w' := hexec
    obtain ⟨tx, s, a, h, hop, rfl⟩ := runOp_cases hc hw hexec
    cases hop
    refine ⟨[], And.right (h.modifyTx_quiet _ ?_ ?_ h.savepointsOK.releaseSavepoint), rfl⟩
    · exact fun _ => tx.releaseSavepoint_frame.1 _
    · exact tx.releaseSavepoint_frame.2
  | releaseNamedSavepoint t name =>
    obtain ⟨tx, s, a, h, hop, rfl⟩ := runOp_cases hc hw hexec
    simp only [releaseNamedSavepoint, h.txs] at hop
    cases hop
    refine ⟨[], And.right (h.modifyTx_quiet _ ?_ ?_ h.savepointsOK.releaseNamedSavepoint), rfl⟩
    · exact fun _ => (tx.releaseNamedSavepoint_frame name).1 _
    · exact (tx.releaseNamedSavepoint_frame name).2
  | rollbackFirstSavepoint t =>
    obtain ⟨tx, s, a, h, hop, rfl⟩ := runOp_cases hc hw hexec
    obtain ⟨n, hrefines⟩ := h.rollbackFirst_refines hop
    exact ⟨_, hrefines, n, rfl⟩
  | rollbackToNamedSavepoint t name =>
    obtain ⟨tx, s, a, h, hop, rfl⟩ := runOp_cases hc hw hexec
    obtain ⟨n, hrefines⟩ := h.rollbackTo_refines hop
    exact ⟨_, hrefines, n, rfl⟩
  | commitTx t schema =>
    simp only [exec] at hexec
    split at hexec
    next hrun =>
      obtain ⟨tx, h⟩ := running hc hw hrun
      cases hexec
      exact ⟨[], h.commitTx_refines schema, rfl⟩
    · cases hexec
  | commitStep t =>
    obtain ⟨evs, hrefines, hevs⟩ := commitStep_refines hc hw hcover hexec
    exact ⟨evs, hrefines, hevs⟩
  | rollbackTx t => exact ⟨_, rollbackTx_refines hw hexec, rfl⟩
  | rollbackStep t =>
    obtain ⟨ev, hev, hrefines⟩ := rollbackStep_refines hc hw hexec
    refine ⟨_, hrefines, fun ev' hev' => ?_⟩
    rw [mem_singleton] at hev'
    exact hev' ▸ hev
  | checkpoint old rewrite =>
    simp only [exec] at hexec
    split at hexec
    · split at hexec
      next hrun =>
        cases hexec
        exact ⟨_, (checkpoint_refines hc hw hrun 0).2, rfl⟩
      · cases hexec
    · cases hexec

end PgMicro.Mvcc
