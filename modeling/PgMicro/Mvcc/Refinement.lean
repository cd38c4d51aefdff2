import PgMicro.Mvcc.Control

/-!
# Every action refines the protocol

Each action of the step system is a path of protocol steps taken by the transaction that
acts, and leaves every transaction where its commit or rollback says it stands.
-/

namespace PgMicro.Mvcc

open MultiVersion Function List Transaction Option MvStore World

variable {κ η : Type} [DecidableEq κ] {clash : RowID κ → RowID κ → Prop} {seed : Nat}
  {w w' : World κ η} {evs : List (Event (RowID κ) (Row κ))} {t : TxID} {tx tx' : Transaction κ η}
  {drained : List (Savepoint κ η)}

/-- An action of `t` takes these steps of the protocol. -/
structure World.Refines (clash : RowID κ → RowID κ → Prop) (seed : Nat) (t : TxID)
    (w : World κ η) (evs : List (Event (RowID κ) (Row κ))) (w' : World κ η) : Prop where
  path : Path clash IntKeyed (w.toState seed) evs (w'.toState seed)
  actor : ∀ ev ∈ evs, ∀ u, ev.actor = some u → u = t
  others : ∀ u, u ≠ t → w.SameAt w' u
  own : w'.ControlAt seed t
  lock : w'.store.LockOK

theorem World.Refines.control (h : w.Refines clash seed t evs w')
    (hc : Coherent clash IntKeyed (w.toState seed)) (hw : w.Control seed) : w'.Control seed where
  each u := by
    by_cases hu : u = t
    · exact hu ▸ h.own
    · refine (hw.each u).frame hc h.path (fun ev hev hact => ?_) (h.others u hu)
      exact hu (h.actor ev hev u hact)
  lock := h.lock

theorem World.Refines.coherent (h : w.Refines clash seed t evs w')
    (hc : Coherent clash IntKeyed (w.toState seed)) : Coherent clash IntKeyed (w'.toState seed) :=
  hc.path h.path

variable {w'' : World κ η}

omit [DecidableEq κ] in
theorem World.SameAt.trans {u : TxID} (h : w.SameAt w' u) (h' : w'.SameAt w'' u) : w.SameAt w'' u :=
  ⟨h'.core.trans h.core, h'.commit.trans h.commit, h'.rollback.trans h.rollback⟩

theorem World.Refines.trans {evs' : List (Event (RowID κ) (Row κ))}
    (h : w.Refines clash seed t evs w') (h' : w'.Refines clash seed t evs' w'') :
    w.Refines clash seed t (evs ++ evs') w'' where
  path := h.path.append h'.path
  actor ev hev := (mem_append.1 hev).elim (h.actor ev) (h'.actor ev)
  others u hu := (h.others u hu).trans (h'.others u hu)
  own := h'.own
  lock := h'.lock

section

variable {s s' : MvStore κ η}

omit [DecidableEq κ] in
theorem MvStore.LockOK.frame (h : s.LockOK)
    (hlock : s'.blockingCheckpointLock = s.blockingCheckpointLock)
    (hdom : ∀ u, (s'.txs u).isSome = (s.txs u).isSome) : s'.LockOK where
  writer := by rw [hlock, h.writer]
  readers := by simp [hlock, h.readers, hdom]

end

omit [DecidableEq κ] in
theorem actor_single {ev : Event (RowID κ) (Row κ)} (h : ev.actor = some t) :
    ∀ ev' ∈ [ev], ∀ u, ev'.actor = some u → u = t := by
  intro ev' hev' u hu
  rw [mem_singleton.1 hev', h] at hu
  exact (some.inj hu).symm

theorem World.Control.refines (hw : w.Control seed) (htx : w.store.txs t = some tx)
    (hpath : Path clash IntKeyed (w.toState seed) evs (w'.toState seed))
    (hact : ∀ ev ∈ evs, ∀ u, ev.actor = some u → u = t) (hothers : ∀ u, u ≠ t → w.SameAt w' u)
    (hlock : w'.store.blockingCheckpointLock = w.store.blockingCheckpointLock)
    (htx' : w'.store.txs t = some tx') (hid : tx'.txId = tx.txId)
    (hcommit : ∀ sm, w'.commits t = some sm →
      sm.Matches (w'.toState seed) t (tx'.toTxn ((w'.ghosts seed).validated t)))
    (hrollback : ∀ rb, w'.rollbacks t = some rb →
      rb.Matches (w'.toState seed) t (tx'.toTxn ((w'.ghosts seed).validated t)))
    (hstack : tx'.state = .active → SavepointsOK (w'.toState seed) t tx'.savepointStack) :
    w.Refines clash seed t evs w' where
  path := hpath
  actor := hact
  others := hothers
  own := by
    refine ⟨fun tx1 htx1 => ?_, fun sm hsm => ⟨_, txn_of_txs htx', hcommit sm hsm⟩,
      fun rb hrb => ⟨_, txn_of_txs htx', hrollback rb hrb⟩, fun tx1 htx1 hactive => ?_⟩ <;>
      rw [htx', some.injEq] at htx1 <;> subst htx1
    · exact hid.trans (hw.ids t tx htx)
    · exact hstack hactive
  lock := by
    refine hw.lock.frame hlock (fun u => ?_)
    by_cases hu : u = t
    · rw [hu, htx', htx, isSome_some, isSome_some]
    · have hcore := congrArg isSome (hothers u hu).core
      rwa [isSome_map, isSome_map] at hcore

open TransactionState

section

structure World.Running (clash : RowID κ → RowID κ → Prop) (seed : Nat) (w : World κ η)
    (t : TxID) (tx : Transaction κ η) : Prop where
  control : w.Control seed
  reader : Reader clash IntKeyed (w.ghosts seed) t tx w.store
  txs : w.store.txs t = some tx
  active : tx.state = .active
  commit : w.commits t = none
  rollback : w.rollbacks t = none

omit [DecidableEq κ] in
theorem World.running (hc : Coherent clash IntKeyed (w.toState seed)) (hw : w.Control seed)
    (hrun : w.isRunning t = true) : ∃ tx, w.Running clash seed t tx := by
  simp only [isRunning, Bool.and_eq_true, Option.any_eq_true, decide_eq_true_eq,
    Option.isNone_iff_eq_none] at hrun
  obtain ⟨⟨tx, htx, hactive⟩, hcommit⟩ := hrun
  refine ⟨tx, hw, ⟨hc, hw.ids, hw.ids t tx htx, tx, htx, hactive, rfl⟩, htx, hactive, hcommit, ?_⟩
  cases hrb : w.rollbacks t with
  | none => rfl
  | some rb =>
    obtain ⟨x, hx, hmatch⟩ := (hw.each t).rollback rb hrb
    obtain ⟨tx', htx', rfl⟩ := txs_of_txn hx
    obtain rfl : tx = tx' := Option.some.inj (htx.symm.trans htx')
    cases (congrArg toStatus hactive).symm.trans hmatch.aborted

namespace World.Running

variable (h : w.Running clash seed t tx)

include h

theorem refines (hpath : Path clash IntKeyed (w.toState seed) evs (w'.toState seed))
    (hact : ∀ ev ∈ evs, ∀ u, ev.actor = some u → u = t) (hcommit : w'.commits = w.commits)
    (hrollback : w'.rollbacks = w.rollbacks)
    (hlock : w'.store.blockingCheckpointLock = w.store.blockingCheckpointLock)
    (hothers : ∀ u, u ≠ t →
      (w'.store.txs u).map core = (w.store.txs u).map core) (htx' : w'.store.txs t = some tx')
    (hid : tx'.txId = tx.txId) (hstack : SavepointsOK (w'.toState seed) t tx'.savepointStack) :
    w.Refines clash seed t evs w' := by
  refine h.control.refines h.txs hpath hact
    (fun u hu => ⟨hothers u hu, congrFun hcommit u, congrFun hrollback u⟩) hlock htx' hid
    (fun sm hsm => ?_) (fun rb hrb => ?_) (fun _ => hstack)
  · rw [hcommit, h.commit] at hsm
    cases hsm
  · rw [hrollback, h.rollback] at hrb
    cases hrb

theorem refines_quiet {s' : MvStore κ η} (hstore : s'.toState (w.ghosts seed) =
      { w.store with txs := update w.store.txs t (some tx') }.toState (w.ghosts seed))
    (htxs : s'.txs = update w.store.txs t (some tx'))
    (hlock : s'.blockingCheckpointLock = w.store.blockingCheckpointLock)
    (htoTxn : ∀ validated, tx'.toTxn validated = tx.toTxn validated) (hid : tx'.txId = tx.txId)
    (hstack : SavepointsOK (w.toState seed) t tx'.savepointStack) :
    (w.withStore s').toState seed = w.toState seed ∧
      w.Refines clash seed t [] (w.withStore s') := by
  have hstate : (w.withStore s').toState seed = w.toState seed := by
    refine Eq.trans hstore ?_
    have hupdate : update (toTxns (w.ghosts seed) w.store.txs) t
        (some (tx.toTxn ((w.ghosts seed).validated t))) = toTxns (w.ghosts seed) w.store.txs := by
      rw [update_eq_self_iff]
      exact (MvStore.txn_of_txs h.txs).symm
    simp [toState, MvStore.toState, toTxns_update, htoTxn, hupdate]
  refine ⟨hstate, h.refines (hstate ▸ .nil _) (fun ev hev => by cases hev) rfl rfl hlock ?_ ?_ hid
    (hstate ▸ hstack)⟩
  · intro u hu
    rw [show (w.withStore s').store.txs = _ from htxs, update_of_ne hu]
  · rw [show (w.withStore s').store.txs = _ from htxs, update_self]

theorem modifyTx_quiet (f : Transaction κ η → Transaction κ η)
    (htoTxn : ∀ validated, (f tx).toTxn validated = tx.toTxn validated)
    (hid : (f tx).txId = tx.txId) (hstack : SavepointsOK (w.toState seed) t (f tx).savepointStack) :
    (w.withStore (w.store.modifyTx t f)).toState seed = w.toState seed ∧
      w.Refines clash seed t [] (w.withStore (w.store.modifyTx t f)) := by
  have heq : w.store.modifyTx t f = _ := modifyTx_eq h.txs
  exact h.refines_quiet (congrArg (MvStore.toState _) heq) (congrArg MvStore.txs heq) rfl htoTxn
    hid hstack

omit [DecidableEq κ] in
theorem savepointsOK : SavepointsOK (w.toState seed) t tx.savepointStack :=
  (h.control.each t).savepoints tx h.txs h.active

theorem next (hrefines : w.Refines clash seed t evs w') (htx' : w'.store.txs t = some tx')
    (hactive : tx'.state = .active) (hcommit : w'.commits = w.commits)
    (hrollback : w'.rollbacks = w.rollbacks) : w'.Running clash seed t tx' := by
  have hw := hrefines.control h.reader.coherent h.control
  exact ⟨hw, ⟨hrefines.coherent h.reader.coherent, hw.ids, hw.ids t tx' htx', tx', htx', hactive,
    rfl⟩, htx', hactive, hcommit ▸ h.commit, hrollback ▸ h.rollback⟩

theorem looked {txs' : Txs κ η} (hl : Looked clash IntKeyed (w.ghosts seed) t w.store txs') :
    ∃ evs cur, w.Refines clash seed t evs (w.withStore { w.store with txs := txs' }) ∧
      (∀ ev ∈ evs, ∃ d, ev = .depend t d) ∧ cur.core = tx.core ∧
      (w.withStore { w.store with txs := txs' }).Running clash seed t cur := by
  obtain ⟨evs, hpath, hdep⟩ := hl.path
  obtain ⟨cur, hcur, hcore⟩ := hl.frame.forth h.txs
  have hstack := congrArg savepointStack hcore
  have hid := congrArg txId hcore
  have hrefines : w.Refines clash seed t evs (w.withStore { w.store with txs := txs' }) := by
    refine h.refines hpath ?_ rfl rfl rfl (fun u _ => hl.frame u) hcur hid ?_
    · intro ev hev u hact
      obtain ⟨d, rfl⟩ := hdep ev hev
      exact (some.inj hact).symm
    · rw [show cur.savepointStack = tx.savepointStack from hstack]
      exact h.savepointsOK.congr rfl rfl
  have hstate := congrArg state hcore
  exact ⟨evs, cur, hrefines, hdep, hcore, h.next hrefines hcur (hstate.trans h.active) rfl rfl⟩

/-- What a read of the row has found in this state: nothing that `t` sees, or the newest
version that `t` sees. -/
def Finds (st : State (RowID κ) (Row κ)) (t b : Nat) (id : RowID κ) (row : Option (Row κ)) :
    Prop :=
  match row with
  | none => ∀ v ∈ st.chain id, st.Hidden t b v
  | some row => ∃ older v newer, st.chain id = older ++ v :: newer ∧ st.Visible t b v ∧
      v.payload = row ∧ ∀ u ∈ newer, st.Hidden t b u

variable {id : RowID κ} {s : MvStore κ η}

theorem read_spec {row : Option (Row κ)} (hrun : w.store.readFromTableOrIndex t id = .ok (s, row)) :
    ∃ evs, w.Refines clash seed t evs (w.withStore s) ∧ (∀ ev ∈ evs, ∃ d, ev = .depend t d) ∧
      Finds ((w.withStore s).toState seed) t tx.beginTs id row := by
  rw [MvStore.readFromTableOrIndex, MvStore.requireActive_eq h.txs h.active] at hrun
  cases hfind : findLastVisible w.store.txs w.store.finalizedTxStates tx
      (w.store.rows id).reverse [] with
  | mk txs' found =>
    obtain ⟨hl, hnone, hsome⟩ := h.reader.search_spec hfind
    obtain ⟨evs, cur, hlook, hdep, -, h1⟩ := h.looked hl
    simp only [hfind] at hrun
    cases found with
    | none =>
      cases hrun
      refine ⟨evs, hlook, hdep, fun v hv => ?_⟩
      obtain ⟨u, hu, rfl⟩ := mem_map.1 hv
      exact hnone rfl u hu
    | some cut =>
      obtain ⟨older, rv, newer⟩ := cut
      obtain ⟨hcut, hvis, hnewer⟩ := hsome older rv newer rfl
      have hfinds : Finds ((w.withStore { w.store with txs := txs' }).toState seed) t tx.beginTs
          id (some rv.row) := by
        refine ⟨older.map RowVersion.toVersion, rv.toVersion, newer.map RowVersion.toVersion,
          ?_, hvis, rfl, ?_⟩
        · simp [toState, withStore, MvStore.toState, toChains, hcut,
            map_append, map_cons]
        · intro v hv
          obtain ⟨u, hu, rfl⟩ := mem_map.1 hv
          exact hnewer u hu
      simp only at hrun
      split at hrun
      · cases hrun
        -- the read set is not part of the protocol
        obtain ⟨hstate, hread⟩ := h1.modifyTx_quiet (·.insertToReadSet id) (fun _ => rfl) rfl
          h1.savepointsOK
        exact ⟨evs, append_nil evs ▸ hlook.trans hread, hdep, hstate ▸ hfinds⟩
      · cases hrun
        exact ⟨evs, hlook, hdep, hfinds⟩

theorem query_refines {id : RowID κ} {s : MvStore κ η} {valid : Bool}
    (hrun : w.store.queryBtreeVersionIsValid t id = .ok (s, valid)) :
    ∃ evs, w.Refines clash seed t evs (w.withStore s) ∧ ∀ ev ∈ evs, ∃ d, ev = .depend t d := by
  simp only [queryBtreeVersionIsValid, h.txs] at hrun
  cases hany : anyBtreeInvalidating w.store.txs w.store.finalizedTxStates tx
      (w.store.rows id).reverse with
  | mk txs' invalid =>
    rw [hany] at hrun
    cases hrun
    have hl : Looked clash IntKeyed (w.ghosts seed) t w.store txs' :=
      h.reader.anyBtreeInvalidating_looked _ (fun u hu => mem_reverse.1 hu) hany
    obtain ⟨evs, -, hlook, hdep, -⟩ := h.looked hl
    exact ⟨evs, hlook, hdep⟩

theorem creates_refines [IndexKey κ] {value : Option (Row κ)}
    (hcreates : Creates clash IntKeyed (w.ghosts seed) t id value w.store s) (hstore : w'.store = s)
    (hghosts : w'.ghosts seed = (w.ghosts seed).wrote t id value) (hcommit : w'.commits = w.commits)
    (hrollback : w'.rollbacks = w.rollbacks) :
    ∃ v, v.image = value ∧ w.Refines clash seed t [.install t id v] w' := by
  obtain ⟨htx, himage, heq, hstep⟩ := hcreates
  rename_i cur allocators versions v
  rw [h.txs, some.injEq] at htx
  subst htx
  have hstate : w'.toState seed = s.toState ((w.ghosts seed).wrote t id value) := by
    rw [toState, hstore, hghosts]
  rw [← hstate] at hstep
  have htx' : w'.store.txs t = some (tx.created id w.store.versionIdCounter) := by
    rw [hstore, heq]
    exact update_self ..
  refine ⟨v, himage, h.refines (.single hstep) (actor_single rfl) hcommit hrollback
    (by rw [hstore, heq]; rfl) ?_ htx' ?_ ?_⟩
  · intro u hu
    rw [hstore, heq]
    simp [withCreated, update_of_ne hu]
  · exact tx.created_txId id _
  · exact h.savepointsOK.created h.reader.coherent hstep (txn_of_txs h.txs)
      (congrArg toStatus h.active)

theorem missed_refines {res : Except LimboError Bool}
    (hdeletes : Deletes clash IntKeyed (w.ghosts seed) t id w.store s res) (hres : res ≠ .ok true) :
    ∃ evs, w.Refines clash seed t evs (w.withStore s) ∧ ∀ ev ∈ evs, ∃ d, ev = .depend t d := by
  cases hdeletes with
  | missed hl heq _ =>
    obtain ⟨evs, -, hlook, hdep, -⟩ := h.looked hl
    exact ⟨evs, heq ▸ hlook, hdep⟩
  | ended => exact absurd rfl hres

theorem ended_refines (hdeletes : Deletes clash IntKeyed (w.ghosts seed) t id w.store s (.ok true))
    (hstore : w'.store = s) (hghosts : w'.ghosts seed = (w.ghosts seed).wrote t id none)
    (hcommit : w'.commits = w.commits) (hrollback : w'.rollbacks = w.rollbacks) :
    ∃ pre v tx', w.Refines clash seed t (pre ++ [.supersede t id v]) w' ∧
      (∀ ev ∈ pre, ∃ d, ev = .depend t d) ∧ w'.Running clash seed t tx' := by
  cases hdeletes with
  | missed _ _ hres => exact absurd rfl hres
  | @ended txs cur older newer rv hl hcur hrows heq hstep =>
    obtain ⟨pre, cur', hlook, hdep, hcore, h1⟩ := h.looked hl
    have hcur' : txs t = some cur' := h1.txs
    rw [hcur, some.injEq] at hcur'
    subst hcur'
    have hstate : w'.toState seed = s.toState ((w.ghosts seed).wrote t id none) := by
      rw [toState, hstore, hghosts]
    rw [← hstate] at hstep
    obtain ⟨hst, hid, -⟩ := cur.deleted_core id rv.id
    have htx' : w'.store.txs t = some (cur.deleted id rv.id) := by
      rw [hstore, heq]
      exact update_self ..
    have hrefines : (w.withStore { w.store with txs := txs }).Refines clash seed t
        [.supersede t id rv.toVersion] w' := by
      refine h1.refines (.single hstep) (actor_single rfl) hcommit hrollback
        (by rw [hstore, heq]; rfl) ?_ htx' hid ?_
      · intro u hu
        rw [hstore, heq]
        simp [withDeleted, withStore, update_of_ne hu]
      · exact h1.savepointsOK.deleted h1.reader.coherent hstep (txn_of_txs h1.txs)
          (congrArg toStatus h1.active)
    exact ⟨pre, _, _, hlook.trans hrefines, hdep,
      h1.next hrefines htx' (hst.trans h1.active) hcommit hrollback⟩

theorem undoAll_refines (hok : SavepointsOK (w.toState seed) t (drained ++ tx.savepointStack)) :
    w.Refines clash seed t (replicate drained.length (.undo t))
      (w.withStore (drained.foldl (fun s sp => s.rollbackSavepointChanges t sp) w.store)) := by
  obtain ⟨tx', hfold, hsame, hpath, hrest⟩ := SavepointsOK.undoAll drained hok h.reader.coherent
    h.txs h.active
  have htxs := congrArg MvStore.txs hfold
  have hlock := congrArg MvStore.blockingCheckpointLock hfold
  have htx' := (congrFun htxs t).trans (update_self ..)
  have hid := congrArg txId hsame
  have hstack := congrArg savepointStack hsame
  refine h.refines hpath ?_ rfl rfl hlock ?_ htx' hid ?_
  · intro ev hev u hact
    rw [eq_of_mem_replicate hev] at hact
    exact (some.inj hact).symm
  · intro u hu
    exact congrArg _ ((congrFun htxs u).trans (update_of_ne hu ..))
  · rw [show tx'.savepointStack = tx.savepointStack from hstack]
    exact hrest

/-- The transaction has undone the savepoints `drained`, and `rest` are left. -/
theorem undo_refines {rest : List (Savepoint κ η)}
    (hok : SavepointsOK (w.toState seed) t (drained ++ rest)) :
    w.Refines clash seed t (replicate drained.length (.undo t))
      (w.withStore (drained.foldl (fun s sp => s.rollbackSavepointChanges t sp)
        (w.store.modifyTx t fun _ => { tx with savepointStack := rest }))) := by
  have hrest : SavepointsOK (w.toState seed) t rest := by
    refine ⟨fun sp hsp => hok.recorded sp (mem_append_right _ hsp), ?_⟩
    have hnodup := hok.nodup
    rw [flatMap_append] at hnodup
    exact (nodup_append.1 hnodup).2.1
  obtain ⟨hstate, hquiet⟩ := h.modifyTx_quiet (fun _ => { tx with savepointStack := rest })
    (fun _ => rfl) rfl hrest
  have htxs := congrArg MvStore.txs
    (MvStore.modifyTx_eq (f := fun _ => { tx with savepointStack := rest }) h.txs)
  have h1 := h.next hquiet ((congrFun htxs t).trans (update_self ..)) h.active rfl rfl
  exact hquiet.trans (h1.undoAll_refines (hstate ▸ hok))

end World.Running

end

end PgMicro.Mvcc
