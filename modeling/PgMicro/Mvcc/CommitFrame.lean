import PgMicro.Mvcc.Refinement

/-!
# What a commit may change

A phase of the commit changes the locks, the header and the log, which the protocol does not
see, or takes one step of it.
-/

namespace PgMicro.Mvcc

open MultiVersion Function CommitStateMachine TransactionState MvStore Ghosts Option

variable {κ η : Type} {clash : RowID κ → RowID κ → Prop} {seed e : Nat} {w w' : World κ η}
  {t : TxID} {tx : Transaction κ η} {g : Ghosts κ} {s s' s'' : MvStore κ η}

section

/-- The stores differ at most in locks, header, log and watermarks, and in what `t` holds
of the commit lock. -/
structure MvStore.SameFor (t : TxID) (s s' : MvStore κ η) : Prop where
  rows : s'.rows = s.rows
  clock : s'.clock = s.clock
  txIds : s'.txIds = s.txIds
  versionIdCounter : s'.versionIdCounter = s.versionIdCounter
  lock : s'.blockingCheckpointLock = s.blockingCheckpointLock
  others : ∀ u, u ≠ t → s'.txs u = s.txs u
  own : ∀ tx, s.txs t = some tx → ∃ held, s'.txs t = some { tx with pagerCommitLockHeld := held }

namespace MvStore.SameFor

theorem of_txs (h : (s'.rows, s'.clock, s'.txIds, s'.versionIdCounter,
      s'.blockingCheckpointLock, s'.txs) =
    (s.rows, s.clock, s.txIds, s.versionIdCounter, s.blockingCheckpointLock, s.txs)) :
    s.SameFor t s' := by
  simp only [Prod.mk.injEq] at h
  obtain ⟨hrows, hclock, hids, hver, hlock, htxs⟩ := h
  exact ⟨hrows, hclock, hids, hver, hlock, fun u _ => congrFun htxs u,
    fun tx htx => ⟨tx.pagerCommitLockHeld, (congrFun htxs t).trans htx⟩⟩

theorem refl (t : TxID) (s : MvStore κ η) : s.SameFor t s :=
  of_txs rfl

theorem trans (h : s.SameFor t s') (h' : s'.SameFor t s'') : s.SameFor t s'' where
  rows := h'.rows.trans h.rows
  clock := h'.clock.trans h.clock
  txIds := h'.txIds.trans h.txIds
  versionIdCounter := h'.versionIdCounter.trans h.versionIdCounter
  lock := h'.lock.trans h.lock
  others u hu := (h'.others u hu).trans (h.others u hu)
  own tx htx := by
    obtain ⟨held, htx'⟩ := h.own tx htx
    obtain ⟨held', htx''⟩ := h'.own _ htx'
    exact ⟨held', htx''⟩

theorem toTxns_eq (h : s.SameFor t s') (htx : s.txs t = some tx) :
    toTxns g s'.txs = toTxns g s.txs := by
  funext u
  by_cases hu : u = t
  · subst hu
    obtain ⟨held, htx'⟩ := h.own tx htx
    simp only [toTxns, htx, htx']
    rfl
  · simp [toTxns, h.others u hu]

theorem toState_eq (h : s.SameFor t s') (htx : s.txs t = some tx) : s'.toState g = s.toState g := by
  simp [toState, h.toTxns_eq htx, h.rows, h.clock, h.txIds, h.versionIdCounter]

end MvStore.SameFor

variable (s)

theorem MvStore.releaseExclusiveTx_same (t : TxID) : s.SameFor t s.releaseExclusiveTx :=
  .of_txs rfl

theorem MvStore.releaseIfExclusive_same (t : TxID) :
    s.SameFor t (if s.isExclusiveTx t then s.releaseExclusiveTx else s) := by
  split
  · exact s.releaseExclusiveTx_same t
  · exact .refl t s

theorem MvStore.unlockCommitLockIfHeld_same (t : TxID) :
    s.SameFor t (s.unlockCommitLockIfHeld t) := by
  unfold unlockCommitLockIfHeld
  split
  next tx htx =>
    split
    · refine ⟨rfl, rfl, rfl, rfl, rfl, fun u hu => ?_, fun tx' htx' => ⟨false, ?_⟩⟩
      · exact update_of_ne hu ..
      · exact (update_self ..).trans (congrArg _ htx')
    · exact .refl t s
  · exact .refl t s

end

section

theorem MvStore.finite_txs {tracked : RowID κ → Prop} (hc : Coherent clash tracked (s.toState g)) :
    {u | (s.txs u).isSome}.Finite := by
  refine (Set.finite_Iio s.txIds).subset ?_
  intro u hu
  obtain ⟨tx, htx⟩ := isSome_iff_exists.1 hu
  exact (hc.timely.txn_lt u _ (txn_of_txs htx)).1

theorem MvStore.LockOK.remove (h : s.LockOK) (htx : s.txs t = some tx)
    (hlock : s'.blockingCheckpointLock = s.blockingCheckpointLock.unlock)
    (hothers : ∀ u, u ≠ t → (s'.txs u).isSome = (s.txs u).isSome) (hgone : s'.txs t = none) :
    s'.LockOK := by
  have hdom : {u | (s'.txs u).isSome} = {u | (s.txs u).isSome} \ {t} := by
    ext u
    by_cases hu : u = t
    · subst hu
      simp [hgone]
    · simp [hothers u hu, hu]
  have hmem : t ∈ {u | (s.txs u).isSome} := by simp [htx]
  refine ⟨?_, ?_⟩
  · simp [hlock, TursoRwLock.unlock, h.writer]
  · rw [hdom, Set.ncard_sdiff_singleton_of_mem hmem, ← h.readers, hlock]
    simp [TursoRwLock.unlock, h.writer]

theorem MvStore.removeTx_frame (h : s.removeTx t = some s') (htx : s.txs t = some tx) :
    s'.txs = update s.txs t none ∧ s'.rows = s.rows ∧
      s'.blockingCheckpointLock = s.blockingCheckpointLock.unlock := by
  simp only [removeTx, htx, ite_none_right_eq_some, some.injEq] at h
  obtain ⟨-, rfl⟩ := h
  exact ⟨rfl, rfl, rfl⟩

theorem MvStore.finishReadOnly_frame (h : s.finishReadOnly t e = some s')
    (htx : s.txs t = some tx) :
    s'.txs = update s.txs t none ∧
      s'.blockingCheckpointLock = s.blockingCheckpointLock.unlock := by
  rw [finishReadOnly, modifyTx_eq htx] at h
  obtain ⟨htxs, -, hlock⟩ := removeTx_frame h (update_self ..)
  exact ⟨htxs.trans (update_idem ..), hlock⟩

theorem World.leaves [DecidableEq κ] (hw : w.Control seed) (htx : w.store.txs t = some tx)
    (hpath : Path clash IntKeyed (w.toState seed) evs (w'.toState seed))
    (hact : ∀ ev ∈ evs, ∀ u, ev.actor = some u → u = t)
    (hlock : w'.store.blockingCheckpointLock = w.store.blockingCheckpointLock.unlock)
    (hothers : ∀ u, u ≠ t → w.SameAt w' u) (hgone : w'.store.txs t = none)
    (hcommit : w'.commits t = none) (hrollback : w'.rollbacks t = none) :
    w.Refines clash seed t evs w' where
  path := hpath
  actor := hact
  others := hothers
  own := by
    constructor <;> intro _ hsome
    · cases hgone.symm.trans hsome
    · cases hcommit.symm.trans hsome
    · cases hrollback.symm.trans hsome
    · cases hgone.symm.trans hsome
  lock := by
    refine hw.lock.remove htx hlock (fun u hu => ?_) hgone
    have hcore := congrArg isSome (hothers u hu).core
    rwa [isSome_map, isSome_map] at hcore

end

variable {sm sm' : CommitStateMachine κ η} {record : Option (CommitRecord κ)}

/-- The protocol steps that the commit of `t` takes. -/
def IsCommit (t : TxID) : Event (RowID κ) (Row κ) → Prop
  | .prepare u | .validate u | .commit u | .stamp u _ | .release u | .retire u => u = t
  | _ => False

theorem IsCommit.actor {ev : Event (RowID κ) (Row κ)} (h : IsCommit t ev) {u : TxID}
    (hu : ev.actor = some u) : u = t := by
  cases ev <;> first
    | exact h.elim
    | exact (some.inj hu).symm.trans h

structure World.Committing (clash : RowID κ → RowID κ → Prop) (seed : Nat) (w : World κ η)
    (t : TxID) (tx : Transaction κ η) (sm : CommitStateMachine κ η) : Prop where
  coherent : Coherent clash IntKeyed (w.toState seed)
  control : w.Control seed
  txs : w.store.txs t = some tx
  commit : w.commits t = some sm
  rollback : w.rollbacks t = none
  state : sm.Matches (w.toState seed) t (tx.toTxn ((w.ghosts seed).validated t))

theorem World.committing (hc : Coherent clash IntKeyed (w.toState seed)) (hw : w.Control seed)
    (hsm : w.commits t = some sm) : ∃ tx, w.Committing clash seed t tx sm := by
  obtain ⟨x, hx, hmatch⟩ := (hw.each t).commit sm hsm
  obtain ⟨tx, htx, rfl⟩ := txs_of_txn hx
  exact ⟨tx, hc, hw, htx, hsm, (hw.each t).rollbacks_eq_none hsm, hmatch⟩

theorem World.Committing.txId (h : w.Committing clash seed t tx sm) : tx.txId = t :=
  h.control.ids t tx h.txs

structure World.CommitTo (w : World κ η) (t : TxID) (sm' : Option (CommitStateMachine κ η))
    (record : Option (CommitRecord κ)) (s : MvStore κ η) (w' : World κ η) : Prop where
  store : w'.store = s
  commits : w'.commits = update w.commits t sm'
  history : w'.history =
    match record with
    | some record => update w.history t (some record)
    | none => w.history
  lastWrite : w'.lastWrite = w.lastWrite
  rollbacks : w'.rollbacks = w.rollbacks

def Ghosts.phase (g : Ghosts κ) (t : TxID) (validated : Bool) : Ghosts κ :=
  { g with validated := update g.validated t validated }

variable {osm : Option (CommitStateMachine κ η)}

theorem World.CommitTo.validated {record : Option (CommitRecord κ)}
    (h : w.CommitTo t osm record s w') :
    (w'.ghosts seed).validated =
      update (w.ghosts seed).validated t (osm.any isValidated) := by
  funext u
  by_cases hu : u = t
  · subst hu
    simp [ghosts, h.commits]
  · simp [ghosts, h.commits, update_of_ne hu]

theorem World.CommitTo.ghosts (h : w.CommitTo t osm none s w') :
    w'.ghosts seed = (w.ghosts seed).phase t (osm.any isValidated) := by
  have hv : (w'.ghosts seed).validated = _ := h.validated
  simp only [World.ghosts] at hv
  simp [World.ghosts, phase, hv, h.history, h.lastWrite]

theorem World.CommitTo.ghosts_commit {record : CommitRecord κ}
    (h : w.CommitTo t osm (some record) s w') :
    w'.ghosts seed = ((w.ghosts seed).phase t (osm.any isValidated)).committed t
      record.toRecord := by
  have hv : (w'.ghosts seed).validated = _ := h.validated
  have hhist : (fun u => (update w.history t (some record) u).map
      CommitRecord.toRecord) = update (fun u => (w.history u).map CommitRecord.toRecord) t
        (some record.toRecord) := by
    funext u
    by_cases hu : u = t
    · subst hu
      simp
    · simp [update_of_ne hu]
  simp only [World.ghosts] at hv
  simp [World.ghosts, Ghosts.phase, Ghosts.committed, hv, h.history, h.lastWrite, hhist]

variable [DecidableEq κ]

/-- The commit of `t` takes steps of the protocol, and only those of a commit. -/
def World.CommitRefines (clash : RowID κ → RowID κ → Prop) (seed : Nat) (t : TxID)
    (w w' : World κ η) : Prop :=
  ∃ evs, w.Refines clash seed t evs w' ∧ ∀ ev ∈ evs, IsCommit t ev

def MvStore.prepared (s : MvStore κ η) (t : TxID) : MvStore κ η :=
  { s with clock := s.clock + 1 }.modifyTx t fun tx => { tx with state := .preparing s.clock }

omit [DecidableEq κ] in
theorem MvStore.prepared_eq (htx : s.txs t = some tx) :
    s.prepared t = { s with
      clock := s.clock + 1
      txs := update s.txs t (some { tx with state := .preparing s.clock }) } :=
  modifyTx_eq (show ({ s with clock := s.clock + 1 } : MvStore κ η).txs t = _ from htx)

theorem MvStore.prepare_step (htx : s.txs t = some tx) (hactive : tx.state = .active) :
    Step clash IntKeyed (s.toState g) (.prepare t) ((s.prepared t).toState g) := by
  have hstep : Step clash IntKeyed (s.toState g) (.prepare t) _ :=
    Step.prepare _ (txn_of_txs htx) (congrArg toStatus hactive)
  rw [prepared_eq htx]
  simp only [toState, toTxns_update]
  exact hstep

omit [DecidableEq κ] in
theorem toTxns_phase (htx : s.txs t = some tx) (validated : Bool) :
    toTxns (g.phase t validated) s.txs =
      update (toTxns g s.txs) t (some (tx.toTxn validated)) := by
  funext u
  by_cases hu : u = t
  · subst hu
    simp [toTxns, htx, phase]
  · simp [toTxns, phase, update_of_ne hu]

theorem MvStore.validate_step (htx : s.txs t = some tx) (hst : tx.state.toStatus = .preparing e)
    (hadmits : ∀ r ∈ tx.writeSet, ∀ r', clash r r' → ∀ v ∈ (s.toState g).chain r',
      (s.toState g).Admits t tx.beginTs e v) :
    Step clash IntKeyed (s.toState g) (.validate t) (s.toState (g.phase t true)) := by
  have hstep : Step clash IntKeyed (s.toState g) (.validate t) _ :=
    Step.validate _ (txn_of_txs htx) hst hadmits
  simp only [toState, toTxns_phase htx]
  exact hstep

end PgMicro.Mvcc
