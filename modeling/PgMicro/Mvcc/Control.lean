import PgMicro.MultiVersion.Bystander
import PgMicro.Mvcc.Committing

/-!
# Where each transaction stands

The commit or rollback a transaction is in fits what the store says about it, its
savepoints record its own work, and the checkpoint lock counts the transactions in the map.
-/

namespace PgMicro.Mvcc

open MultiVersion Transaction

variable {κ η : Type} {w : World κ η} {seed : Nat}

section

variable {st st' : State (RowID κ) (Row κ)} {t : TxID} {x x' : Txn (RowID κ)}
  {sm : CommitStateMachine κ η} {rb : RollbackState κ}

def MarkedOnlyIn (st : State (RowID κ) (Row κ)) (t : TxID) (ids : List (RowID κ)) : Prop :=
  ∀ r, r ∉ ids → ∀ v ∈ st.chain r, ¬ v.Mentions t

def CommitStateMachine.Matches (st : State (RowID κ) (Row κ)) (t : TxID) (x : Txn (RowID κ))
    (sm : CommitStateMachine κ η) : Prop :=
  match sm.state with
  | .initial => x.status = .active ∨ ∃ e, x.status = .preparing e
  | .commit e | .waitForDependencies e =>
    x.status = .preparing e ∧ sm.writeSet.Perm x.writes
  | .beginCommitLogicalLog e _ | .syncLogicalLog e | .endCommitLogicalLog e | .commitEnd e =>
    x.status = .preparing e ∧ sm.writeSet.Perm x.writes ∧ x.pending = 0 ∧ x.abortNow = false
  | .rewriteLiveVersions e ids => x.status = .committed e ∧ MarkedOnlyIn st t ids
  | .notifyDependents e => x.status = .committed e ∧ MarkedOnlyIn st t []
  | .publishCommit e | .leaveTxs e =>
    x.status = .committed e ∧ MarkedOnlyIn st t [] ∧ x.dependents = []

def RollbackState.Matches (st : State (RowID κ) (Row κ)) (t : TxID) (x : Txn (RowID κ))
    (rb : RollbackState κ) : Prop :=
  match rb with
  | .notifyDependents => x.status = .aborted
  | .rollbackRows ids => x.status = .aborted ∧ x.dependents = [] ∧ MarkedOnlyIn st t ids

def NoNewMarks (st st' : State (RowID κ) (Row κ)) (t : TxID) : Prop :=
  ∀ r, ∀ v' ∈ st'.chain r, v'.Mentions t → ∃ v ∈ st.chain r, v.Mentions t

theorem MarkedOnlyIn.frame {ids : List (RowID κ)} (h : MarkedOnlyIn st t ids)
    (hmarks : NoNewMarks st st' t) : MarkedOnlyIn st' t ids := by
  intro r hr v' hv' hm
  obtain ⟨v, hv, hm⟩ := hmarks r v' hv' hm
  exact h r hr v hv hm

theorem CommitStateMachine.Matches.frame (h : sm.Matches st t x) (hby : Bystander x x')
    (hmarks : NoNewMarks st st' t) : sm.Matches st' t x' := by
  unfold CommitStateMachine.Matches at h ⊢
  rw [hby.status, hby.writes]
  split at h
  case h_1 | h_2 | h_3 => exact h
  case h_4 | h_5 | h_6 | h_7 => exact ⟨h.1, h.2.1, hby.ready h.2.2.1 h.2.2.2⟩
  case h_8 | h_9 => exact ⟨h.1, h.2.frame hmarks⟩
  case h_10 | h_11 => exact ⟨h.1, h.2.1.frame hmarks, hby.drained h.2.2 (by simp [h.1])⟩

theorem RollbackState.Matches.aborted (h : rb.Matches st t x) : x.status = .aborted := by
  cases rb with
  | notifyDependents => exact h
  | rollbackRows ids => exact h.1

theorem RollbackState.Matches.frame (h : rb.Matches st t x) (hby : Bystander x x')
    (hmarks : NoNewMarks st st' t) : rb.Matches st' t x' := by
  cases rb with
  | notifyDependents => exact hby.status.trans h
  | rollbackRows ids =>
    exact ⟨hby.status.trans h.1, hby.drained h.2.1 (by simp [h.1]), h.2.2.frame hmarks⟩

end

structure MvStore.LockOK (s : MvStore κ η) : Prop where
  writer : s.blockingCheckpointLock.writer = false
  readers : s.blockingCheckpointLock.readers = {t | (s.txs t).isSome}.ncard

structure World.ControlAt (seed : Nat) (w : World κ η) (t : TxID) : Prop where
  txId : ∀ tx, w.store.txs t = some tx → tx.txId = t
  commit : ∀ sm, w.commits t = some sm →
    ∃ x, (w.toState seed).txn t = some x ∧ sm.Matches (w.toState seed) t x
  rollback : ∀ rb, w.rollbacks t = some rb →
    ∃ x, (w.toState seed).txn t = some x ∧ rb.Matches (w.toState seed) t x
  savepoints : ∀ tx, w.store.txs t = some tx → tx.state = .active →
    SavepointsOK (w.toState seed) t tx.savepointStack

/-- A transaction that commits is not rolled back at the same time. -/
theorem World.ControlAt.rollbacks_eq_none {t : TxID} {sm : CommitStateMachine κ η}
    (h : w.ControlAt seed t) (hsm : w.commits t = some sm) : w.rollbacks t = none := by
  cases hrb : w.rollbacks t with
  | none => rfl
  | some rb =>
    obtain ⟨x, hx, hmatch⟩ := h.commit sm hsm
    obtain ⟨x', hx', hmatch'⟩ := h.rollback rb hrb
    obtain rfl : x = x' := Option.some.inj (hx.symm.trans hx')
    unfold CommitStateMachine.Matches at hmatch
    rw [hmatch'.aborted] at hmatch
    split at hmatch
    · rcases hmatch with hmatch | ⟨e, hmatch⟩ <;> cases hmatch
    all_goals exact absurd hmatch.1 nofun

structure World.Control (seed : Nat) (w : World κ η) : Prop where
  each : ∀ t, w.ControlAt seed t
  lock : w.store.LockOK

theorem World.Control.ids (h : w.Control seed) : TxIdsMatch w.store.txs :=
  fun t => (h.each t).txId

section

variable [DecidableEq κ] {clash : RowID κ → RowID κ → Prop} {tracked : RowID κ → Prop}
  {w' : World κ η} {evs : List (Event (RowID κ) (Row κ))} {u : TxID}

theorem SavepointsOK.path {st st' : State (RowID κ) (Row κ)} {stack : List (Savepoint κ η)}
    (h : SavepointsOK st u stack) (hc : Coherent clash tracked st)
    (hp : Path clash tracked st evs st') {x : Txn (RowID κ)} (hx : st.txn u = some x)
    (hactive : x.status = .active) (hev : ∀ ev ∈ evs, ev.actor ≠ some u) :
    SavepointsOK st' u stack := by
  induction hp generalizing x with
  | nil => exact h
  | cons hs _ ih =>
    obtain ⟨hev1, hev⟩ := List.forall_mem_cons.1 hev
    obtain ⟨x1, hx1, hby⟩ := hs.bystander hc hev1 hx
    refine ih (h.step hc hs hx hactive ?_) (hc.step hs) hx1 (hby.status.trans hactive) hev
    rintro rfl
    exact hev1 rfl

/-- What the world knows about `u` in its own fields is the same. -/
structure World.SameAt (w w' : World κ η) (u : TxID) : Prop where
  core : (w'.store.txs u).map core = (w.store.txs u).map core
  commit : w'.commits u = w.commits u
  rollback : w'.rollbacks u = w.rollbacks u

theorem World.ControlAt.frame (h : w.ControlAt seed u)
    (hc : Coherent clash tracked (w.toState seed))
    (hp : Path clash tracked (w.toState seed) evs (w'.toState seed))
    (hev : ∀ ev ∈ evs, ev.actor ≠ some u) (hsame : w.SameAt w' u) : w'.ControlAt seed u := by
  have hmarks : NoNewMarks (w.toState seed) (w'.toState seed) u :=
    fun r v' hv' hm => hp.mentions_back hev hv' hm
  have hback : ∀ tx', w'.store.txs u = some tx' →
      ∃ tx, w.store.txs u = some tx ∧ tx'.core = tx.core := by
    intro tx' htx'
    have hcore := hsame.core
    rw [htx', Option.map_some, eq_comm, Option.map_eq_some_iff] at hcore
    obtain ⟨tx, htx, heq⟩ := hcore
    exact ⟨tx, htx, heq.symm⟩
  refine ⟨fun tx' htx' => ?_, fun sm hsm => ?_, fun rb hrb => ?_, fun tx' htx' hactive => ?_⟩
  · obtain ⟨tx, htx, hcore⟩ := hback tx' htx'
    exact (congrArg Transaction.txId hcore).trans (h.txId tx htx)
  · obtain ⟨x, hx, hmatch⟩ := h.commit sm (hsame.commit ▸ hsm)
    obtain ⟨x', hx', hby⟩ := hp.bystander hc hev hx
    exact ⟨x', hx', hmatch.frame hby hmarks⟩
  · obtain ⟨x, hx, hmatch⟩ := h.rollback rb (hsame.rollback ▸ hrb)
    obtain ⟨x', hx', hby⟩ := hp.bystander hc hev hx
    exact ⟨x', hx', hmatch.frame hby hmarks⟩
  · obtain ⟨tx, htx, hcore⟩ := hback tx' htx'
    have hstate : tx.state = .active := (congrArg state hcore).symm.trans hactive
    have hstack := congrArg savepointStack hcore
    rw [show tx'.savepointStack = tx.savepointStack from hstack]
    exact (h.savepoints tx htx hstate).path hc hp (MvStore.txn_of_txs htx)
      (congrArg TransactionState.toStatus hstate) hev

end

end PgMicro.Mvcc
