import PgMicro.Mvcc.HeaderWorld

/-!
# What a step does to the header

A step of a commit stores the header of its transaction in `EndCommitLogicalLog` and in
`CommitEnd`, logs it at most once, and otherwise leaves it alone. No other action disturbs a
commit that is under way.
-/

namespace PgMicro.Mvcc

open Function MvStore Option Transaction

variable {κ η : Type} {sm sm' : CommitStateMachine κ η} {t : TxID} {a : Action κ η} {seed e : Nat}
  {tx' tx : Transaction κ η}

section

variable {s s' : MvStore κ η} {result : TransitionResult}

theorem CommitStateMachine.Effect.quiet (h : CommitStateMachine.Effect s t sm result s')
    (hstate : ∀ e, sm.state ≠ .endCommitLogicalLog e ∧ sm.state ≠ .commitEnd e ∧
      sm.state ≠ .publishCommit e) : s.Untouched s' := by
  cases h with
  | untouched h _ => exact h
  | header hend _ _ => exact absurd hend (hstate _).1
  | logged hend _ _ => exact absurd hend (hstate _).2.1
  | published hend _ _ _ => exact absurd hend (hstate _).2.2

def CommitStateMachine.next (sm' : CommitStateMachine κ η) (result : TransitionResult) :
    Option (CommitStateMachine κ η) :=
  if result = .done then none else some sm'

theorem CommitStateMachine.entersCommitEnd_of_next [DecidableEq κ] [IndexKey κ]
    (hstep : sm.step s t = some (s', sm', result)) {sm1 : CommitStateMachine κ η}
    (hafter : sm'.next result = some sm1) (hout : sm.inCommitEnd = false)
    (hin : sm1.inCommitEnd = true) : sm.entersCommitEnd s t = true := by
  obtain ⟨-, ⟨⟩⟩ := ite_none_left_eq_some.1 hafter
  rw [entersCommitEnd, hstep, hout]
  exact hin

/-- What a step of a commit does to the header, the log and the window between the entry of
`CommitEnd` and its publication. -/
inductive CommitStateMachine.HeaderEffect (s : MvStore κ η) (t : TxID) (tx : Transaction κ η)
    (sm : CommitStateMachine κ η) (s' : MvStore κ η) (after : Option (CommitStateMachine κ η)) :
    Prop where
  | quiet (h : s.Untouched s') (hpublish : sm.toPublish = none)
      (hclosing : after.any inCommitEnd = sm.inCommitEnd)
      (hlogged : after.any hasLogged = sm.hasLogged) (hframe : ∀ sm' ∈ after, sm'.FrameOK tx)
  | entered {e : Nat} (h : s.Untouched s') (hstate : sm.state = .waitForDependencies e)
      (hafter : after = some { sm with state := .commitEnd e }) (hlogged : tx.loggedHeader = none)
  | header {e : Nat} (hs' : s' = { s with globalHeader := tx.header })
      (hstate : sm.state = .endCommitLogicalLog e)
      (hafter : after = some { sm with state := .commitEnd e })
  | logged {e : Nat}
      (hs' : s' = { s with log := s.log ++ sm.pendingLogAppend.toList }.modifyTx t fun tx =>
        { tx with state := .committed e })
      (hstate : sm.state = .commitEnd e)
      (hafter : after = some { sm with
        pendingLogAppend := none, state := .rewriteLiveVersions e sm.writeSet })
  | published {e : Nat} (hheader : s'.globalHeader = tx.header) (hlog : s'.log = s.log)
      (hstate : sm.state = .publishCommit e)
      (hafter : after = some { sm with state := .leaveTxs e })

theorem MvStore.buildCommittedLogRecord_header [DecidableEq κ] {ids : List (RowID κ)}
    {record : LogRecord κ η} (h : s.buildCommittedLogRecord tx e ids = some record) :
    record.header = tx.loggedHeader := by
  obtain ⟨schemaRows, -, h⟩ := bind_eq_some_iff.1 h
  obtain ⟨rows, -, h⟩ := bind_eq_some_iff.1 h
  cases h
  rfl

theorem CommitStateMachine.next_forall {P : CommitStateMachine κ η → Prop} (h : P sm') :
    ∀ sm1 ∈ sm'.next result, P sm1 := by
  intro sm1 hsm1
  unfold next at hsm1
  split at hsm1 <;> cases hsm1
  exact h

theorem CommitStateMachine.open_of_beforeEnd (h : sm.beforeEnd = true) :
    sm.inCommitEnd = false ∧ sm.hasLogged = false ∧ sm.toPublish = none := by
  obtain ⟨state, schema, writeSet, pending⟩ := sm
  cases state <;> first | exact ⟨rfl, rfl, rfl⟩ | exact absurd h Bool.false_ne_true

theorem CommitStateMachine.HeaderEffect.before (hquiet : s.Untouched s')
    (hbefore : sm.beforeEnd = true) (hbefore' : sm'.beforeEnd = true) (hframe : sm'.FrameOK tx) :
    CommitStateMachine.HeaderEffect s t tx sm s' (sm'.next result) := by
  obtain ⟨hclosing, hlogged, hpublish⟩ := open_of_beforeEnd hbefore
  obtain ⟨hclosing', hlogged', -⟩ := open_of_beforeEnd hbefore'
  refine .quiet hquiet hpublish ?_ ?_ (next_forall hframe)
  · unfold next
    split
    · exact hclosing.symm
    · exact hclosing'.trans hclosing.symm
  · unfold next
    split
    · exact hlogged.symm
    · exact hlogged'.trans hlogged.symm

theorem CommitStateMachine.HeaderEffect.frame {after : Option (CommitStateMachine κ η)}
    (h : CommitStateMachine.HeaderEffect s t tx sm s' after) (hframe : sm.FrameOK tx) :
    ∀ sm1 ∈ after, sm1.FrameOK tx := by
  rintro sm1 hsm1
  cases h with
  | quiet _ _ _ _ hnext => exact hnext sm1 hsm1
  | entered _ hstate hafter hlogged =>
    rw [CommitStateMachine.FrameOK, hstate] at hframe
    cases hafter ▸ hsm1
    simp [CommitStateMachine.FrameOK, hframe, hlogged]
  | header _ hstate hafter =>
    rw [CommitStateMachine.FrameOK, hstate] at hframe
    cases hafter ▸ hsm1
    exact hframe
  | logged _ _ hafter =>
    cases hafter ▸ hsm1
    trivial
  | published _ _ _ hafter =>
    cases hafter ▸ hsm1
    trivial

theorem CommitStateMachine.stepInitial_before [IndexKey κ] (hstate : sm.state = .initial)
    (hframe : sm.FrameOK tx) (hstep : stepInitial s t sm = some (s', sm', result)) :
    sm'.beforeEnd = true ∧ sm'.FrameOK tx := by
  obtain ⟨state, schema, writeSet, pending⟩ := sm
  cases hstate
  unfold stepInitial at hstep
  split at hstep
  · cases hstep
    exact ⟨rfl, hframe⟩
  split at hstep
  · cases hstep
    exact ⟨rfl, hframe⟩
  · split at hstep
    · cases hstep
      exact ⟨rfl, hframe⟩
    simp only at hstep
    split at hstep
    · split at hstep
      · cases hstep
        exact ⟨rfl, hframe⟩
      split at hstep
      · cases hstep
        exact ⟨rfl, hframe⟩
      · obtain ⟨s1, -, heq⟩ := map_eq_some_iff.1 hstep
        cases heq
        exact ⟨rfl, hframe⟩
    · cases hstep
      exact ⟨rfl, hframe⟩
  · cases hstep

theorem CommitStateMachine.stepWait_headerEffect [DecidableEq κ] (htx : s.txs t = some tx)
    (hstate : sm.state = .waitForDependencies e) (hframe : sm.FrameOK tx) (hquiet : s.Untouched s')
    (hstep : stepWaitForDependencies s t sm e = some (s', sm', result)) :
    CommitStateMachine.HeaderEffect s t tx sm s' (sm'.next result) := by
  obtain ⟨state, schema, writeSet, pending⟩ := sm
  cases hstate
  unfold stepWaitForDependencies at hstep
  simp only [htx] at hstep
  split at hstep
  · cases hstep
    exact .before hquiet rfl rfl hframe
  split at hstep
  · cases hstep
    exact .before hquiet rfl rfl hframe
  split at hstep
  · obtain ⟨s1, -, heq⟩ := map_eq_some_iff.1 hstep
    cases heq
    exact .before hquiet rfl rfl hframe
  obtain ⟨record, hrecord, heq⟩ := map_eq_some_iff.1 hstep
  have hheader := buildCommittedLogRecord_header hrecord
  split at heq <;> rename_i hempty
  · cases heq
    exact .entered hquiet rfl rfl (hheader ▸ isNone_iff_eq_none.1 hempty.2)
  · cases heq
    exact .before hquiet rfl rfl hheader

theorem CommitStateMachine.step_headerEffect [DecidableEq κ] [IndexKey κ] (htx : s.txs t = some tx)
    (hframe : sm.FrameOK tx) (hstep : sm.step s t = some (s', sm', result)) :
    CommitStateMachine.HeaderEffect s t tx sm s' (sm'.next result) := by
  have heffect := (step_effect hstep).1
  obtain ⟨state, schema, writeSet, pending⟩ := sm
  cases state with
  | initial =>
    obtain ⟨hbefore, hframe'⟩ := stepInitial_before rfl hframe hstep
    exact .before (heffect.quiet (by simp)) rfl hbefore hframe'
  | commit e =>
    have hquiet := heffect.quiet (by simp)
    simp only [step, stepCommit, htx] at hstep
    split at hstep
    · cases hstep
      exact .before hquiet rfl rfl hframe
    · split at hstep <;> cases hstep <;> exact .before hquiet rfl rfl hframe
  | waitForDependencies e =>
    exact stepWait_headerEffect htx rfl hframe (heffect.quiet (by simp)) hstep
  | beginCommitLogicalLog e record =>
    have hquiet := heffect.quiet (by simp)
    simp only [step, stepBeginCommitLogicalLog, htx] at hstep
    split at hstep
    · cases hstep
      exact .before hquiet rfl rfl hframe
    · split at hstep <;> cases hstep <;> exact .before hquiet rfl rfl hframe
  | syncLogicalLog e =>
    cases hstep
    exact .before (.refl s) rfl rfl hframe
  | endCommitLogicalLog e =>
    simp only [step, stepEndCommitLogicalLog, htx] at hstep
    cases hstep
    exact .header rfl rfl rfl
  | commitEnd e =>
    simp only [step, stepCommitEnd, htx] at hstep
    cases hstep
    exact .logged rfl rfl rfl
  | rewriteLiveVersions e ids =>
    have hquiet := heffect.quiet (by simp)
    cases ids <;> cases hstep <;>
      exact .quiet hquiet rfl rfl rfl (next_forall trivial)
  | notifyDependents e =>
    have hquiet := heffect.quiet (by simp)
    cases hstep
    exact .quiet hquiet rfl rfl rfl (next_forall trivial)
  | publishCommit e =>
    have hunlocked := (MvStore.Keeps.unlockCommitLockIfHeld s t).toUntouched
    simp only [step, stepPublishCommit, htx] at hstep
    cases hstep
    exact .published rfl hunlocked.log rfl rfl
  | leaveTxs e =>
    have hquiet := heffect.quiet (by simp)
    obtain ⟨s1, hremove, heq⟩ := map_eq_some_iff.1 hstep
    cases heq
    exact .quiet hquiet rfl rfl rfl (next_forall trivial)

end

variable {w w' : World κ η} {u : TxID}

theorem World.Sound.txs_fresh (h : w.Sound rowClash seed) : w.store.txs w.store.txIds = none := by
  cases htx : w.store.txs w.store.txIds with
  | none => rfl
  | some tx =>
    have hx := txn_of_txs (g := w.ghosts seed) htx
    exact absurd (h.coherent.timely.txn_lt _ _ hx).1 (lt_irrefl _)

theorem World.Sound.snapshots_eq (h : w.Sound rowClash seed) (hsm : w.commits u = some sm)
    {snapshot : TxID → η} : a.snapshots w snapshot u = snapshot u := by
  have hne : u ≠ w.store.txIds := by
    rintro rfl
    rw [(fresh h.coherent h.control).1] at hsm
    cases hsm
  cases a <;> first | rfl | exact update_of_ne hne _ _

variable [DecidableEq κ] [IndexKey κ]

section

variable (h : w.Sound rowClash seed) (hsm : w.commits u = some sm) (ha : ∀ t, a ≠ .commitStep t)
  (hcheckpoint : ∀ old f, a ≠ .checkpoint old f) (hroll : a ≠ .rollbackTx u)
  (hexec : w.exec a = some w')

include h hsm ha hcheckpoint hroll hexec

theorem World.Sound.ne_actor : u ≠ a.actor w := by
  rintro rfl
  have hidle : w.isRunning (a.actor w) = false := by simp [isRunning, hsm]
  have hfresh := (fresh h.coherent h.control).1
  cases a with
  | beginTx | beginExclusiveTx =>
    simp only [Action.actor, hfresh] at hsm
    cases hsm
  | commitStep t => exact ha t rfl
  | rollbackTx t => exact hroll rfl
  | checkpoint old f => exact hcheckpoint old f rfl
  | rollbackStep t =>
    obtain ⟨rb, hrb, -⟩ := bind_eq_some_iff.1 hexec
    rw [(h.control.each t).rollbacks_eq_none hsm] at hrb
    cases hrb
  | read t id =>
    simp only [Action.actor] at hidle
    simp [World.exec, World.read, hidle] at hexec
  | upgradeToExclusiveTx t | commitTx t b =>
    simp only [Action.actor] at hidle
    simp [World.exec, hidle] at hexec
  | queryBtreeVersionIsValid t id | withHeaderMut t f | beginSavepoint t
  | beginNamedSavepoint t name b fk | releaseSavepoint t | releaseNamedSavepoint t name
  | rollbackFirstSavepoint t | rollbackToNamedSavepoint t name =>
    simp only [Action.actor] at hidle
    simp [World.exec, World.runOp, hidle] at hexec
  | insert t row | insertTombstone t row | insertBtreeResident t row | update t row
  | delete t id =>
    simp only [Action.actor] at hidle
    simp [World.exec, World.runWrite, hidle] at hexec

theorem World.Sound.aside_tx (htx' : w'.store.txs u = some tx') :
    ∃ tx, w.store.txs u = some tx ∧ tx'.header = tx.header ∧ tx'.headerDirty = tx.headerDirty := by
  obtain ⟨evs, hrefines, -⟩ :=
    exec_refines h.coherent h.control (covers_rowClash _) hexec
  have hcore := (hrefines.others u (h.ne_actor hsm ha hcheckpoint hroll hexec)).core
  rw [htx', map_some, eq_comm, map_eq_some_iff] at hcore
  obtain ⟨tx, htx, heq⟩ := hcore
  exact ⟨tx, htx, (congrArg header heq).symm,
    (congrArg headerDirty heq).symm⟩

end

theorem World.aside_back (hexec : w.exec a = some w') (ha : ∀ t, a ≠ .commitStep t)
    (hsm : w'.commits u = some sm) :
    w.commits u = some sm ∧ a ≠ .rollbackTx u ∨ ∃ schema, sm = ⟨.initial, schema, [], none⟩ := by
  have hroll : a ≠ .rollbackTx u := by
    rintro rfl
    simp only [exec, rollbackTx] at hexec
    split at hexec <;> cases hexec
    simp only [update_self] at hsm
    cases hsm
  cases (exec_aside hexec ha).commits with
  | same h => exact .inl ⟨h ▸ hsm, hroll⟩
  | @started t schema hnone h =>
    rw [h] at hsm
    rcases eq_or_ne u t with rfl | hne
    · rw [update_self] at hsm
      cases hsm
      exact .inr ⟨schema, rfl⟩
    · rw [update_of_ne hne] at hsm
      exact .inl ⟨hsm, hroll⟩
  | @abandoned t ht _ h =>
    have hne : u ≠ t := by
      rintro rfl
      exact hroll ht
    rw [h, update_of_ne hne] at hsm
    exact .inl ⟨hsm, hroll⟩

end PgMicro.Mvcc
