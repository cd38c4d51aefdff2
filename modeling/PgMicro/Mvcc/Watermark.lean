import PgMicro.Mvcc.Frames
import PgMicro.Mvcc.Isolation

/-!
# The commit watermark

`last_committed_tx_ts` is stored by each commit on its way out, whatever it held before.
It is the largest published end timestamp as long as commits are published in the order of
their timestamps.
-/

namespace PgMicro.Mvcc

open MultiVersion Function List Option MvStore World CommitStateMachine

variable {κ η : Type} {sm sm' : CommitStateMachine κ η} {k : CommitRecord κ}
  {result : TransitionResult} {s s' : MvStore κ η} {e : Nat} {u : TxID}

section

variable [DecidableEq κ] [IndexKey κ] {t : TxID}

theorem CommitStateMachine.step_lastCommittedTxTs (h : sm.step s t = some (s', sm', result)) :
    s'.lastCommittedTxTs = (publishedTs sm result).getD s.lastCommittedTxTs := by
  unfold publishedTs
  cases (step_effect h).1 with
  | untouched hquiet hne =>
    split
    next hstate =>
      exact absurd rfl (hne _ hstate)
    · exact hquiet.lastCommittedTxTs
  | header hstate htx hs' => rw [hstate, hs', getD_none]
  | logged hstate htx hs' =>
    rw [hstate, hs', getD_none]
    rfl
  | published hstate hresult htx hs' => rw [hstate, hresult, hs', getD_some]

end

section

def CommitStateMachine.WillPublish (sm : CommitStateMachine κ η) (endTs : Nat) : Prop :=
  match sm.state with
  | .rewriteLiveVersions e _ | .notifyDependents e | .publishCommit e => e = endTs
  | _ => False

def World.Accounted (w : World κ η) (t : TxID) (endTs : Nat) : Prop :=
  endTs ∈ w.published ∨ ∃ sm, w.commits t = some sm ∧ sm.WillPublish endTs

structure World.Watermarked (seed : Nat) (w : World κ η) : Prop where
  watermark : w.store.lastCommittedTxTs = w.published.foldr max seed
  accounted : ∀ t k, w.history t = some k → k.writeSet ≠ [] → w.Accounted t k.endTs

variable [DecidableEq κ] [IndexKey κ] {w0 w w' : World κ η} {a : Action κ η}
  {as : List (Action κ η)} {t : TxID} {seed : Nat}

omit [DecidableEq κ] [IndexKey κ] in
/-- The timestamp the next step of the commit stores in `last_committed_tx_ts`. -/
def CommitStateMachine.toPublish (sm : CommitStateMachine κ η) : Option Nat :=
  match sm.state with
  | .publishCommit e => some e
  | _ => none

def World.PublishesInOrder (w : World κ η) : Action κ η → Prop
  | .commitStep t =>
    ∀ e ∈ (w.commits t).bind toPublish, ∀ e' ∈ w.published, e' ≤ e
  | _ => True

instance (w : World κ η) : DecidablePred w.PublishesInOrder := fun action => by
  unfold World.PublishesInOrder
  split <;> infer_instance

omit [DecidableEq κ] [IndexKey κ] in
theorem CommitStateMachine.WillPublish.status {st : State (RowID κ) (Row κ)} {x : Txn (RowID κ)}
    (h : sm.WillPublish e) (hmatch : sm.Matches st t x) : x.status = .committed e := by
  unfold CommitStateMachine.WillPublish at h
  unfold CommitStateMachine.Matches at hmatch
  split at h <;> rename_i hstate
  case h_4 => exact h.elim
  all_goals
    rw [hstate] at hmatch
    exact h ▸ hmatch.1

theorem CommitStateMachine.WillPublish.step (h : sm.WillPublish e)
    (hstep : sm.step s t = some (s', sm', result)) :
    result ≠ .done ∧ (sm'.WillPublish e ∨ publishedTs sm result = some e) := by
  unfold CommitStateMachine.WillPublish at h
  unfold CommitStateMachine.step at hstep
  unfold publishedTs
  split at h <;> rename_i hstate
  · subst h
    rename_i ids
    cases ids with
    | nil =>
      simp only [hstate] at hstep
      cases hstep
      exact ⟨nofun, .inl rfl⟩
    | cons id ids =>
      simp only [hstate] at hstep
      cases hstep
      exact ⟨nofun, .inl rfl⟩
  · subst h
    simp only [hstate] at hstep
    cases hstep
    exact ⟨nofun, .inl rfl⟩
  · subst h
    simp only [hstate] at hstep
    unfold stepPublishCommit at hstep
    split at hstep <;> cases hstep
    · exact ⟨nofun, .inl (by rw [CommitStateMachine.WillPublish, hstate])⟩
    · exact ⟨nofun, .inr (by rw [hstate])⟩
  · exact h.elim

theorem CommitStateMachine.willPublish_of_record (hstep : sm.step s t = some (s', sm', result))
    (hrecord : commitRecord s t sm result = some k) (hne : k.writeSet ≠ []) :
    result ≠ .done ∧ sm'.WillPublish k.endTs := by
  obtain ⟨tx, htx, hrecord⟩ := bind_eq_some_iff.1 hrecord
  unfold step at hstep
  split at hrecord <;> cases hrecord
  next hstate =>
    simp only [hstate, stepCommitEnd, htx] at hstep
    cases hstep
    exact ⟨by simp, rfl⟩
  · exact absurd rfl hne
  · exact absurd rfl hne

omit [DecidableEq κ] [IndexKey κ] in
theorem World.Watermarked.accounted_aside (h : w.Watermarked seed) (hw : w.Control seed)
    (haside : w.Aside a w') (hk : w'.history u = some k) (hne : k.writeSet ≠ []) :
    w'.Accounted u k.endTs := by
  rw [haside.history] at hk
  rcases h.accounted u k hk hne with hin | ⟨sm, hsm, hwill⟩
  · exact .inl (haside.published ▸ hin)
  rcases haside.goes_on hsm with hsm' | ⟨-, hroll⟩
  · exact .inr ⟨sm, hsm', hwill⟩
  -- a transaction that will publish is committed, so no rollback ends its commit
  obtain ⟨x, hx, hmatch⟩ := (hw.each u).commit sm hsm
  obtain ⟨tx, htx, rfl⟩ := txs_of_txn hx
  have hcommitted : tx.state.toStatus = .committed k.endTs := hwill.status hmatch
  simp only [isTxRollbackable, htx] at hroll
  split at hroll
  next hstate =>
    rw [hstate] at hcommitted
    cases hcommitted
  next hstate =>
    rw [hstate] at hcommitted
    cases hcommitted
  · cases hroll

theorem World.Watermarked.accounted_commitStep (h : w.Watermarked seed)
    (hexec : w.commitStep t = some w') (hk : w'.history u = some k) (hne : k.writeSet ≠ []) :
    w'.Accounted u k.endTs := by
  obtain ⟨sm, hsm, hexec⟩ := bind_eq_some_iff.1 hexec
  obtain ⟨⟨s, sm', result⟩, hstep, rfl⟩ := map_eq_some_iff.1 hexec
  rcases eq_or_ne u t with rfl | hut
  · cases hrecord : commitRecord w.store u sm result with
    | some record =>
      simp only [hrecord, update_self] at hk
      cases hk
      obtain ⟨hdone, hwill⟩ := willPublish_of_record hstep hrecord hne
      exact .inr ⟨sm', by simp [hdone], hwill⟩
    | none =>
      simp only [hrecord] at hk
      rcases h.accounted u k hk hne with hin | ⟨sm0, hsm0, hwill⟩
      · exact .inl (mem_append_right _ hin)
      · rw [hsm] at hsm0
        cases hsm0
        obtain ⟨hdone, hwill' | hpublish⟩ := hwill.step hstep
        · exact .inr ⟨sm', by simp [hdone], hwill'⟩
        · exact .inl (mem_append_left _ (by simp [hpublish]))
  · have hk' : w.history u = some k := by
      cases hrecord : commitRecord w.store t sm result with
      | some record => simpa [hrecord, update_of_ne hut] using hk
      | none => simpa [hrecord] using hk
    rcases h.accounted u k hk' hne with hin | ⟨sm0, hsm0, hwill⟩
    · exact .inl (mem_append_right _ hin)
    · exact .inr ⟨sm0, by simp [update_of_ne hut, hsm0], hwill⟩

theorem foldr_max_le_iff {l : List Nat} {m : Nat} : l.foldr max m ≤ e ↔ m ≤ e ∧ ∀ x ∈ l, x ≤ e := by
  induction l with
  | nil => simp
  | cons x l ih =>
    simp only [foldr_cons, max_le_iff, forall_mem_cons]
    tauto

omit [DecidableEq κ] [IndexKey κ] in
theorem World.Sound.seed_lt_publish (hw : w.Sound rowClash seed) (hsm : w.commits t = some sm)
    (hstate : sm.state = .publishCommit e) : seed < e := by
  obtain ⟨x, hx, hmatch⟩ := (hw.control.each t).commit sm hsm
  have hwill : sm.WillPublish e := by rw [CommitStateMachine.WillPublish, hstate]
  obtain ⟨-, hbegin, -⟩ := hw.coherent.timely.txn_lt t x hx
  obtain ⟨hend, -⟩ := hw.coherent.timely.end_lt t x e hx (.inr (hwill.status hmatch))
  exact Nat.lt_trans hbegin hend

theorem World.Watermarked.exec (h : w.Watermarked seed) (hw : w.Sound rowClash seed)
    (horder : w.PublishesInOrder a) (hexec : w.exec a = some w') :
    w'.Watermarked seed ∧ w.store.lastCommittedTxTs ≤ w'.store.lastCommittedTxTs := by
  by_cases ha : ∀ t, a ≠ .commitStep t
  · have haside := exec_aside hexec ha
    have hsame : w'.store.lastCommittedTxTs = w.store.lastCommittedTxTs := by
      by_cases hcheckpoint : ∀ old f, a ≠ .checkpoint old f
      · exact (exec_untouched hexec ha hcheckpoint).lastCommittedTxTs
      push Not at hcheckpoint
      obtain ⟨old, f, rfl⟩ := hcheckpoint
      simp only [exec] at hexec
      split at hexec
      · split at hexec <;> cases hexec
        rename_i hrun
        rw [(checkpoint_frame hrun).2.2]
      · cases hexec
    refine ⟨⟨?_, fun u k hk hne => h.accounted_aside hw.control haside hk hne⟩, hsame.ge⟩
    rw [hsame, haside.published, h.watermark]
  · push Not at ha
    obtain ⟨t, rfl⟩ := ha
    have haccounted : ∀ u k, w'.history u = some k → k.writeSet ≠ [] → w'.Accounted u k.endTs :=
      fun u k hk hne => h.accounted_commitStep hexec hk hne
    obtain ⟨sm, hsm, hexec⟩ := bind_eq_some_iff.1 hexec
    obtain ⟨⟨s, sm', result⟩, hstep, rfl⟩ := map_eq_some_iff.1 hexec
    have hwatermark : s.lastCommittedTxTs = (publishedTs sm result).getD
      w.store.lastCommittedTxTs := step_lastCommittedTxTs hstep
    cases hpublish : publishedTs sm result with
    | none =>
      rw [hpublish, getD_none] at hwatermark
      refine ⟨⟨?_, haccounted⟩, hwatermark.ge⟩
      simp [hwatermark, h.watermark, hpublish]
    | some e =>
      rw [hpublish, getD_some] at hwatermark
      -- the step publishes `e`, which no earlier publication exceeds
      have hstate : sm.state = .publishCommit e := by
        unfold publishedTs at hpublish
        split at hpublish <;> cases hpublish
        assumption
      have hle : w.store.lastCommittedTxTs ≤ e :=
        h.watermark.trans_le (foldr_max_le_iff.2
          ⟨(hw.seed_lt_publish hsm hstate).le, horder e (by
            rw [hsm, bind_some, toPublish, hstate]
            rfl)⟩)
      refine ⟨⟨?_, haccounted⟩, hle.trans hwatermark.ge⟩
      simp only [hwatermark, hpublish, toList_some, singleton_append, foldr_cons]
      rw [← h.watermark, max_eq_left hle]

omit [DecidableEq κ] [IndexKey κ] in
theorem World.Watermarked.timestamp_le (h : w.Watermarked seed) (hw : w.Sound rowClash seed)
    {lock : TursoRwLock} (hlock : w.store.blockingCheckpointLock.write = some lock) {id : RowID κ}
    {rv : RowVersion κ} (hrv : rv ∈ w.store.rows id) {ts : Nat}
    (hts : rv.begin_ = some (.timestamp ts) ∨ rv.end_ = some (.timestamp ts)) :
    ts ≤ w.store.lastCommittedTxTs := by
  have hidle := hw.control.lock.idle hw.coherent hlock
  obtain ⟨hseed, hpublished⟩ := foldr_max_le_iff.1 h.watermark.ge
  have hdated : (w.toState seed).Dated id ts := by
    have hmem : rv.toVersion ∈ (w.toState seed).chain id := mem_chain hrv
    rcases hts with hts | hts
    · exact hw.coherent.owned.born id _ hmem ts (RowVersion.bornAt_iff.2 hts)
    · exact hw.coherent.owned.died id _ hmem ts (RowVersion.diedAt_iff.2 hts)
  rcases hdated with hle | ⟨t, record, hrecord, rfl, hmem⟩
  · exact hle.trans hseed
  obtain ⟨k, hk, rfl⟩ := map_eq_some_iff.1 hrecord
  rcases h.accounted t k hk (ne_nil_of_mem hmem) with hin | ⟨sm, hsm, -⟩
  · exact hpublished _ hin
  · obtain ⟨x, hx, -⟩ := (hw.control.each t).commit sm hsm
    obtain ⟨tx, htx, -⟩ := txs_of_txn hx
    rw [hidle t] at htx
    cases htx

/-- If commits are published in the order of their timestamps, the watermark is the largest
published timestamp, or the one the store was seeded with; it never goes down, and the
boundary of a checkpoint covers every timestamp in the chains. -/
theorem watermark_of_ordered_publication (hinit : w0.Init) (hrun : w0.run as = some w)
    (horder : Transition.Meets World.exec World.PublishesInOrder w0 as) :
    w.store.lastCommittedTxTs = w.published.foldr max w0.store.lastCommittedTxTs ∧
    (∀ a w', w.PublishesInOrder a → w.exec a = some w' →
      w.store.lastCommittedTxTs ≤ w'.store.lastCommittedTxTs) ∧
    ∀ lock, w.store.blockingCheckpointLock.write = some lock → ∀ old id,
      ∀ rv ∈ w.store.rows id, ∀ ts,
        rv.begin_ = some (.timestamp ts) ∨ rv.end_ = some (.timestamp ts) →
          ts ≤ w.store.durableTxidMaxNew old := by
  let seed := w0.store.lastCommittedTxTs
  have hinv : w.Sound rowClash seed ∧ w.Watermarked seed := by
    refine Transition.run_preserves (Q := fun w => w.Sound rowClash seed ∧ w.Watermarked seed)
      (fun horder h hexec => ?_) horder ⟨hinit.sound, ?_, fun t k hk => ?_⟩ hrun
    · exact ⟨(h.1.exec (covers_rowClash _) hexec).1, (h.2.exec h.1 horder hexec).1⟩
    · rw [hinit.published]
      rfl
    · rw [hinit.history t] at hk
      cases hk
  obtain ⟨hsound, hmark⟩ := hinv
  refine ⟨hmark.watermark, fun a w' horder hexec => (hmark.exec hsound horder hexec).2, ?_⟩
  intro lock hlock old id rv hrv ts hts
  exact (hmark.timestamp_le hsound hlock hrv hts).trans (le_max_right _ _)

/-- Two writers that commit one after the other. -/
theorem watermark_of_ordered_publication_two :
    ∃ w : World Empty Unit, (opened () (fun _ => none) 0).run
        (.beginTx :: .beginTx :: .insert 1 (tableRow 1 [1]) :: .insert 2 (tableRow 2 [2]) ::
          commitActions 1 1 ++ commitActions 2 1) = some w ∧
      w.published = [4, 3] ∧ w.store.lastCommittedTxTs = 4 := by
  obtain ⟨w, hrun, h⟩ := map_eq_some_iff.1 (show ((opened () (fun _ => none) 0).run
    (.beginTx :: .beginTx :: .insert 1 (tableRow 1 [1]) :: .insert 2 (tableRow 2 [2]) ::
      commitActions 1 1 ++ commitActions 2 1)).map
      (fun w : World Empty Unit => w.published) = some [4, 3] by decide +kernel)
  have hwatermark := watermark_of_ordered_publication (init_opened _ _ _) hrun
    (by decide +kernel)
  exact ⟨w, hrun, h, hwatermark.1.trans (by rw [h]; rfl)⟩

/-- The transaction with the smaller timestamp publishes last: the watermark goes back, and
the boundary of a checkpoint misses a committed row. -/
theorem watermark_goes_back :
    ∃ w : World Empty Unit, (opened () (fun _ => none) 0).run
        (.beginTx :: .beginTx :: .insert 1 (tableRow 1 [1]) :: .insert 2 (tableRow 2 [2]) ::
          .commitTx 1 false :: .commitStep 1 :: commitActions 2 1 ++
          replicate 11 (.commitStep 1)) = some w ∧
      w.published = [3, 4] ∧ w.store.lastCommittedTxTs = 3 ∧
      w.store.blockingCheckpointLock.write = some ⟨0, true⟩ ∧ w.store.durableTxidMaxNew 0 = 3 ∧
      w.store.rows (tableRow 2 []).id =
        [⟨2, some (.timestamp 4), none, tableRow 2 [2], false⟩] := by
  obtain ⟨w, hrun, h⟩ := map_eq_some_iff.1 (show ((opened () (fun _ => none) 0).run
    (.beginTx :: .beginTx :: .insert 1 (tableRow 1 [1]) :: .insert 2 (tableRow 2 [2]) ::
      .commitTx 1 false :: .commitStep 1 :: commitActions 2 1 ++
      replicate 11 (.commitStep 1))).map
      (fun w : World Empty Unit => (w.published, w.store.lastCommittedTxTs,
        w.store.blockingCheckpointLock.write, w.store.rows (tableRow 2 []).id)) =
        some ([3, 4], 3, some ⟨0, true⟩,
          [⟨2, some (.timestamp 4), none, tableRow 2 [2], false⟩]) by decide +kernel)
  simp only [Prod.mk.injEq] at h
  obtain ⟨hpublished, hlast, hlock, hrows⟩ := h
  refine ⟨w, hrun, hpublished, hlast, hlock, ?_, hrows⟩
  rw [durableTxidMaxNew, hlast]
  rfl

end

end PgMicro.Mvcc
