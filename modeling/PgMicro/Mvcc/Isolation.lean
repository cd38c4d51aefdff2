import PgMicro.Mvcc.Runs

/-!
# Isolation and ownership in every reachable state

First committer wins on table rows, commit dependencies, and ownership of the transaction
ids in the chains.
-/

namespace PgMicro.Mvcc

open MultiVersion List Option World TransactionState MvStore CommitStateMachine

variable {κ η : Type} [DecidableEq κ] [IndexKey κ] {w0 w w' : World κ η} {as : List (Action κ η)}
  {t d : TxID} {tx : Transaction κ η} {s s' : MvStore κ η} {sm sm' : CommitStateMachine κ η}
  {seed e : Nat}

instance : IndexKey Empty where
  cmp := nofun
  isUnique := nofun
  containsNull := nofun
  prefixCmp := nofun
  matchesPrefix := nofun

def tableRow (rowid : Int) (data : List UInt8) : Row Empty :=
  ⟨⟨-2, .int rowid⟩, some data, 1⟩

open RowVersion

section

omit [DecidableEq κ] [IndexKey κ] in
theorem World.history_of_record {k : CommitRecord κ} (h : w.history t = some k) :
    (w.toState seed).history t = some k.toRecord := by
  simp [toState, MvStore.toState, ghosts, h]

omit [IndexKey κ] [DecidableEq κ] in
theorem World.Sound.ended_before (h : w.Sound rowClash seed) {t1 t2 : TxID} {k1 k2 : CommitRecord κ}
    (h1 : w.history t1 = some k1) (h2 : w.history t2 = some k2) {id : RowID κ}
    (hint : id.rowId.isIntKey = true) (hid1 : id ∈ k1.writeSet) (hid2 : id ∈ k2.writeSet)
    (hlt : k1.endTs < k2.endTs) : k1.endTs < k2.beginTs :=
  h.coherent.ended_before (history_of_record h1) (history_of_record h2) hint
    ⟨hint, rfl⟩ hid1 hid2 hlt

/-- Two committed writers of a table row did not overlap: the later one began after the
other had ended, so it did not overwrite a change it could not see. -/
theorem committed_writers_disjoint (hinit : w0.Init) (hrun : w0.run as = some w) {t1 t2 : TxID}
    (hne : t1 ≠ t2) {k1 k2 : CommitRecord κ} (h1 : w.history t1 = some k1)
    (h2 : w.history t2 = some k2) {id : RowID κ} (hint : id.rowId.isIntKey = true)
    (hid1 : id ∈ k1.writeSet) (hid2 : id ∈ k2.writeSet) :
    ¬ (k1.beginTs < k2.endTs ∧ k2.beginTs < k1.endTs) ∧
      (k1.endTs < k2.beginTs ∨ k2.endTs < k1.beginTs) := by
  have hsound := hinit.run hrun
  have hends : k1.endTs ≠ k2.endTs := by
    intro heq
    refine hne (hsound.coherent.distinct.end_unique t1 t2 k1.endTs
      (.inr ⟨_, history_of_record h1, rfl⟩) (.inr ⟨_, history_of_record h2, ?_⟩))
    exact heq.symm
  rcases Nat.lt_or_gt_of_ne hends with hlt | hlt
  · have hbefore := hsound.ended_before h1 h2 hint hid1 hid2 hlt
    exact ⟨by omega, .inl hbefore⟩
  · have hbefore := hsound.ended_before h2 h1 hint hid2 hid1 hlt
    exact ⟨by omega, .inr hbefore⟩

/-- One transaction inserts a row, a later one updates it. -/
theorem committed_writers_disjoint_update :
    ∃ (w : World Empty Unit) (k1 k2 : CommitRecord Empty),
      (opened () (fun _ => none) 0).run
        (.beginTx :: .insert 1 (tableRow 7 [1]) :: commitActions 1 1 ++
          .beginTx :: .update 2 (tableRow 7 [2]) :: commitActions 2 1) = some w ∧
      w.history 1 = some k1 ∧ w.history 2 = some k2 ∧ k1.endTs < k2.beginTs := by
  obtain ⟨w, hrun, h⟩ := map_eq_some_iff.1 (show ((opened () (fun _ => none) 0).run
    (.beginTx :: .insert 1 (tableRow 7 [1]) :: commitActions 1 1 ++
      .beginTx :: .update 2 (tableRow 7 [2]) :: commitActions 2 1)).map
      (fun w : World Empty Unit => (w.history 1, w.history 2)) =
        some (some ⟨1, 2, [(tableRow 7 []).id]⟩, some ⟨3, 4, [(tableRow 7 []).id]⟩) by
    decide +kernel)
  obtain ⟨h1, h2⟩ := Prod.mk.inj h
  refine ⟨w, _, _, hrun, h1, h2, ?_⟩
  have hdisjoint := committed_writers_disjoint (init_opened _ _ _) hrun (by decide) h1 h2 rfl
    mem_cons_self mem_cons_self
  exact hdisjoint.2.resolve_right (by decide)

end

section

omit [IndexKey κ] in
theorem insertVersionRaw_isSome {txs : Txs κ η} {versions : List (RowVersion κ)}
    {rv : RowVersion κ} (hversions : ∀ v ∈ versions, (resolveBeginTimestamp txs v.begin_).isSome)
    (hrv : (resolveBeginTimestamp txs rv.begin_).isSome) :
    ∃ versions', insertVersionRaw txs versions rv = some versions' ∧
      ∀ v ∈ versions', v = rv ∨ v ∈ versions := by
  obtain ⟨n, hn⟩ := isSome_iff_exists.1 hrv
  have hscan : ∀ l : List (RowVersion κ), (∀ v ∈ l, (resolveBeginTimestamp txs v.begin_).isSome) →
      ∃ l', insertVersionScan txs rv l = some l' ∧ ∀ v ∈ l', v = rv ∨ v ∈ l := by
    intro l
    induction l with
    | nil => exact fun _ => ⟨[rv], rfl, fun v hv => .inl (mem_singleton.1 hv)⟩
    | cons v older ih =>
      intro hl
      obtain ⟨hv, hl⟩ := forall_mem_cons.1 hl
      obtain ⟨m, hm⟩ := isSome_iff_exists.1 hv
      obtain ⟨older', holder, hmem⟩ := ih hl
      simp only [insertVersionScan, hm, hn, holder, bind_eq_bind, bind_some]
      split
      · split
        · exact ⟨_, rfl, by simp +contextual [or_comm, or_imp]⟩
        · exact ⟨_, rfl, by simp⟩
      · refine ⟨_, rfl, ?_⟩
        intro u hu
        rcases mem_cons.1 hu with rfl | hu
        · exact .inr mem_cons_self
        · exact (hmem u hu).imp_right (mem_cons_of_mem _)
  obtain ⟨l', hl', hmem⟩ := hscan versions.reverse
    (fun v hv => hversions v (mem_reverse.1 hv))
  refine ⟨l'.reverse, ?_, fun v hv => ?_⟩
  · rw [insertVersionRaw, hl', map_some]
  · exact (hmem v (mem_reverse.1 hv)).imp_right mem_reverse.1

omit [DecidableEq κ] [IndexKey κ] in
theorem foldlM_some {α β : Type} {f : β → α → Option β} {P : β → Prop} {l : List α}
    (hf : ∀ a ∈ l, ∀ b, P b → ∃ b', f b a = some b' ∧ P b') {b : β} (hb : P b) :
    ∃ b', l.foldlM f b = some b' ∧ P b' := by
  induction l generalizing b with
  | nil => exact ⟨b, rfl, hb⟩
  | cons a l ih =>
    obtain ⟨hfa, hf⟩ := forall_mem_cons.1 hf
    obtain ⟨b1, hb1, hP1⟩ := hfa b hb
    obtain ⟨b2, hb2, hP2⟩ := ih hf hP1
    refine ⟨b2, ?_, hP2⟩
    rw [foldlM_cons, hb1]
    exact hb2

omit [IndexKey κ] in
theorem MvStore.buildCommittedLogRecord_isSome
    (hres : ∀ id, ∀ rv ∈ s.rows id, (resolveBeginTimestamp s.txs rv.begin_).isSome)
    (tx : Transaction κ η) (endTs : Nat) (ids : List (RowID κ)) :
    (s.buildCommittedLogRecord tx endTs ids).isSome := by
  have himage : ∀ rv : RowVersion κ, (resolveBeginTimestamp s.txs rv.begin_).isSome →
      (resolveBeginTimestamp s.txs (s.committedImage tx.txId endTs rv).begin_).isSome := by
    intro rv hrv
    simp only [committedImage, rewriteRowVersion, commitStamp]
    split
    · rfl
    · exact hrv
  have hcollect : ∀ ids : List (RowID κ), ∀ acc : List (RowVersion κ),
      (∀ v ∈ acc, (resolveBeginTimestamp s.txs v.begin_).isSome) →
      ∃ acc', ids.foldlM (s.collectVersions tx.txId endTs) acc = some acc' ∧
        ∀ v ∈ acc', (resolveBeginTimestamp s.txs v.begin_).isSome := by
    intro ids acc hacc
    refine foldlM_some (fun id _ acc hacc => ?_) hacc
    refine foldlM_some (fun rv hrv acc hacc => ?_) hacc
    split
    · have hrv' := himage rv (hres id rv hrv)
      obtain ⟨acc', hacc', hmem⟩ := insertVersionRaw_isSome hacc hrv'
      refine ⟨acc', hacc', fun v hv => ?_⟩
      rcases hmem v hv with rfl | hv
      · exact hrv'
      · exact hacc v hv
    · exact ⟨acc, rfl, hacc⟩
  obtain ⟨acc1, hacc1, hres1⟩ := hcollect
    (ids.filter fun id => id.tableId == sqliteSchemaMvccTableId) [] (fun v hv => by cases hv)
  obtain ⟨acc2, hacc2, -⟩ := hcollect
    (ids.filter fun id => id.tableId != sqliteSchemaMvccTableId) acc1 hres1
  simp only [buildCommittedLogRecord, hacc1, hacc2, bind_eq_bind, bind_some]
  rfl

def World.Unreferenced (w : World κ η) (t : TxID) : Prop :=
  ∀ id, ∀ rv ∈ w.store.rows id, rv.refersTo t = false

/-- The rewrite of `CommitEnd` is over. -/
def CommitStateMachine.hasRewritten (sm : CommitStateMachine κ η) : Bool :=
  match sm.state with
  | .rewriteLiveVersions _ [] | .notifyDependents _ | .publishCommit _ | .leaveTxs _ => true
  | _ => false

omit [DecidableEq κ] [IndexKey κ] in
theorem World.unreferenced_of_marked (h : MarkedOnlyIn (w.toState seed) t []) :
    w.Unreferenced t := by
  intro id rv hrv
  by_contra hne
  exact h id not_mem_nil _ (mem_chain hrv)
    (refersTo_iff.1 (Bool.eq_true_of_not_eq_false hne))

/-- Every transaction id in a chain belongs to a transaction in the map that has the row in
its write set. A rollback that has visited its rows and a commit that has rewritten its own
leave no reference, and no reference makes an insertion or a log record panic. -/
theorem tx_references_owned (hinit : w0.Init) (hrun : w0.run as = some w) :
    (∀ id, ∀ rv ∈ w.store.rows id, ∀ t,
      rv.begin_ = some (.txId t) ∨ rv.end_ = some (.txId t) →
        ∃ tx, w.store.txs t = some tx ∧ id ∈ tx.writeSet) ∧
    (∀ t, w.store.txs t = none → w.Unreferenced t) ∧
    (∀ t, w.rollbacks t = some (.rollbackRows []) → w.Unreferenced t) ∧
    (∀ t sm, w.commits t = some sm → sm.hasRewritten = true → w.Unreferenced t) ∧
    (∀ id, ∀ rv ∈ w.store.rows id, (resolveBeginTimestamp w.store.txs rv.begin_).isSome) ∧
    (∀ t tx id rv, w.store.txs t = some tx → rv.begin_ = none ∨ rv.begin_ = some (.txId t) →
      (insertVersionRaw w.store.txs (w.store.rows id) rv).isSome) ∧
    ∀ t tx e ids, w.store.txs t = some tx →
      (w.store.buildCommittedLogRecord tx e ids).isSome := by
  have hsound := hinit.run hrun
  have howned : ∀ id, ∀ rv ∈ w.store.rows id, ∀ t,
      rv.begin_ = some (.txId t) ∨ rv.end_ = some (.txId t) →
        ∃ tx, w.store.txs t = some tx ∧ id ∈ tx.writeSet := by
    intro id rv hrv t href
    obtain ⟨x, hx, hmem⟩ := hsound.coherent.owned.mentions id _ (mem_chain hrv) t
      (href.imp bornBy_iff.2 diedBy_iff.2)
    obtain ⟨tx, htx, rfl⟩ := txs_of_txn hx
    exact ⟨tx, htx, hmem⟩
  have hres : ∀ id, ∀ rv ∈ w.store.rows id, (resolveBeginTimestamp w.store.txs rv.begin_).isSome :=
    fun id rv hrv => resolveBeginTimestamp_isSome hsound.coherent hrv
  refine ⟨howned, fun t hnone id rv hrv => ?_, fun t hrb => ?_, fun t sm hsm hdone => ?_, hres,
    fun t tx id rv htx hbegin => ?_,
    fun t tx e ids _ => w.store.buildCommittedLogRecord_isSome hres tx e ids⟩
  · by_contra hne
    have hm := Bool.eq_true_of_not_eq_false hne
    simp only [refersTo, Bool.or_eq_true, beq_iff_eq] at hm
    obtain ⟨tx, htx, -⟩ := howned id rv hrv t hm
    rw [hnone] at htx
    cases htx
  · obtain ⟨x, -, hmatch⟩ := (hsound.control.each t).rollback _ hrb
    exact unreferenced_of_marked hmatch.2.2
  · obtain ⟨x, -, hmatch⟩ := (hsound.control.each t).commit sm hsm
    unfold hasRewritten at hdone
    unfold CommitStateMachine.Matches at hmatch
    split at hdone
    next hstate =>
      simp only [hstate] at hmatch
      exact unreferenced_of_marked hmatch.2
    next hstate =>
      simp only [hstate] at hmatch
      exact unreferenced_of_marked hmatch.2
    next hstate =>
      simp only [hstate] at hmatch
      exact unreferenced_of_marked hmatch.2.1
    next hstate =>
      simp only [hstate] at hmatch
      exact unreferenced_of_marked hmatch.2.1
    · cases hdone
  · have hrv : (resolveBeginTimestamp w.store.txs rv.begin_).isSome := by
      rcases hbegin with hb | hb
      · rw [hb]
        rfl
      · simp [hb, resolveBeginTimestamp, htx]
    obtain ⟨versions, hins, -⟩ := insertVersionRaw_isSome (hres id) hrv
    rw [hins, isSome_some]

/-- An insertion is undone with its statement and made again. -/
theorem tx_references_owned_reinsert :
    ∃ w : World Empty Unit, (opened () (fun _ => none) 0).run
        [.beginTx, .beginSavepoint 1, .insert 1 (tableRow 7 [1]), .rollbackFirstSavepoint 1,
          .insert 1 (tableRow 7 [2])] = some w ∧
      w.store.rows (tableRow 7 []).id = [⟨2, some (.txId 1), none, tableRow 7 [2], false⟩] ∧
      ∃ tx, w.store.txs 1 = some tx ∧ (tableRow 7 []).id ∈ tx.writeSet := by
  obtain ⟨w, hrun, hrows⟩ := map_eq_some_iff.1 (show ((opened () (fun _ => none) 0).run
    [.beginTx, .beginSavepoint 1, .insert 1 (tableRow 7 [1]), .rollbackFirstSavepoint 1,
      .insert 1 (tableRow 7 [2])]).map (fun w : World Empty Unit =>
        w.store.rows (tableRow 7 []).id) =
      some [⟨2, some (.txId 1), none, tableRow 7 [2], false⟩] by decide +kernel)
  refine ⟨w, hrun, hrows, ?_⟩
  exact (tx_references_owned (init_opened _ _ _) hrun).1 _ _ (hrows ▸ mem_cons_self) 1
    (.inl rfl)

end

section

def World.WaitsFor (w : World κ η) (t d : TxID) : Prop :=
  ∃ dep, w.store.txs d = some dep ∧ t ∈ dep.commitDepSet

/-- Both transactions are `Preparing`, and `t` waits for `d`. -/
def World.PreparingWaitsFor (w : World κ η) (t d : TxID) : Prop :=
  w.WaitsFor t d ∧ ∃ tx dep e f, w.store.txs t = some tx ∧ tx.state = .preparing e ∧
    w.store.txs d = some dep ∧ dep.state = .preparing f

omit [DecidableEq κ] [IndexKey κ] in
theorem World.waitsOn_eq : (w.toState seed).waitsOn t = {d | w.WaitsFor t d} := by
  ext d
  constructor
  · rintro ⟨y, hy, hmem⟩
    obtain ⟨dep, hdep, rfl⟩ := txs_of_txn hy
    exact ⟨dep, hdep, hmem⟩
  · rintro ⟨dep, hdep, hmem⟩
    exact ⟨_, txn_of_txs hdep, hmem⟩

variable {clash : RowID κ → RowID κ → Prop}

omit [DecidableEq κ] [IndexKey κ] in
theorem World.Sound.depended_committed (h : w.Sound clash seed) (htx : w.store.txs t = some tx)
    (habort : tx.abortNow = false) (hcounter : tx.commitDepCounter = 0) :
    ∀ d ∈ tx.dependedOn, (w.history d).isSome := by
  intro d hd
  have hx : (w.toState seed).txn t = some _ := txn_of_txs htx
  have hempty := h.coherent.dependable.waitsOn_eq_empty h.coherent.timely hx hcounter
  rcases h.coherent.dependable.registered t _ d hx hd with ⟨k, hk⟩ | habort' | hwait
  · obtain ⟨record, hrecord, -⟩ := map_eq_some_iff.1 hk
    rw [hrecord, isSome_some]
  · rw [show Txn.abortNow _ = tx.abortNow from rfl, habort] at habort'
    cases habort'
  · rw [hempty] at hwait
    cases hwait

variable {dep : Transaction κ η}

omit [DecidableEq κ] [IndexKey κ] in
theorem World.Sound.waits_for_smaller (h : w.Sound clash seed) {f : Nat}
    (htx : w.store.txs t = some tx) (hst : tx.state = .preparing e)
    (hdep : w.store.txs d = some dep) (hst' : dep.state = .preparing f)
    (hmem : t ∈ dep.commitDepSet) : f < e := by
  have hx : (w.toState seed).txn t = some _ := txn_of_txs htx
  have hbefore : f < tx.beginTs := h.coherent.dependable.before d _ t _ f
    (txn_of_txs hdep) hmem hx (.inl (congrArg toStatus hst'))
  have hlife : tx.beginTs < e := (h.coherent.timely.end_lt t _ e hx
    (.inl (congrArg toStatus hst))).1
  omega

omit [DecidableEq κ] [IndexKey κ] in
/-- Draining the set of `d` takes exactly one from the counter of a dependent. -/
theorem drained_counter {tracked : RowID κ → Prop} {g : Ghosts κ}
    (hc : Coherent clash tracked (s.toState g)) (hdep : s.txs d = some dep)
    (htx : s.txs t = some tx) (hmem : t ∈ dep.commitDepSet) (aborted : Bool) :
    ∃ tx', (s.drainCommitDepSet d aborted).txs t = some tx' ∧
      tx'.commitDepCounter + 1 = tx.commitDepCounter := by
  have hne : t ≠ d := by
    rintro rfl
    rw [htx, some.injEq] at hdep
    subst hdep
    exact hc.dependable.irrefl t _ (txn_of_txs htx) hmem
  have hpos := commitDepCounter_pos hc hdep htx hmem
  have hnodup : dep.commitDepSet.Nodup := hc.dependable.nodup d _ (txn_of_txs hdep)
  refine ⟨tx.notified aborted, ?_, ?_⟩
  · simp [drainCommitDepSet, hdep, modifyTx_eq hdep, foldl_notifyDependent aborted hnodup,
      if_pos hmem, Function.update_of_ne hne, htx]
  · simp only [Transaction.notified, fetchSubOne, hpos.ne', if_false]
    omega

omit [DecidableEq κ] in
theorem CommitStateMachine.stepInitial_done (htx : s.txs t = some tx)
    (h : stepInitial s t sm = some (s', sm', .done)) :
    tx.abortNow = false ∧ tx.commitDepCounter = 0 := by
  simp only [stepInitial, htx] at h
  split at h
  · simp at h
  · split at h
    · simp at h
    split at h
    · split at h
      · simp at h
      rename_i habort
      split at h
      · simp at h
      rename_i hcounter
      exact ⟨Bool.eq_false_of_not_eq_true habort, Nat.eq_zero_of_not_pos hcounter⟩
    · simp at h
  · cases h

omit [IndexKey κ] in
theorem CommitStateMachine.stepWait_done (htx : s.txs t = some tx)
    (h : stepWaitForDependencies s t sm e = some (s', sm', .done)) :
    tx.abortNow = false ∧ tx.commitDepCounter = 0 := by
  simp only [stepWaitForDependencies, htx] at h
  split at h
  · simp at h
  rename_i habort
  split at h
  · simp at h
  rename_i hcounter
  exact ⟨Bool.eq_false_of_not_eq_true habort, Nat.eq_zero_of_not_pos hcounter⟩

theorem World.Sound.ready_of_commit (h : w.Sound clash seed) {a : Action κ η}
    (hexec : w.exec a = some w') (hnone : w.history t = none) (hsome : (w'.history t).isSome) :
    ∃ tx, w.store.txs t = some tx ∧ tx.abortNow = false ∧ tx.commitDepCounter = 0 := by
  by_cases ha : ∃ u, a = .commitStep u
  · obtain ⟨u, rfl⟩ := ha
    obtain ⟨sm, hsm, hstep⟩ := bind_eq_some_iff.1 hexec
    obtain ⟨⟨s, sm', result⟩, hrun, rfl⟩ := map_eq_some_iff.1 hstep
    obtain ⟨tx, hcommitting⟩ := committing h.coherent h.control hsm
    cases hrecord : commitRecord w.store u sm result with
    | none =>
      simp only [hrecord, hnone] at hsome
      cases hsome
    | some record =>
      simp only [hrecord] at hsome
      by_cases hut : t = u
      · subst hut
        refine ⟨tx, hcommitting.txs, ?_⟩
        rw [commitRecord, hcommitting.txs, bind_some] at hrecord
        split at hrecord
        next e hphase =>
          have hstate := hcommitting.state
          simp only [CommitStateMachine.Matches, hphase] at hstate
          exact ⟨hstate.2.2.2, hstate.2.2.1⟩
        next hphase =>
          simp only [step, hphase] at hrun
          exact stepInitial_done hcommitting.txs hrun
        next e hphase =>
          simp only [step, hphase] at hrun
          exact stepWait_done hcommitting.txs hrun
        · cases hrecord
      · rw [Function.update_of_ne hut, hnone] at hsome
        cases hsome
  · rw [(exec_aside hexec (fun u hu => ha ⟨u, hu⟩)).history, hnone] at hsome
    cases hsome

/-- The commit dependency protocol in a reachable state, and in every step from it. -/
theorem commit_dependencies (hinit : w0.Init) (hrun : w0.run as = some w) :
    (∀ t tx, w.store.txs t = some tx → tx.commitDepCounter = {d | w.WaitsFor t d}.ncard) ∧
    (∀ d t tx aborted, w.WaitsFor t d → w.store.txs t = some tx →
      ∃ tx', (w.store.drainCommitDepSet d aborted).txs t = some tx' ∧
        tx'.commitDepCounter + 1 = tx.commitDepCounter) ∧
    (∀ t tx, w.store.txs t = some tx → tx.writeSet = [] → tx.commitDepSet = []) ∧
    (∀ t tx ids, w.store.txs t = some tx → w.rollbacks t = some (.rollbackRows ids) →
      tx.commitDepSet = []) ∧
    (∀ t tx sm e, w.store.txs t = some tx → w.commits t = some sm → sm.state = .leaveTxs e →
      tx.commitDepSet = []) ∧
    (∀ t tx e, w.store.txs t = some tx → tx.state = .committed e →
      ∃ k, w.history t = some k ∧ k.endTs = e) ∧
    (∀ a w', w.exec a = some w' → ∀ t, w.history t = none → (w'.history t).isSome →
      ∃ tx, w.store.txs t = some tx ∧ tx.abortNow = false ∧ tx.commitDepCounter = 0 ∧
        ∀ d ∈ tx.dependedOn, (w.history d).isSome) ∧
    (∀ t d tx dep e f, w.WaitsFor t d → w.store.txs t = some tx → tx.state = .preparing e →
      w.store.txs d = some dep → dep.state = .preparing f → f < e) ∧
    ∀ t, ¬ Relation.TransGen w.PreparingWaitsFor t t := by
  have hsound := hinit.run hrun
  have hc := hsound.coherent
  refine ⟨fun t tx htx => ?_, fun d t tx aborted hwait htx => ?_, fun t tx htx hwrites => ?_,
    fun t tx ids htx hrb => ?_, fun t tx sm e htx hsm hphase => ?_, fun t tx e htx hst => ?_,
    fun a w' hexec t hnone hsome => ?_, fun t d tx dep e f hwait htx hst hdep hst' => ?_,
    fun t hcycle => ?_⟩
  · exact (hc.dependable.pending t _ (txn_of_txs htx)).trans (by rw [waitsOn_eq])
  · obtain ⟨dep, hdep, hmem⟩ := hwait
    exact drained_counter hc hdep htx hmem aborted
  · by_contra hne
    exact hc.dependable.writer t _ (txn_of_txs htx) hne hwrites
  · obtain ⟨x, hx, hmatch⟩ := (hsound.control.each t).rollback _ hrb
    rw [show (w.toState _).txn t = _ from txn_of_txs htx, some.injEq] at hx
    subst hx
    exact hmatch.2.1
  · obtain ⟨x, hx, hmatch⟩ := (hsound.control.each t).commit sm hsm
    rw [show (w.toState _).txn t = _ from txn_of_txs htx, some.injEq] at hx
    subst hx
    simp only [CommitStateMachine.Matches, hphase] at hmatch
    exact hmatch.2.2
  · have hhist := hc.timely.committed_history t _ e (txn_of_txs htx)
      (congrArg toStatus hst)
    obtain ⟨k, hk, heq⟩ := map_eq_some_iff.1 hhist
    exact ⟨k, hk, congrArg Record.endTs heq⟩
  · obtain ⟨tx, htx, habort, hcounter⟩ := hsound.ready_of_commit hexec hnone hsome
    exact ⟨tx, htx, habort, hcounter, hsound.depended_committed htx habort hcounter⟩
  · obtain ⟨dep', hdep', hmem⟩ := hwait
    rw [hdep, some.injEq] at hdep'
    subst hdep'
    exact hsound.waits_for_smaller htx hst hdep hst' hmem
  · -- along the relation the end timestamps fall
    have hfalls : ∀ {u d}, Relation.TransGen w.PreparingWaitsFor u d →
        ∃ tx dep e f, w.store.txs u = some tx ∧ tx.state = .preparing e ∧
          w.store.txs d = some dep ∧ dep.state = .preparing f ∧ f < e := by
      intro u d hpath
      induction hpath with
      | single hstep =>
        obtain ⟨⟨dep', hdep', hmem⟩, tx, dep, e, f, htx, hst, hdep, hst'⟩ := hstep
        rw [hdep, some.injEq] at hdep'
        subst hdep'
        exact ⟨tx, dep, e, f, htx, hst, hdep, hst', hsound.waits_for_smaller htx hst hdep hst' hmem⟩
      | tail _ hstep ih =>
        obtain ⟨tx0, mid, e0, m, htx0, hst0, hmid, hstm, hlt0⟩ := ih
        obtain ⟨⟨dep', hdep', hmem⟩, tx, dep, e, f, htx, hst, hdep, hst'⟩ := hstep
        rw [hdep, some.injEq] at hdep'
        subst hdep'
        have hlt := hsound.waits_for_smaller hmid hstm hdep hst' hmem
        exact ⟨tx0, dep, e0, f, htx0, hst0, hdep, hst', by omega⟩
    obtain ⟨tx, dep, e, f, htx, hst, hdep, hst', hlt⟩ := hfalls hcycle
    rw [htx, some.injEq] at hdep
    subst hdep
    rw [hst, preparing.injEq] at hst'
    omega

/-- A transaction reads a row whose writer is `Preparing`. -/
theorem commit_dependencies_speculative_read :
    ∃ (w : World Empty Unit) (tx : Transaction Empty Unit),
      (opened () (fun _ => none) 0).run
        [.beginTx, .insert 1 (tableRow 7 [1]), .commitTx 1 false, .commitStep 1, .beginTx,
          .read 2 (tableRow 7 []).id] = some w ∧
      w.store.txs 2 = some tx ∧ tx.commitDepCounter = 1 ∧ {d | w.WaitsFor 2 d}.ncard = 1 := by
  obtain ⟨w, hrun, htx⟩ := map_eq_some_iff.1 (show ((opened () (fun _ => none) 0).run
    [.beginTx, .insert 1 (tableRow 7 [1]), .commitTx 1 false, .commitStep 1, .beginTx,
      .read 2 (tableRow 7 []).id]).map (fun w : World Empty Unit =>
        (w.store.txs 2).map Transaction.commitDepCounter) = some (some 1) by decide +kernel)
  obtain ⟨tx, htx, hcounter⟩ := map_eq_some_iff.1 htx
  refine ⟨w, tx, hrun, htx, hcounter, ?_⟩
  rw [← (commit_dependencies (init_opened _ _ _) hrun).1 2 tx htx, hcounter]

end

/-- A read returns a version that had not ended when the reader began and that is its own, was
committed before, or is due to be with the reader waiting. -/
theorem read_from_snapshot (hinit : w0.Init) (hrun : w0.run as = some w) {id : RowID κ}
    {row : Row κ} (hread : w.read t id = some (w', some row)) :
    ∃ tx, w.store.txs t = some tx ∧ ∃ rv ∈ w'.store.rows id, rv.row = row ∧
      rv.end_ ≠ some (.txId t) ∧ (∀ e, rv.end_ = some (.timestamp e) → tx.beginTs ≤ e) ∧
      (∀ d dep e, rv.end_ = some (.txId d) → w'.store.txs d = some dep →
        dep.state = .preparing e ∨ dep.state = .committed e → tx.beginTs ≤ e) ∧
      (rv.begin_ = some (.txId t) ∨ ∃ e < tx.beginTs, rv.begin_ = some (.timestamp e) ∨
        ∃ d dep, rv.begin_ = some (.txId d) ∧ w'.store.txs d = some dep ∧
          (dep.state = .preparing e ∧ t ∈ dep.commitDepSet ∨ dep.state = .committed e)) := by
  have h := hinit.run hrun
  have hexec : w.exec (.read t id) = some w' := by
    rw [World.exec, hread]
    rfl
  have h' := (h.exec (covers_rowClash _) hexec).1
  obtain ⟨-, -, -, tx, htx, -, older, v, newer, hchain, ⟨hbirth, hdeath⟩, rfl, -⟩ :=
    read_refines h.coherent h.control hread
  have hv : v ∈ (w'.toState _).chain id := hchain ▸ mem_append_cons_self
  obtain ⟨rv, hrv, rfl⟩ := mem_map.1 hv
  refine ⟨tx, htx, rv, hrv, rfl, ?_, ?_, fun d dep e hend hdep hst => ?_, ?_⟩
  · exact fun hend => (hdeath _ (diedBy_iff.2 hend)).1 rfl
  · exact fun e hend => (hdeath _ (diedAt_iff.2 hend)).2
  · refine (hdeath _ (diedBy_iff.2 hend)).2.le h'.coherent.timely ?_
    exact .inl ⟨_, txn_of_txs hdep, hst.imp (congrArg toStatus) (congrArg toStatus)⟩
  · rcases hbirth with ⟨c, hc, hlt⟩ | hown | ⟨d, y, e, hd, hy, hlt, hst⟩
    · exact .inr ⟨c, hlt, .inl (bornAt_iff.1 hc)⟩
    · exact .inl (bornBy_iff.1 hown)
    · obtain ⟨dep, hdep, rfl⟩ := txs_of_txn hy
      refine .inr ⟨e, hlt, .inr ⟨d, dep, bornBy_iff.1 hd, hdep, ?_⟩⟩
      cases hstate : dep.state <;> simp_all [Transaction.toTxn, toStatus]

/-- The row was inserted before the reader began; its deletion got a timestamp afterwards. -/
theorem read_from_snapshot_deleting : ∃ (w w' : World Empty Unit) (tx : Transaction Empty Unit),
    (opened () (fun _ => none) 0).run (.beginTx :: .insert 1 (tableRow 7 [1]) ::
      commitActions 1 1 ++ [.beginTx, .beginTx, .delete 3 (tableRow 7 []).id, .commitTx 3 false,
        .commitStep 3]) = some w ∧ w.read 2 (tableRow 7 []).id = some (w', some (tableRow 7 [1])) ∧
    w.store.txs 2 = some tx ∧ ∃ rv ∈ w'.store.rows (tableRow 7 []).id,
      rv.end_ = some (.txId 3) ∧ rv.row = tableRow 7 [1] ∧ ∀ dep e, w'.store.txs 3 = some dep →
        dep.state = .preparing e → tx.beginTs ≤ e := by
  obtain ⟨w, hrun, hread⟩ := map_eq_some_iff.1 (show ((opened () (fun _ => none) 0).run
    (.beginTx :: .insert 1 (tableRow 7 [1]) :: commitActions 1 1 ++ [.beginTx, .beginTx,
      .delete 3 (tableRow 7 []).id, .commitTx 3 false, .commitStep 3])).map
      (fun w : World Empty Unit => (w.read 2 (tableRow 7 []).id).map fun (w', row) =>
        (row, (w'.store.rows (tableRow 7 []).id).all (·.end_ = some (.txId 3)))) =
          some (some (some (tableRow 7 [1]), true)) by decide +kernel)
  obtain ⟨⟨w', _⟩, hread, h⟩ := map_eq_some_iff.1 hread
  obtain ⟨rfl, hends⟩ := Prod.mk.inj h
  obtain ⟨tx, htx, rv, hrv, hrow, -, -, hdeleting, -⟩ :=
    read_from_snapshot (init_opened _ _ _) hrun hread
  have hend := of_decide_eq_true (all_eq_true.1 hends rv hrv)
  exact ⟨w, w', tx, hrun, hread, htx, rv, hrv, hend, hrow,
    fun dep e hdep hst => hdeleting 3 dep e hend hdep (.inl hst)⟩

end PgMicro.Mvcc
