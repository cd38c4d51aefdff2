import PgMicro.Mvcc.Undoing

/-!
# Commit and rollback steps refine the protocol

Validation admits the writer, rewriting a chain stamps it, rolling a row back wipes it,
draining `commit_dep_set` settles the dependents, and `remove_tx` retires the transaction.
-/

namespace PgMicro.Mvcc

open MultiVersion Function Option MvStore Transaction TransactionState TxTimestampOrID Version

variable {κ η : Type} {clash : RowID κ → RowID κ → Prop} {tracked : RowID κ → Prop} {g : Ghosts κ}
  {s : MvStore κ η} {t : TxID} {tx : Transaction κ η} {txs : Txs κ η} {e : Nat}

open RowVersion

section

variable {r : RowID κ}

theorem diedAt_ne_begin (hc : Coherent clash tracked (s.toState g)) {r : RowID κ}
    {v : Version (Row κ)} (hv : v ∈ (s.toState g).chain r) {d b : Nat} (hd : v.DiedAt d)
    (hb : (s.toState g).BeginOf t b) : d ≠ b := by
  rcases hc.owned.died r v hv d hd with hseed | ⟨u, k, hk, rfl, -⟩
  · have hlt := (hc.timely.beginOf_lt hb).2.1
    omega
  · exact hc.distinct.end_ne_begin u t k.endTs b (.inr ⟨k, hk, rfl⟩) hb

variable {fin : TxID → Option TransactionState}

theorem admits_of_not_conflict (hc : Coherent clash tracked (s.toState g)) (htx : s.txs t = some tx)
    (hid : tx.txId = t) {rv : RowVersion κ} (hrv : rv ∈ s.rows r) (hend : (s.toState g).EndOf t e)
    (h : versionConflicts s.txs fin tx e rv = false) :
    (s.toState g).Admits t tx.beginTs e rv.toVersion := by
  have hv : rv.toVersion ∈ (s.toState g).chain r := mem_chain hrv
  have hbegin : (s.toState g).BeginOf t tx.beginTs := .inl ⟨_, txn_of_txs htx, rfl⟩
  have howner : ∀ {o : TxID}, rv.toVersion.Mentions o → ∃ dep, s.txs o = some dep := by
    intro o hm
    obtain ⟨x, hx, -⟩ := hc.owned.mentions r _ hv o hm
    obtain ⟨dep, hdep, -⟩ := txs_of_txn hx
    exact ⟨dep, hdep⟩
  -- the states in which the other transaction has not overtaken `t`
  have hother : ∀ {o : TxID} {dep : Transaction κ η}, s.txs o = some dep →
      (∀ ts, dep.state ≠ .committed ts) → (∀ f, dep.state = .preparing f → ¬ f < e) →
      o ≠ t → ∃ y, (s.toState g).txn o = some y ∧ (y.status = .active ∨
        y.status = .aborted ∨ ∃ f, y.status = .preparing f ∧ e < f) := by
    intro o dep hdep hnc hnp hne
    refine ⟨_, txn_of_txs hdep, ?_⟩
    cases hst : dep.state with
    | active => exact .inl (congrArg toStatus hst)
    | aborted => exact .inr (.inl (congrArg toStatus hst))
    | terminated => exact .inr (.inl (congrArg toStatus hst))
    | committed ts => exact absurd hst (hnc ts)
    | preparing f =>
      have hdiff : e ≠ f := fun hef => hne (hc.distinct.end_unique o t f
        (.inl ⟨_, txn_of_txs hdep, .inl (congrArg toStatus hst)⟩)
        (hef ▸ hend))
      have hle := hnp f hst
      exact .inr (.inr ⟨f, congrArg toStatus hst, by omega⟩)
  have hlt : ∀ {d : Nat}, rv.toVersion.DiedAt d → ¬ tx.beginTs < d → d < tx.beginTs := by
    intro d hd hle
    have hne := diedAt_ne_begin hc hv hd hbegin
    omega
  obtain ⟨id, begin_, end_, row, resident⟩ := rv
  cases begin_ with
  | none =>
    cases end_ with
    | none => trivial
    | some end_ =>
      cases end_ with
      | timestamp d => exact hlt rfl (of_decide_eq_false h)
      | txId o =>
        by_cases hot : o = t
        · exact .inl hot
        obtain ⟨dep, hdep⟩ := howner (.inr rfl)
        simp only [versionConflicts, hid, hot, hdep] at h
        refine .inr (hother hdep ?_ ?_ hot)
        · intro ts hst
          simp [hst] at h
        · intro f hst
          simpa [hst] using h
  | some begin_ =>
    -- the `begin` field, once the `end` field has decided nothing
    have hbirth : versionConflicts s.txs fin tx e ⟨id, some begin_, none, row, resident⟩ =
        false →
        begin_.toStamp = .tx t ∨ ∃ o y, begin_.toStamp = .tx o ∧
          (s.toState g).txn o = some y ∧ (y.status = .active ∨ y.status = .aborted ∨
            ∃ f, y.status = .preparing f ∧ e < f) := by
      intro hb
      cases begin_ with
      | timestamp b => simp [versionConflicts, versionConflicts.endOfOther] at hb
      | txId o =>
        by_cases hot : o = t
        · exact .inl (congrArg Stamp.tx hot)
        obtain ⟨dep, hdep⟩ := howner (.inl rfl)
        simp only [versionConflicts, versionConflicts.endOfOther, hid, hot, lookupTxState,
          hdep] at hb
        obtain ⟨y, hy, hst⟩ := hother hdep (fun ts hst => by simp [hst] at hb)
          (fun f hst => by simpa [hst] using hb) hot
        exact .inr ⟨o, y, rfl, hy, hst⟩
    cases end_ with
    | none => exact .inr (.inr (hbirth h))
    | some end_ =>
      cases end_ with
      | timestamp d => exact hlt rfl (of_decide_eq_false h)
      | txId o =>
        by_cases hot : o = t
        · exact .inl (congrArg (fun u => some (Stamp.tx u)) hot)
        obtain ⟨dep, hdep⟩ := howner (.inr rfl)
        simp only [versionConflicts, versionConflicts.endOfOther, hid, hot, lookupTxState,
          hdep] at h
        cases hst : dep.state with
        | committed f =>
          have hne := hc.distinct.end_ne_begin o t f _ (.inl ⟨_, txn_of_txs hdep,
            .inr (congrArg toStatus hst)⟩) hbegin
          have hle : ¬ tx.beginTs < f := by
            intro hlt
            simp [hst, hlt] at h
          exact .inr (.inl ⟨o, _, f, rfl, txn_of_txs hdep,
            congrArg toStatus hst, by omega⟩)
        | active | aborted | terminated | preparing =>
          refine .inr (.inr (hbirth ?_))
          simpa [versionConflicts, versionConflicts.endOfOther, hst, hid,
            lookupTxState] using h

theorem forM_ok {ε α : Type} {f : α → Except ε Unit} {l : List α} (h : l.forM f = .ok ()) :
    ∀ a ∈ l, f a = .ok () := by
  induction l with
  | nil => simp
  | cons a l ih =>
    change (f a >>= fun _ => l.forM f) = _ at h
    cases hfa : f a with
    | error e =>
      rw [hfa] at h
      cases h
    | ok u =>
      rw [hfa] at h
      exact List.forall_mem_cons.2 ⟨hfa, ih h⟩

theorem checkVersionConflicts_ok {versions : List (RowVersion κ)}
    (h : checkVersionConflicts txs fin tx e versions = .ok ()) :
    ∀ rv ∈ versions, versionConflicts txs fin tx e rv = false := by
  intro rv hrv
  unfold checkVersionConflicts at h
  split at h
  · cases h
  · next hany =>
    simp only [List.any_reverse, List.any_eq_true, not_exists, not_and] at hany
    simpa using hany rv hrv

def MvStore.Covers [IndexKey κ] (clash : RowID κ → RowID κ → Prop) (s : MvStore κ η) : Prop :=
  ∀ tx e ids, s.validateWriteSet tx e ids = .ok () → ∀ r ∈ ids, ∀ r', clash r r' →
    checkVersionConflicts s.txs s.finalizedTxStates tx e (s.rows r') = .ok ()

def rowClash (r r' : RowID κ) : Prop := IntKeyed r ∧ r' = r

theorem MvStore.covers_rowClash [IndexKey κ] (s : MvStore κ η) : s.Covers rowClash := by
  rintro tx e ids hok r hr r' ⟨hint, rfl⟩
  have hcheck := forM_ok hok r' hr
  obtain ⟨table, key⟩ := r'
  cases key with
  | int k => exact hcheck
  | record k => cases hint

theorem MvStore.admits_of_validate [IndexKey κ] (hcover : s.Covers clash)
    (hc : Coherent clash tracked (s.toState g)) (htx : s.txs t = some tx) (hid : tx.txId = t)
    (hst : tx.state.toStatus = .preparing e) {ids : List (RowID κ)}
    (hids : ∀ r ∈ tx.writeSet, r ∈ ids) (hok : s.validateWriteSet tx e ids = .ok ()) :
    ∀ r ∈ tx.writeSet, ∀ r', clash r r' → ∀ v ∈ (s.toState g).chain r',
      (s.toState g).Admits t tx.beginTs e v := by
  intro r hr r' hclash v hv
  obtain ⟨rv, hrv, rfl⟩ := List.mem_map.1 hv
  have hend : (s.toState g).EndOf t e :=
    .inl ⟨_, txn_of_txs htx, .inl hst⟩
  exact admits_of_not_conflict hc htx hid hrv hend
    (checkVersionConflicts_ok (hcover tx e ids hok r (hids r hr) r' hclash) rv hrv)

end

section

theorem commitStamp_toStamp (ref : Option TxTimestampOrID) :
    (commitStamp t e ref).map toStamp =
      stampBound t e (ref.map toStamp) := by
  rcases ref with - | - | o
  · rfl
  · rfl
  · by_cases ho : o = t
    · subst ho
      simp [commitStamp, stampBound, toStamp]
    · simp [commitStamp, stampBound, toStamp, ho]

theorem rewriteRowVersion_toVersion (rv : RowVersion κ) :
    (rewriteRowVersion t e rv).toVersion = rv.toVersion.stamp t e := by
  simp [toVersion, rewriteRowVersion, stamp, commitStamp_toStamp]

theorem rollbackRowVersion_toVersion (rv : RowVersion κ) :
    (rollbackRowVersion t rv).toVersion = rv.toVersion.wipe t := by
  have hborn : rv.toVersion.born = some (.tx t) ↔ rv.begin_ = some (.txId t) :=
    bornBy_iff
  have hdied : rv.toVersion.died = some (.tx t) ↔ rv.end_ = some (.txId t) :=
    diedBy_iff
  simp only [rollbackRowVersion, wipe, hborn, hdied]
  split
  · rfl
  · split <;> rfl

variable [DecidableEq κ]

theorem MvStore.rewriteRowid_step (htx : s.txs t = some tx) (hst : tx.state.toStatus = .committed e)
    (r : RowID κ) : Step clash tracked (s.toState g) (.stamp t r)
    ((s.rewriteRowid t e r).toState g) := by
  have hstep : Step clash tracked (s.toState g) (.stamp t r) _ :=
    Step.stamp _ r (txn_of_txs htx) hst
  have hmap : ((s.rows r).map (rewriteRowVersion t e)).map toVersion =
      ((s.toState g).chain r).map (stamp t e) := by
    simp [toState, toChains, rewriteRowVersion_toVersion]
  simp only [toState, rewriteRowid, toChains_update] at hmap ⊢
  rw [hmap]
  exact hstep

theorem MvStore.rollbackRowid_step (htx : s.txs t = some tx) (hst : tx.state.toStatus = .aborted)
    (hdrained : tx.commitDepSet = []) (r : RowID κ) :
    Step clash tracked (s.toState g) (.wipe t r) ((s.rollbackRowid t r).toState g) := by
  have hstep : Step clash tracked (s.toState g) (.wipe t r) _ :=
    Step.wipe _ r (txn_of_txs htx) hst hdrained
  have hmap : ((s.rows r).map (rollbackRowVersion t)).map toVersion =
      ((s.toState g).chain r).map (wipe t) := by
    simp [toState, toChains, rollbackRowVersion_toVersion]
  simp only [toState, rollbackRowid, toChains_update] at hmap ⊢
  rw [hmap]
  exact hstep

end

section

/-- What `notify_dependent` does to a transaction in the set. -/
def Transaction.notified (aborted : Bool) (tx : Transaction κ η) : Transaction κ η :=
  { tx with
    abortNow := tx.abortNow || aborted
    commitDepCounter := fetchSubOne tx.commitDepCounter }

theorem notifyDependent_apply (aborted : Bool) (txs : Txs κ η) (d u : TxID) :
    notifyDependent aborted txs d u =
      if u = d then (txs u).map (notified aborted) else txs u := by
  unfold notifyDependent
  by_cases hu : u = d
  · subst hu
    cases h : txs u with
    | none => simp [h]
    | some tx => simp [notified]
  · cases h : txs d with
    | none => simp [hu]
    | some tx => simp [hu]

theorem foldl_notifyDependent (aborted : Bool) {deps : List TxID} (hnodup : deps.Nodup)
    (txs : Txs κ η) (u : TxID) :
    deps.foldl (notifyDependent aborted) txs u =
      if u ∈ deps then (txs u).map (notified aborted) else txs u := by
  induction deps generalizing txs with
  | nil => simp
  | cons d deps ih =>
    obtain ⟨hd, hnodup⟩ := List.nodup_cons.1 hnodup
    rw [List.foldl_cons, ih hnodup, notifyDependent_apply]
    by_cases hu : u = d
    · subst hu
      simp [hd]
    · simp [hu]

variable (s)

theorem MvStore.drainCommitDepSet_frame (t : TxID) (aborted : Bool) :
    TxsFrame s.txs (s.drainCommitDepSet t aborted).txs := by
  have hnotify : ∀ (deps : List TxID) (txs : Txs κ η),
      TxsFrame txs (deps.foldl (notifyDependent aborted) txs) := by
    intro deps
    induction deps with
    | nil => exact fun txs => .refl txs
    | cons d deps ih =>
      intro txs
      refine .trans ?_ (ih _)
      intro u
      rw [notifyDependent_apply]
      split
      · rw [map_map]
        rfl
      · rfl
  unfold drainCommitDepSet
  cases htx : s.txs t with
  | none => exact .refl _
  | some tx =>
    refine .trans ?_ (hnotify _ _)
    rw [modifyTx_eq htx]
    exact .update htx rfl

theorem MvStore.drainCommitDepSet_rows (t : TxID) (aborted : Bool) :
    (s.drainCommitDepSet t aborted).rows = s.rows := by
  unfold drainCommitDepSet
  split <;> rfl

theorem MvStore.drainCommitDepSet_lock (t : TxID) (aborted : Bool) :
    (s.drainCommitDepSet t aborted).blockingCheckpointLock = s.blockingCheckpointLock := by
  unfold drainCommitDepSet
  split <;> rfl

variable {s}

section

variable (hc : Coherent clash tracked (s.toState g)) (htx : s.txs t = some tx)

include hc htx

theorem commitDepCounter_pos {u : TxID} {dep : Transaction κ η} (hdep : s.txs u = some dep)
    (hmem : u ∈ tx.commitDepSet) : 0 < dep.commitDepCounter := by
  have hpending : dep.commitDepCounter = _ :=
    hc.dependable.pending u _ (txn_of_txs hdep)
  rw [hpending, Set.ncard_pos (Dependable.finite_waitsOn hc.timely u)]
  exact ⟨t, _, txn_of_txs htx, hmem⟩

theorem MvStore.drainCommitDepSet_txns (aborted : Bool) :
    toTxns g (s.drainCommitDepSet t aborted).txs =
      (s.toState g).settle t (tx.toTxn (g.validated t)) aborted := by
  have hx : (s.toState g).txn t = some _ := txn_of_txs htx
  have hnodup : tx.commitDepSet.Nodup := hc.dependable.nodup t _ hx
  have hirrefl : t ∉ tx.commitDepSet := hc.dependable.irrefl t _ hx
  funext u
  simp only [toTxns, drainCommitDepSet, htx, modifyTx_eq htx,
    foldl_notifyDependent aborted hnodup, State.settle]
  by_cases hut : u = t
  · subst hut
    simp only [hirrefl, update_self]
    rfl
  simp only [hut, update_of_ne hut]
  cases hdep : s.txs u with
  | none => simp [toState, toTxns, hdep]
  | some dep =>
    simp only [toState, toTxns, hdep]
    by_cases hmem : u ∈ tx.commitDepSet
    · have hpos := commitDepCounter_pos hc htx hdep hmem
      simp [hmem, toTxn, notified, fetchSubOne, hpos.ne']
    · simp [hmem, toTxn]

theorem MvStore.drainCommitDepSet_drained {aborted : Bool} {tx' : Transaction κ η}
    (htx' : (s.drainCommitDepSet t aborted).txs t = some tx') : tx'.commitDepSet = [] := by
  have htxn := congrFun (drainCommitDepSet_txns hc htx aborted) t
  rw [toTxns, htx', map_some, State.settle_self, some.injEq] at htxn
  exact congrArg Txn.dependents htxn

end

variable [DecidableEq κ]

theorem MvStore.drainCommitDepSet_release (hc : Coherent clash tracked (s.toState g))
    (htx : s.txs t = some tx) (hst : tx.state.toStatus = .committed e) :
    Step clash tracked (s.toState g) (.release t)
      ((s.drainCommitDepSet t false).toState g) := by
  have hstep : Step clash tracked (s.toState g) (.release t) _ :=
    Step.release _ (txn_of_txs htx) hst
  rw [← drainCommitDepSet_txns hc htx] at hstep
  simp only [drainCommitDepSet, htx] at hstep ⊢
  exact hstep

theorem MvStore.drainCommitDepSet_cascade (hc : Coherent clash tracked (s.toState g))
    (htx : s.txs t = some tx) (hst : tx.state.toStatus = .aborted) :
    Step clash tracked (s.toState g) (.cascade t)
      ((s.drainCommitDepSet t true).toState g) := by
  have hstep : Step clash tracked (s.toState g) (.cascade t) _ :=
    Step.cascade _ (txn_of_txs htx) hst
  rw [← drainCommitDepSet_txns hc htx] at hstep
  simp only [drainCommitDepSet, htx] at hstep ⊢
  exact hstep

end

section

theorem toTxns_congr {g' : Ghosts κ}
    (h : ∀ u tx, txs u = some tx → g'.validated u = g.validated u) :
    toTxns g' txs = toTxns g txs := by
  funext u
  cases htx : txs u with
  | none => simp only [toTxns, htx, map_none]
  | some tx => simp [toTxns, h u tx htx]

theorem toTxns_remove (txs : Txs κ η) :
    toTxns g (update txs t none) = update (toTxns g txs) t none := by
  funext u
  by_cases hu : u = t
  · subst hu
    simp [toTxns]
  · simp [toTxns, update_of_ne hu]

variable [DecidableEq κ]

/-- `remove_tx` does not fail on a transaction whose dependents have been told. -/
theorem MvStore.removeTx_retire (htx : s.txs t = some tx)
    (hended : tx.state.toStatus = .aborted ∨ ∃ e, tx.state.toStatus = .committed e)
    (hdrained : tx.commitDepSet = []) (hgone : ∀ r, ∀ rv ∈ s.rows r, ¬ rv.toVersion.Mentions t) :
    ∃ s', s.removeTx t = some s' ∧
      Step clash tracked (s.toState g) (.retire t) (s'.toState g) := by
  have hstep : Step clash tracked (s.toState g) (.retire t) _ :=
    Step.retire _ (txn_of_txs htx) hended hdrained (fun r v hv => by
      obtain ⟨rv, hrv, rfl⟩ := List.mem_map.1 hv
      exact hgone r rv hrv)
  simp only [removeTx, htx, hdrained, if_true, some.injEq, exists_eq_left',
    toState, toTxns_remove]
  exact hstep

def Ghosts.committed (g : Ghosts κ) (t : TxID) (record : Record (RowID κ)) : Ghosts κ :=
  { g with history := update g.history t (some record) }

theorem MvStore.commit_step (htx : s.txs t = some tx) (hst : tx.state.toStatus = .preparing e)
    (hvalid : g.validated t = true) (habort : tx.abortNow = false)
    (hcounter : tx.commitDepCounter = 0) :
    Step clash tracked (s.toState g) (.commit t)
      ((s.modifyTx t fun tx => { tx with state := .committed e }).toState
        (g.committed t ⟨tx.beginTs, e, tx.writeSet⟩)) := by
  have hstep : Step clash tracked (s.toState g) (.commit t) _ :=
    Step.commit _ (txn_of_txs htx) hst hvalid habort hcounter
  rw [modifyTx_eq htx]
  simp only [toState, toTxns_update]
  exact hstep

theorem MvStore.finishReadOnly_path (hc : Coherent clash tracked (s.toState g))
    (htx : s.txs t = some tx) (hst : tx.state.toStatus = .preparing e)
    (hvalid : g.validated t = true) (habort : tx.abortNow = false)
    (hcounter : tx.commitDepCounter = 0) (hwrites : tx.writeSet = []) :
    ∃ s', s.finishReadOnly t e = some s' ∧
      Path clash tracked (s.toState g) [.commit t, .retire t]
        (s'.toState (g.committed t ⟨tx.beginTs, e, []⟩)) := by
  have hdrained : tx.commitDepSet = [] := by
    by_contra hne
    exact hc.dependable.writer t _ (txn_of_txs htx) hne hwrites
  have hgone : ∀ r, ∀ rv ∈ s.rows r, ¬ rv.toVersion.Mentions t := by
    intro r rv hrv hm
    obtain ⟨x, hx, hr⟩ := hc.owned.mentions r _ (mem_chain hrv) t hm
    obtain ⟨tx', htx', rfl⟩ := txs_of_txn hx
    rw [htx, some.injEq] at htx'
    subst htx'
    rw [show (tx.toTxn (g.validated t)).writes = [] from hwrites] at hr
    cases hr
  have hcommit : Step clash tracked (s.toState g) (.commit t) _ :=
    commit_step htx hst hvalid habort hcounter
  rw [hwrites, modifyTx_eq htx] at hcommit
  obtain ⟨s', hremove, hretire⟩ : ∃ s', removeTx
      { s with txs := update s.txs t (some { tx with state := .committed e }) } t =
        some s' ∧ Step clash tracked _ (.retire t)
          (s'.toState (g.committed t ⟨tx.beginTs, e, []⟩)) :=
    removeTx_retire (update_self ..) (.inr ⟨e, rfl⟩) hdrained hgone
  refine ⟨s', ?_, .cons hcommit (.single hretire)⟩
  rw [finishReadOnly, modifyTx_eq htx]
  exact hremove

end

end PgMicro.Mvcc
