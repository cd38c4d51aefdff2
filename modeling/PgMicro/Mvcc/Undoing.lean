import PgMicro.MultiVersion.OwnWork
import PgMicro.Mvcc.Writing

/-!
# Savepoint rollback refines the protocol

The lists of a savepoint name versions the transaction has created or ended itself, so
undoing them takes back its own work and nothing else.
-/

namespace PgMicro.Mvcc

open MultiVersion Function List MvStore Transaction RowVersion Savepoint

variable {κ η : Type} {clash : RowID κ → RowID κ → Prop} {st st' : State (RowID κ) (Row κ)}
  {t : TxID} {x : Txn (RowID κ)} {sp : Savepoint κ η} {g : Ghosts κ} {s : MvStore κ η}
  {stack rest : List (Savepoint κ η)} {tx : Transaction κ η} {tracked : RowID κ → Prop}
  {name : String}

def Savepoint.created (sp : Savepoint κ η) : List (RowID κ × Nat) :=
  sp.createdTableVersions ++ sp.createdIndexVersions

def Savepoint.deleted (sp : Savepoint κ η) : List (RowID κ × Nat) :=
  sp.deletedTableVersions ++ sp.deletedIndexVersions

section

variable [DecidableEq κ]

/-- Clear the `end` of the versions of `r` that are listed. -/
def restoreListed (deleted : List (RowID κ × Nat)) (r : RowID κ) (rv : RowVersion κ) :
    RowVersion κ :=
  if (r, rv.id) ∈ deleted then { rv with end_ := none } else rv

theorem id_restoreListed (deleted : List (RowID κ × Nat)) (r : RowID κ) (rv : RowVersion κ) :
    (restoreListed deleted r rv).id = rv.id := by
  unfold restoreListed
  split <;> rfl

theorem foldl_removeCreatedVersion (created : List (RowID κ × Nat))
    (rows : RowID κ → List (RowVersion κ)) (r : RowID κ) :
    created.foldl removeCreatedVersion rows r =
      (rows r).filter fun rv => decide ((r, rv.id) ∉ created) := by
  induction created generalizing rows with
  | nil => simp
  | cons p created ih =>
    rw [foldl_cons, ih]
    by_cases hr : r = p.1
    · subst hr
      simp only [removeCreatedVersion, update_self, filter_filter]
      refine filter_congr fun rv _ => ?_
      obtain ⟨id, n⟩ := p
      rw [Bool.eq_iff_iff]
      simp [and_comm]
    · simp only [removeCreatedVersion, update_of_ne hr]
      refine filter_congr fun rv _ => ?_
      have hne : (r, rv.id) ≠ p := fun heq => hr (congrArg Prod.fst heq)
      simp [hne]

omit [DecidableEq κ] in
theorem clearEnd_eq_map (n : Nat) (versions : List (RowVersion κ))
    (hnodup : (versions.map RowVersion.id).Nodup) :
    clearEnd n versions =
      versions.map fun rv => if rv.id = n then { rv with end_ := none } else rv := by
  induction versions with
  | nil => rfl
  | cons rv versions ih =>
    rw [map_cons, nodup_cons] at hnodup
    rw [clearEnd, map_cons]
    split
    next hid =>
      congr 1
      refine ((map_congr_left fun u hu => if_neg ?_).trans (map_id _)).symm
      rintro hu'
      exact hnodup.1 (hid.trans hu'.symm ▸ mem_map_of_mem hu)
    · rw [ih hnodup.2]

theorem foldl_restoreDeletedVersion (deleted : List (RowID κ × Nat))
    (rows : RowID κ → List (RowVersion κ)) (hnodup : ∀ r, ((rows r).map RowVersion.id).Nodup)
    (r : RowID κ) :
    deleted.foldl restoreDeletedVersion rows r =
      (rows r).map (restoreListed deleted r) := by
  induction deleted generalizing rows with
  | nil =>
    refine ((map_congr_left fun u _ => ?_).trans (map_id _)).symm
    simp [restoreListed]
  | cons p deleted ih =>
    have hids : ∀ q, (restoreDeletedVersion rows p q).map RowVersion.id =
        (rows q).map RowVersion.id := by
      intro q
      by_cases hq : q = p.1
      · subst hq
        simp only [restoreDeletedVersion, update_self,
          clearEnd_eq_map _ _ (hnodup _), map_map]
        refine map_congr_left fun u _ => ?_
        simp only [comp_apply]
        split <;> rfl
      · simp [restoreDeletedVersion, update_of_ne hq]
    rw [foldl_cons, ih _ fun q => hids q ▸ hnodup q]
    by_cases hr : r = p.1
    · subst hr
      simp only [restoreDeletedVersion, update_self,
        clearEnd_eq_map _ _ (hnodup _), map_map]
      refine map_congr_left fun u _ => ?_
      obtain ⟨id, n⟩ := p
      simp only [comp_apply, restoreListed, mem_cons, Prod.mk.injEq]
      by_cases hn : u.id = n
      · simp [hn]
      · simp [hn]
    · simp only [restoreDeletedVersion, update_of_ne hr]
      refine map_congr_left fun u _ => ?_
      have hne : (r, u.id) ≠ p := fun heq => hr (congrArg Prod.fst heq)
      simp [restoreListed, hne]

theorem undoVersions_eq (sp : Savepoint κ η) (rows : RowID κ → List (RowVersion κ))
    (hnodup : ∀ r, ((rows r).map RowVersion.id).Nodup) (r : RowID κ) :
    undoVersions sp rows r =
      ((rows r).filter fun rv => decide ((r, rv.id) ∉ sp.created)).map
        (restoreListed sp.deleted r) := by
  have hsub : ∀ q, (((sp.createdTableVersions ++ sp.createdIndexVersions).foldl
      removeCreatedVersion rows q).map RowVersion.id).Nodup := by
    intro q
    rw [foldl_removeCreatedVersion]
    exact (hnodup q).sublist (filter_sublist.map _)
  rw [undoVersions, ← foldl_append, ← foldl_append,
    foldl_restoreDeletedVersion _ _ hsub, foldl_removeCreatedVersion]
  rfl

end

def IntKeyed (r : RowID κ) : Prop := r.rowId.isIntKey = true

/-- What the lists of a savepoint of `t` say about the chains. -/
structure Recorded (st : State (RowID κ) (Row κ)) (t : TxID) (sp : Savepoint κ η) : Prop where
  tableKeys : ∀ p ∈ sp.createdTableVersions ++ sp.deletedTableVersions, IntKeyed p.1
  indexKeys : ∀ p ∈ sp.createdIndexVersions ++ sp.deletedIndexVersions, ¬ IntKeyed p.1
  created : ∀ p ∈ sp.created, p.2 < st.nextVersion ∧
    ∀ v ∈ st.chain p.1, v.id = p.2 → v.CreatedBy t
  deleted : ∀ p ∈ sp.deleted, p.2 < st.nextVersion ∧
    ∀ v ∈ st.chain p.1, v.id = p.2 → v.EndedBy t

section

variable [DecidableEq κ] {ev : Event (RowID κ) (Row κ)}

theorem Recorded.step (h : Recorded st t sp) (hc : Coherent clash tracked st)
    (hs : Step clash tracked st ev st') (hx : st.txn t = some x) (hactive : x.status = .active)
    (hev : ev ≠ .undo t) : Recorded st' t sp where
  tableKeys := h.tableKeys
  indexKeys := h.indexKeys
  created p hp := by
    obtain ⟨hlt, hown⟩ := h.created p hp
    exact ⟨hlt.trans_le hs.nextVersion_le,
      fun v hv hid => hs.createdBy_stays hx hactive hev hlt hc.seen hc.owned hown hv hid⟩
  deleted p hp := by
    obtain ⟨hlt, hown⟩ := h.deleted p hp
    exact ⟨hlt.trans_le hs.nextVersion_le,
      fun v hv hid => hs.endedBy_stays hx hactive hev hlt hown hv hid⟩

end

section

variable [DecidableEq κ]

omit [DecidableEq κ] in
theorem rows_nodup (hc : Coherent clash tracked (s.toState g)) (r : RowID κ) :
    ((s.rows r).map RowVersion.id).Nodup := by
  have h := hc.numbered.nodup r
  simp only [toState, toChains, map_map] at h
  exact h

omit [DecidableEq κ] in
theorem RowVersion.toVersion_restored {rv : RowVersion κ} (h : rv.toVersion.EndedBy t) :
    (rv.toVersion.DiedBy t ∧
        toVersion { rv with end_ := none } = { rv.toVersion with died := none }) ∨
      toVersion { rv with end_ := none } = rv.toVersion := by
  rcases h with ⟨hdied, -⟩ | ⟨-, hnone⟩
  · exact .inl ⟨hdied, rfl⟩
  · refine .inr ?_
    simp only [toVersion] at hnone
    simp [toVersion, hnone]

theorem Recorded.undone (h : Recorded (s.toState g) t sp)
    (hnodup : ∀ r, ((s.rows r).map RowVersion.id).Nodup) (r : RowID κ) :
    Undone t ((s.toState g).chain r) (toChains (undoVersions sp s.rows) r) where
  ids := by
    simp only [toChains, undoVersions_eq sp s.rows hnodup, map_map, toState]
    have hids : Version.id ∘ toVersion ∘ restoreListed sp.deleted r =
        Version.id ∘ toVersion := funext (id_restoreListed sp.deleted r)
    rw [hids]
    exact filter_sublist.map _
  back v hv := by
    simp only [toChains, undoVersions_eq sp s.rows hnodup, map_map, mem_map,
      mem_filter, comp_apply] at hv
    obtain ⟨rv, ⟨hrv, -⟩, rfl⟩ := hv
    unfold restoreListed
    split
    next hdel =>
      have hended := (h.deleted _ hdel).2 rv.toVersion (mem_chain hrv) rfl
      rcases toVersion_restored hended with ⟨hdied, heq⟩ | heq
      · exact .inr ⟨rv.toVersion, mem_chain hrv, hdied, heq⟩
      · rw [heq]
        exact .inl (mem_chain hrv)
    · exact .inl (mem_chain hrv)
  forth u hu := by
    obtain ⟨rv, hrv, rfl⟩ := mem_map.1 hu
    by_cases hcre : (r, rv.id) ∈ sp.created
    · rcases (h.created _ hcre).2 rv.toVersion (mem_chain hrv) rfl with hborn | htomb
      · exact .inr (.inr (.inl hborn))
      · exact .inr (.inr (.inr htomb))
    have hmem : (restoreListed sp.deleted r rv).toVersion ∈
        toChains (undoVersions sp s.rows) r := by
      simp only [toChains, undoVersions_eq sp s.rows hnodup, map_map]
      exact mem_map.2 ⟨rv, mem_filter.2 ⟨hrv, decide_eq_true hcre⟩, rfl⟩
    unfold restoreListed at hmem
    split at hmem
    next hdel =>
      have hended := (h.deleted _ hdel).2 rv.toVersion (mem_chain hrv) rfl
      rcases toVersion_restored hended with ⟨hdied, heq⟩ | heq
      · exact .inr (.inl ⟨hdied, heq ▸ hmem⟩)
      · exact .inl (heq ▸ hmem)
    · exact .inl hmem

theorem Recorded.undoVersions_untouched (h : Recorded (s.toState g) t sp)
    (hnodup : ∀ r, ((s.rows r).map RowVersion.id).Nodup) {r : RowID κ} (hint : IntKeyed r)
    (hr : r ∉ touchedRowids sp) : undoVersions sp s.rows r = s.rows r := by
  have hcre : ∀ n, (r, n) ∉ sp.created := by
    intro n hmem
    rcases mem_append.1 hmem with hmem | hmem
    · exact hr (mem_append_left _ (mem_append_left _ (mem_map_of_mem hmem)))
    · exact h.indexKeys _ (mem_append_left _ hmem) hint
  have hdel : ∀ n, (r, n) ∉ sp.deleted := by
    intro n hmem
    rcases mem_append.1 hmem with hmem | hmem
    · exact hr (mem_append_left _ (mem_append_right _ (mem_map_of_mem hmem)))
    · exact h.indexKeys _ (mem_append_right _ hmem) hint
  rw [undoVersions_eq sp s.rows hnodup, filter_eq_self.2 fun rv _ => decide_eq_true (hcre rv.id)]
  refine (map_congr_left fun rv _ => ?_).trans (map_id _)
  exact if_neg (hdel rv.id)

def Transaction.undone (tx : Transaction κ η) (s : MvStore κ η) (t : TxID)
    (sp : Savepoint κ η) : Transaction κ η :=
  { tx with
    writeSet := tx.writeSet.filter fun id =>
      !(decide (id ∈ touchedRowids sp) &&
        !rowHasUncommittedVersionForTx
          { s with rows := undoVersions sp s.rows } id t)
    header := sp.header
    headerDirty := sp.headerDirty }

theorem MvStore.rollbackSavepointChanges_eq (htx : s.txs t = some tx) :
    s.rollbackSavepointChanges t sp =
      { s with
        rows := undoVersions sp s.rows
        txs := update s.txs t (some (tx.undone s t sp)) } := by
  simp [rollbackSavepointChanges, removeRolledBackRowsFromWriteSet, modifyTx, htx, undone]

theorem Recorded.rollback (h : Recorded (s.toState g) t sp)
    (hc : Coherent clash IntKeyed (s.toState g)) (htx : s.txs t = some tx)
    (hactive : tx.state = .active) :
    Step clash IntKeyed (s.toState g) (.undo t) ((s.rollbackSavepointChanges t sp).toState g) := by
  have hnodup := rows_nodup hc
  have hmention : ∀ r, rowHasUncommittedVersionForTx
      { s with rows := undoVersions sp s.rows } r t = true ↔
      ∃ v ∈ toChains (undoVersions sp s.rows) r, v.Mentions t := by
    intro r
    simp [rowHasUncommittedVersionForTx, RowVersion.refersTo_iff, toChains]
  rw [rollbackSavepointChanges_eq htx]
  have hsub : ∀ r ∈ (tx.undone s t sp).writeSet, r ∈ tx.writeSet :=
    fun r hr => (mem_filter.1 hr).1
  have hstep : Step clash IntKeyed (s.toState g) (.undo t) _ :=
    Step.undo _ (txn_of_txs htx) (congrArg TransactionState.toStatus hactive)
      (h.undone hnodup) hsub ?_ ?_
  · simp only [toState, toTxns_update]
    exact hstep
  · intro r hr hgone v hv hm
    refine hgone (mem_filter.2 ⟨hr, ?_⟩)
    simp [(hmention r).2 ⟨v, hv, hm⟩]
  · intro r hr hint
    by_cases htouch : r ∈ touchedRowids sp
    · left
      have hkeep := (mem_filter.1 hr).2
      simp only [htouch, decide_true, Bool.true_and, Bool.not_not] at hkeep
      exact (hmention r).1 hkeep
    · right
      simp [toChains, toState, h.undoVersions_untouched hnodup hint htouch]

end

structure SavepointsOK (st : State (RowID κ) (Row κ)) (t : TxID)
    (stack : List (Savepoint κ η)) : Prop where
  recorded : ∀ sp ∈ stack, Recorded st t sp
  nodup : (stack.flatMap deleted).Nodup

namespace SavepointsOK

theorem nil : SavepointsOK st t ([] : List (Savepoint κ η)) :=
  ⟨fun _ h => absurd h not_mem_nil, nodup_nil⟩

theorem congr (h : SavepointsOK st t stack) (hchain : st'.chain = st.chain)
    (hnext : st'.nextVersion = st.nextVersion) : SavepointsOK st' t stack := by
  refine ⟨fun sp hsp => ?_, h.nodup⟩
  obtain ⟨htable, hindex, hcreated, hdeleted⟩ := h.recorded sp hsp
  exact ⟨htable, hindex, hchain ▸ hnext ▸ hcreated, hchain ▸ hnext ▸ hdeleted⟩

theorem step [DecidableEq κ] {clash : RowID κ → RowID κ → Prop} {ev : Event (RowID κ) (Row κ)}
    {x : Txn (RowID κ)} (h : SavepointsOK st t stack) (hc : Coherent clash tracked st)
    (hs : Step clash tracked st ev st') (hx : st.txn t = some x) (hactive : x.status = .active)
    (hev : ev ≠ .undo t) : SavepointsOK st' t stack :=
  ⟨fun sp hsp => (h.recorded sp hsp).step hc hs hx hactive hev, h.nodup⟩

theorem tail (h : SavepointsOK st t (sp :: rest)) : SavepointsOK st t rest where
  recorded sp' hsp' := h.recorded sp' (mem_cons_of_mem _ hsp')
  nodup := by
    have hnodup := h.nodup
    rw [flatMap_cons] at hnodup
    exact (nodup_append.1 hnodup).2.1

theorem push (h : SavepointsOK st t rest) (hcreated : sp.created = [])
    (hdeleted : sp.deleted = []) :
    SavepointsOK st t (sp :: rest) where
  recorded sp' hsp' := by
    rcases mem_cons.1 hsp' with rfl | hsp'
    · obtain ⟨hct, hci⟩ := append_eq_nil_iff.1 hcreated
      obtain ⟨hdt, hdi⟩ := append_eq_nil_iff.1 hdeleted
      exact {
        tableKeys := fun p hp => by rw [hct, hdt] at hp; cases hp
        indexKeys := fun p hp => by rw [hci, hdi] at hp; cases hp
        created := fun p hp => by rw [hcreated] at hp; cases hp
        deleted := fun p hp => by rw [hdeleted] at hp; cases hp }
    · exact h.recorded sp' hsp'
  nodup := by
    rw [flatMap_cons, hdeleted, nil_append]
    exact h.nodup

end SavepointsOK

section

variable {sp' : Savepoint κ η} {drained above below : List (Savepoint κ η)} {target : Savepoint κ η}

theorem Savepoint.mem_created_mergeFrom (p : RowID κ × Nat) :
    p ∈ (sp.mergeFrom sp').created ↔ p ∈ sp.created ∨ p ∈ sp'.created := by
  simp only [created, mergeFrom, mem_append]
  tauto

theorem Savepoint.deleted_mergeFrom :
    (sp.mergeFrom sp').deleted.Perm (sp.deleted ++ sp'.deleted) := by
  simp only [deleted, mergeFrom, append_assoc]
  exact List.Perm.append_left _ (perm_append_comm_assoc _ _ _)

theorem Recorded.mergeFrom (h : Recorded st t sp) (h' : Recorded st t sp') :
    Recorded st t (sp.mergeFrom sp') where
  tableKeys p hp := by
    have ht := h.tableKeys p
    have ht' := h'.tableKeys p
    simp only [Savepoint.mergeFrom, mem_append] at hp ht ht'
    tauto
  indexKeys p hp := by
    have hi := h.indexKeys p
    have hi' := h'.indexKeys p
    simp only [Savepoint.mergeFrom, mem_append] at hp hi hi'
    tauto
  created p hp := by
    rcases (Savepoint.mem_created_mergeFrom p).1 hp with hp | hp
    · exact h.created p hp
    · exact h'.created p hp
  deleted p hp := by
    rcases mem_append.1 (Savepoint.deleted_mergeFrom.mem_iff.1 hp) with hp | hp
    · exact h.deleted p hp
    · exact h'.deleted p hp

theorem SavepointsOK.mergeInto (h : SavepointsOK st t (drained ++ stack)) :
    SavepointsOK st t (mergeInto drained stack) := by
  cases stack with
  | nil => exact .nil
  | cons parent rest =>
    simp only [mergeInto]
    induction drained generalizing parent with
    | nil => exact h
    | cons sp drained ih =>
      refine ih (parent.mergeFrom sp) ⟨fun q hq => ?_, ?_⟩
      · simp only [mem_append, mem_cons] at hq
        have hall := h.recorded
        simp only [mem_append, mem_cons] at hall
        rcases hq with hq | rfl | hq
        · exact hall q (.inl (.inr hq))
        · exact (hall parent (.inr (.inl rfl))).mergeFrom (hall sp (.inl (.inl rfl)))
        · exact hall q (.inr (.inr hq))
      · refine (List.Perm.nodup_iff ?_).1 h.nodup
        simp only [flatMap_append, flatMap_cons]
        refine List.Perm.trans ?_ ((deleted_mergeFrom.symm.append_right _).append_left _)
        simp only [append_assoc]
        refine (perm_append_comm_assoc _ _ _).trans (List.Perm.append_left _ ?_)
        exact perm_append_comm_assoc _ _ _

theorem SavepointsOK.perm (h : SavepointsOK st t stack) (hperm : stack.Perm drained) :
    SavepointsOK st t drained :=
  ⟨fun sp hsp => h.recorded sp (hperm.mem_iff.2 hsp),
    ((List.Perm.flatMap_right _ hperm).nodup_iff).1 h.nodup⟩

theorem Transaction.splitAtNamed_eq {stack : List (Savepoint κ η)}
    (h : splitAtNamed name stack = some (above, target, below)) :
    stack = above ++ target :: below ∧ target.isNamed name = true ∧
      ∀ sp ∈ above, sp.isNamed name = false := by
  induction stack generalizing above with
  | nil => cases h
  | cons sp rest ih =>
    rw [splitAtNamed] at h
    split at h
    next hname =>
      cases h
      exact ⟨rfl, hname, fun _ hsp => absurd hsp not_mem_nil⟩
    next hname =>
      obtain ⟨⟨above', target', below'⟩, hsplit, heq⟩ := Option.map_eq_some_iff.1 h
      cases heq
      obtain ⟨rfl, htarget, habove⟩ := ih hsplit
      refine ⟨rfl, htarget, fun sp' hsp' => ?_⟩
      rcases mem_cons.1 hsp' with rfl | hsp'
      · exact Bool.eq_false_of_not_eq_true hname
      · exact habove sp' hsp'

theorem SavepointsOK.releaseSavepoint (h : SavepointsOK st t tx.savepointStack) :
    SavepointsOK st t tx.releaseSavepoint.savepointStack := by
  unfold Transaction.releaseSavepoint
  split
  · exact h
  next sp rest hstack =>
    rw [hstack] at h
    split
    · exact SavepointsOK.mergeInto (show SavepointsOK st t ([sp] ++ rest) from h)
    · rw [hstack]
      exact h

theorem SavepointsOK.releaseNamedSavepoint (h : SavepointsOK st t tx.savepointStack) :
    SavepointsOK st t (tx.releaseNamedSavepoint name).1.savepointStack := by
  unfold Transaction.releaseNamedSavepoint
  split
  · exact h
  next above target below hsplit =>
    obtain ⟨hstack, -⟩ := splitAtNamed_eq hsplit
    split
    · exact h
    · rw [hstack] at h
      refine SavepointsOK.mergeInto (h.perm ?_)
      refine (perm_middle).trans ?_
      rw [cons_append]
      exact ((above.reverse_perm.symm).append_right below).cons target

end

section

variable [DecidableEq κ]

/-- A savepoint whose lists hold versions of `id` only. -/
def Savepoint.entry (sp : Savepoint κ η) (id : RowID κ) (created deleted : List Nat)
    (added : List (RowID κ)) : Savepoint κ η :=
  { sp with
    createdTableVersions := if id.rowId.isIntKey then created.map (id, ·) else []
    createdIndexVersions := if id.rowId.isIntKey then [] else created.map (id, ·)
    deletedTableVersions := if id.rowId.isIntKey then deleted.map (id, ·) else []
    deletedIndexVersions := if id.rowId.isIntKey then [] else deleted.map (id, ·)
    newlyAddedToWriteSet := added }

def Transaction.newId (tx : Transaction κ η) (id : RowID κ) : List (RowID κ) :=
  if id ∈ tx.writeSet then [] else [id]

variable (tx)

theorem Transaction.created_stack (id : RowID κ) (n : Nat) :
    (tx.created id n).savepointStack =
      match tx.savepointStack with
      | [] => []
      | sp :: rest => sp.mergeFrom (sp.entry id [n] [] (tx.newId id)) :: rest := by
  unfold created insertToWriteSet newId
  cases hstack : tx.savepointStack <;> split <;> cases hkey : id.rowId.isIntKey <;>
    simp [recordCreated, hkey, recordCreatedTableVersion,
      recordCreatedIndexVersion, modifyNewest, hstack, entry,
      mergeFrom]

theorem Transaction.deleted_stack (id : RowID κ) (n : Nat) :
    (tx.deleted id n).savepointStack =
      match tx.savepointStack with
      | [] => []
      | sp :: rest => sp.mergeFrom (sp.entry id [] [n] (tx.newId id)) :: rest := by
  unfold deleted insertToWriteSet newId
  cases hstack : tx.savepointStack <;> split <;> cases hkey : id.rowId.isIntKey <;>
    simp [recordDeleted, hkey, recordDeletedTableVersion,
      recordDeletedIndexVersion, modifyNewest, hstack, entry,
      mergeFrom]

variable {tx}

variable {id : RowID κ} {v : Version (Row κ)} {made ended : List Nat} {added : List (RowID κ)}

omit [DecidableEq κ] in
theorem Savepoint.created_entry : (sp.entry id made ended added).created = made.map (id, ·) := by
  unfold entry created
  cases id.rowId.isIntKey <;> simp

omit [DecidableEq κ] in
theorem Savepoint.deleted_entry : (sp.entry id made ended added).deleted = ended.map (id, ·) := by
  unfold entry deleted
  cases id.rowId.isIntKey <;> simp

omit [DecidableEq κ] in
theorem Recorded.entry
    (hmade : ∀ n ∈ made, n < st.nextVersion ∧ ∀ v ∈ st.chain id, v.id = n → v.CreatedBy t)
    (hended : ∀ n ∈ ended, n < st.nextVersion ∧ ∀ v ∈ st.chain id, v.id = n → v.EndedBy t) :
    Recorded st t (sp.entry id made ended added) where
  tableKeys p hp := by
    cases hkey : id.rowId.isIntKey <;> simp [Savepoint.entry, hkey] at hp
    rcases hp with ⟨n, -, rfl⟩ | ⟨n, -, rfl⟩ <;> exact hkey
  indexKeys p hp := by
    cases hkey : id.rowId.isIntKey <;> simp [Savepoint.entry, hkey] at hp
    rcases hp with ⟨n, -, rfl⟩ | ⟨n, -, rfl⟩ <;> simp [IntKeyed, hkey]
  created p hp := by
    rw [Savepoint.created_entry] at hp
    obtain ⟨n, hn, rfl⟩ := mem_map.1 hp
    exact hmade n hn
  deleted p hp := by
    rw [Savepoint.deleted_entry] at hp
    obtain ⟨n, hn, rfl⟩ := mem_map.1 hp
    exact hended n hn

omit [DecidableEq κ] in
theorem SavepointsOK.note {rest : List (Savepoint κ η)} {one : Savepoint κ η}
    (h : SavepointsOK st t (sp :: rest)) (hone : Recorded st t one)
    (hnodup : (one.deleted ++ (sp :: rest).flatMap deleted).Nodup) :
    SavepointsOK st t (sp.mergeFrom one :: rest) := by
  have hall : SavepointsOK st t ([one] ++ sp :: rest) := ⟨fun sp' hsp' => ?_, hnodup⟩
  · exact hall.mergeInto
  rcases mem_cons.1 hsp' with rfl | hsp'
  · exact hone
  · exact h.recorded sp' hsp'

theorem SavepointsOK.created (h : SavepointsOK st t tx.savepointStack)
    (hc : Coherent clash tracked st) (hs : Step clash tracked st (.install t id v) st')
    (hx : st.txn t = some x) (hactive : x.status = .active) :
    SavepointsOK st' t (tx.created id st.nextVersion).savepointStack := by
  have h' := h.step hc hs hx hactive (by simp)
  obtain ⟨-, hnext, hown, hunique⟩ := hs.install_unique hc.numbered
  rw [created_stack]
  cases hstack : tx.savepointStack with
  | nil => exact .nil
  | cons sp rest =>
    rw [hstack] at h'
    refine h'.note (.entry (fun n hn => ?_) nofun) ?_
    · rw [mem_singleton.1 hn]
      refine ⟨by omega, fun v' hv' hid' => ?_⟩
      rw [hunique v' hv' hid']
      exact hown
    · rw [deleted_entry]
      exact h'.nodup

theorem SavepointsOK.deleted (h : SavepointsOK st t tx.savepointStack)
    (hc : Coherent clash tracked st) (hs : Step clash tracked st (.supersede t id v) st')
    (hx : st.txn t = some x) (hactive : x.status = .active) :
    SavepointsOK st' t (tx.deleted id v.id).savepointStack := by
  have h' := h.step hc hs hx hactive (by simp)
  obtain ⟨hv, hborn, hfree, hunique⟩ := hs.supersede_unique hc.numbered
  -- a version that is recorded as ended is not free
  have hfresh : (id, v.id) ∉ tx.savepointStack.flatMap Savepoint.deleted := by
    intro hmem
    obtain ⟨sp, hsp, hmem⟩ := mem_flatMap.1 hmem
    rcases ((h.recorded sp hsp).deleted _ hmem).2 v hv rfl with ⟨hdied, -⟩ | ⟨hnone, -⟩
    · rcases hfree with hn | ⟨a, y, hn, hy, haborted⟩ <;> unfold Version.DiedBy at hdied <;>
        rw [hn] at hdied <;> cases hdied
      rw [hx, Option.some.injEq] at hy
      rw [← hy, hactive] at haborted
      cases haborted
    · exact hborn hnone
  rw [deleted_stack]
  cases hstack : tx.savepointStack with
  | nil => exact .nil
  | cons sp rest =>
    rw [hstack] at h' hfresh
    refine h'.note (.entry nofun fun n hn => ?_) ?_
    · rw [mem_singleton.1 hn]
      refine ⟨(hc.numbered.lt id v hv).trans_le hs.nextVersion_le, fun v' hv' hid' => ?_⟩
      rw [hunique v' hv' hid']
      exact .inl ⟨rfl, hborn⟩
    · rw [deleted_entry]
      exact nodup_cons.2 ⟨hfresh, h'.nodup⟩

end

section

variable [DecidableEq κ]

theorem SavepointsOK.undo (h : SavepointsOK (s.toState g) t (sp :: rest))
    (hnodup : ∀ r, ((s.rows r).map RowVersion.id).Nodup) (htx : s.txs t = some tx) :
    SavepointsOK ((s.rollbackSavepointChanges t sp).toState g) t rest := by
  have hsp := h.recorded sp mem_cons_self
  have hmem : ∀ r, ∀ v ∈ ((s.rollbackSavepointChanges t sp).toState g).chain r,
      ∃ rv ∈ s.rows r, v = (restoreListed sp.deleted r rv).toVersion := by
    intro r v hv
    rw [rollbackSavepointChanges_eq htx] at hv
    simp only [toState, toChains, undoVersions_eq sp s.rows hnodup, map_map, mem_map,
      mem_filter] at hv
    obtain ⟨rv, ⟨hrv, -⟩, rfl⟩ := hv
    exact ⟨rv, hrv, rfl⟩
  have hnext : ((s.rollbackSavepointChanges t sp).toState g).nextVersion =
      (s.toState g).nextVersion := by
    rw [rollbackSavepointChanges_eq htx]
    rfl
  refine ⟨fun sp' hsp' => ?_, h.tail.nodup⟩
  have hrec := h.recorded sp' (mem_cons_of_mem _ hsp')
  refine ⟨hrec.tableKeys, hrec.indexKeys, fun p hp => ?_, fun p hp => ?_⟩
  · refine ⟨hnext ▸ (hrec.created p hp).1, fun v hv hid => ?_⟩
    obtain ⟨rv, hrv, rfl⟩ := hmem p.1 v hv
    have hid' : rv.id = p.2 := (id_restoreListed sp.deleted p.1 rv).symm.trans hid
    have hown := (hrec.created p hp).2 rv.toVersion (mem_chain hrv) hid'
    unfold restoreListed
    split
    next hdel =>
      rcases hown with hborn | ⟨hborn, hdied⟩
      · exact .inl hborn
      -- a tombstone is not recorded as ended
      rcases (hsp.deleted _ hdel).2 rv.toVersion (mem_chain hrv) rfl with
        ⟨-, hne⟩ | ⟨-, hnone⟩
      · exact absurd hborn hne
      · rw [Version.DiedBy, hnone] at hdied
        cases hdied
    · exact hown
  · refine ⟨hnext ▸ (hrec.deleted p hp).1, fun v hv hid => ?_⟩
    obtain ⟨rv, hrv, rfl⟩ := hmem p.1 v hv
    have hid' : rv.id = p.2 := (id_restoreListed sp.deleted p.1 rv).symm.trans hid
    have hnot : (p.1, rv.id) ∉ sp.deleted := by
      intro hdel
      rw [hid'] at hdel
      have hnd := h.nodup
      rw [flatMap_cons, nodup_append] at hnd
      exact hnd.2.2 p hdel p (mem_flatMap.2 ⟨sp', hsp', hp⟩) rfl
    rw [restoreListed, if_neg hnot]
    exact (hrec.deleted p hp).2 rv.toVersion (mem_chain hrv) hid'

def Transaction.SameButUndone (tx tx' : Transaction κ η) : Prop :=
  tx' = { tx with
    writeSet := tx'.writeSet
    header := tx'.header
    headerDirty := tx'.headerDirty }

theorem SavepointsOK.undoAll (drained : List (Savepoint κ η)) :
    ∀ {s : MvStore κ η} {tx : Transaction κ η},
      SavepointsOK (s.toState g) t (drained ++ rest) →
      Coherent clash IntKeyed (s.toState g) → s.txs t = some tx → tx.state = .active →
      ∃ tx', drained.foldl (fun s sp => s.rollbackSavepointChanges t sp) s =
          { s with
            rows := (drained.foldl (fun s sp => s.rollbackSavepointChanges t sp) s).rows
            txs := update s.txs t (some tx') } ∧
        tx.SameButUndone tx' ∧
        Path clash IntKeyed (s.toState g) (replicate drained.length (.undo t))
          ((drained.foldl (fun s sp => s.rollbackSavepointChanges t sp) s).toState g) ∧
        SavepointsOK
          ((drained.foldl (fun s sp => s.rollbackSavepointChanges t sp) s).toState g) t rest := by
  induction drained with
  | nil =>
    intro s tx h hc htx hactive
    refine ⟨tx, ?_, rfl, .nil _, h⟩
    rw [foldl_nil, ← htx, update_eq_self]
  | cons sp drained ih =>
    intro s tx h hc htx hactive
    have hstep := (h.recorded sp mem_cons_self).rollback hc htx hactive
    have heq : s.rollbackSavepointChanges t sp = _ := rollbackSavepointChanges_eq htx
    have htx1 : (s.rollbackSavepointChanges t sp).txs t = some (tx.undone s t sp) := by
      rw [heq]
      exact update_self ..
    obtain ⟨tx', hfold, hsame, hpath, hrest⟩ := ih (h.undo (rows_nodup hc) htx) (hc.step hstep)
      htx1 hactive
    refine ⟨tx', ?_, ?_, .cons hstep hpath, hrest⟩
    · rw [foldl_cons, hfold, heq]
      simp
    · unfold Transaction.SameButUndone at hsame ⊢
      rw [hsame]
      rfl

end

end PgMicro.Mvcc
