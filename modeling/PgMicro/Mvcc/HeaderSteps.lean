import PgMicro.Mvcc.Runs

/-!
# The header of a transaction

A transaction that is not `header_dirty` still has the header it began with, whatever
savepoints it opens and rolls back.
-/

namespace PgMicro.Mvcc

open List Function MvStore Transaction

variable {κ η : Type} {tx tx' : Transaction κ η} {txs txs' : Txs κ η} {snapshot : TxID → η}
  {sp : Savepoint κ η} {s : MvStore κ η} {t : TxID}

structure Transaction.HeaderOK (snapshot : η) (tx : Transaction κ η) : Prop where
  own : tx.headerDirty = false → tx.header = snapshot
  savepoints : ∀ sp ∈ tx.savepointStack, sp.headerDirty = false → sp.header = snapshot

def Transaction.HeaderStep (tx tx' : Transaction κ η) : Prop :=
  ∀ snapshot, tx.HeaderOK snapshot → tx'.HeaderOK snapshot

namespace Transaction.HeaderStep

variable {tx'' : Transaction κ η}

theorem trans (h : tx.HeaderStep tx') (h' : tx'.HeaderStep tx'') : tx.HeaderStep tx'' :=
  fun snapshot hok => h' snapshot (h snapshot hok)

theorem of_stack (hheader : tx'.header = tx.header) (hdirty : tx'.headerDirty = tx.headerDirty)
    (hstack : ∀ sp' ∈ tx'.savepointStack, ∃ sp ∈ tx.savepointStack,
      sp'.header = sp.header ∧ sp'.headerDirty = sp.headerDirty) : tx.HeaderStep tx' := by
  intro snapshot h
  refine ⟨fun hclean => ?_, fun sp' hsp' hclean => ?_⟩
  · rw [hheader]
    exact h.own (hdirty ▸ hclean)
  · obtain ⟨sp, hsp, hheader, hdirty⟩ := hstack sp' hsp'
    rw [hheader]
    exact h.savepoints sp hsp (hdirty ▸ hclean)

theorem of_eq (h : (tx'.header, tx'.headerDirty, tx'.savepointStack) =
    (tx.header, tx.headerDirty, tx.savepointStack)) : tx.HeaderStep tx' := by
  simp only [Prod.mk.injEq] at h
  exact .of_stack h.1 h.2.1 fun sp' hsp' => ⟨sp', h.2.2 ▸ hsp', rfl, rfl⟩

variable (tx)

theorem refl : tx.HeaderStep tx := .of_eq rfl

theorem modifyNewest {f : Savepoint κ η → Savepoint κ η}
    (hf : ∀ sp, (f sp).header = sp.header ∧ (f sp).headerDirty = sp.headerDirty) :
    tx.HeaderStep (tx.modifyNewest f) := by
  refine .of_stack rfl rfl fun sp' hsp' => ?_
  simp only [Transaction.modifyNewest] at hsp'
  split at hsp'
  · cases hsp'
  next sp rest hstack =>
    rw [hstack]
    rcases mem_cons.1 hsp' with rfl | hmem
    · exact ⟨sp, mem_cons_self, hf sp⟩
    · exact ⟨sp', mem_cons_of_mem _ hmem, rfl, rfl⟩

theorem insertToWriteSet [DecidableEq κ] (id : RowID κ) :
    tx.HeaderStep (tx.insertToWriteSet id) := by
  unfold Transaction.insertToWriteSet
  split
  · exact .refl tx
  · have hwrite : tx.HeaderStep { tx with writeSet := id :: tx.writeSet } := .of_eq rfl
    exact hwrite.trans (.modifyNewest _ fun _ => ⟨rfl, rfl⟩)

theorem recordCreated (id : RowID κ) (n : Nat) : tx.HeaderStep (tx.recordCreated id n) := by
  unfold Transaction.recordCreated
  split <;> exact .modifyNewest _ fun _ => ⟨rfl, rfl⟩

theorem recordDeleted (id : RowID κ) (n : Nat) : tx.HeaderStep (tx.recordDeleted id n) := by
  unfold Transaction.recordDeleted
  split <;> exact .modifyNewest _ fun _ => ⟨rfl, rfl⟩

theorem withHeader (header : η) : tx.HeaderStep { tx with header := header, headerDirty := true } :=
  fun _ h => ⟨nofun, h.savepoints⟩

theorem push (hheader : sp.header = tx.header) (hdirty : sp.headerDirty = tx.headerDirty) :
    tx.HeaderStep { tx with savepointStack := sp :: tx.savepointStack } := by
  intro snapshot h
  refine ⟨h.own, fun sp' hsp' hclean => ?_⟩
  rcases mem_cons.1 hsp' with rfl | hmem
  · rw [hheader]
    exact h.own (hdirty ▸ hclean)
  · exact h.savepoints sp' hmem hclean

theorem mergeInto {drained rest : List (Savepoint κ η)} (hrest : rest ⊆ tx.savepointStack) :
    tx.HeaderStep { tx with savepointStack := mergeInto drained rest } := by
  have hmerge : ∀ (drained : List (Savepoint κ η)) (parent : Savepoint κ η),
      (drained.foldl Savepoint.mergeFrom parent).header = parent.header ∧
        (drained.foldl Savepoint.mergeFrom parent).headerDirty = parent.headerDirty := by
    intro drained
    induction drained with
    | nil => exact fun _ => ⟨rfl, rfl⟩
    | cons sp drained ih => exact fun parent => ih (parent.mergeFrom sp)
  refine .of_stack rfl rfl fun sp' hsp' => ?_
  cases rest with
  | nil => cases hsp'
  | cons parent rest =>
    rcases mem_cons.1 hsp' with rfl | hmem
    · exact ⟨parent, hrest mem_cons_self, hmerge drained parent⟩
    · exact ⟨sp', hrest (mem_cons_of_mem _ hmem), rfl, rfl⟩

theorem releaseSavepoint : tx.HeaderStep tx.releaseSavepoint := by
  unfold Transaction.releaseSavepoint
  split
  · exact .refl tx
  next sp rest hstack =>
    split
    · exact .mergeInto tx (by rw [hstack]; exact subset_cons_self ..)
    · exact .refl tx

theorem releaseNamedSavepoint (name : String) :
    tx.HeaderStep (tx.releaseNamedSavepoint name).1 := by
  unfold Transaction.releaseNamedSavepoint
  split
  · exact .refl tx
  next above target below hsplit =>
    split
    · exact .refl tx
    · refine .mergeInto tx ?_
      rw [(splitAtNamed_eq hsplit).1]
      exact fun sp hsp => mem_append_right _ (mem_cons_of_mem _ hsp)

end Transaction.HeaderStep

def HeadersKept (txs txs' : Txs κ η) : Prop :=
  ∀ t tx', txs' t = some tx' → ∃ tx, txs t = some tx ∧ tx'.header = tx.header ∧
    tx'.headerDirty = tx.headerDirty ∧ tx'.savepointStack = tx.savepointStack

namespace HeadersKept

variable {txs'' : Txs κ η}

theorem refl (txs : Txs κ η) : HeadersKept txs txs := fun _ tx' htx' => ⟨tx', htx', rfl, rfl, rfl⟩

theorem trans (h : HeadersKept txs txs') (h' : HeadersKept txs' txs'') : HeadersKept txs txs'' := by
  intro t tx'' htx''
  obtain ⟨tx', htx', hheader', hdirty', hstack'⟩ := h' t tx'' htx''
  obtain ⟨tx, htx, hheader, hdirty, hstack⟩ := h t tx' htx'
  exact ⟨tx, htx, hheader'.trans hheader, hdirty'.trans hdirty, hstack'.trans hstack⟩

theorem of_frame (h : TxsFrame txs txs') : HeadersKept txs txs' := by
  intro t tx' htx'
  obtain ⟨tx, htx, hcore⟩ := h.back htx'
  exact ⟨tx, htx, (congrArg header hcore : _),
    (congrArg headerDirty hcore : _), (congrArg savepointStack hcore : _)⟩

theorem modifyTx (s : MvStore κ η) (t : TxID) {f : Transaction κ η → Transaction κ η}
    (hf : ∀ tx, (f tx).header = tx.header ∧ (f tx).headerDirty = tx.headerDirty ∧
      (f tx).savepointStack = tx.savepointStack) : HeadersKept s.txs (s.modifyTx t f).txs := by
  intro u tx' htx'
  rcases eq_or_ne u t with rfl | hne
  · simp only [MvStore.modifyTx, update_self] at htx'
    obtain ⟨tx, htx, rfl⟩ := Option.map_eq_some_iff.1 htx'
    exact ⟨tx, htx, hf tx⟩
  · simp only [MvStore.modifyTx, update_of_ne hne] at htx'
    exact ⟨tx', htx', rfl, rfl, rfl⟩

end HeadersKept

def HeadersOK (snapshot : TxID → η) (txs : Txs κ η) : Prop :=
  ∀ t tx, txs t = some tx → tx.HeaderOK (snapshot t)

namespace HeadersOK

section

variable (h : HeadersOK snapshot txs)

include h

theorem update (htx' : tx'.HeaderOK (snapshot t)) :
    HeadersOK snapshot (update txs t (some tx')) := by
  intro u ux hux
  rcases eq_or_ne u t with rfl | hne
  · rw [update_self, Option.some.injEq] at hux
    exact hux ▸ htx'
  · rw [update_of_ne hne] at hux
    exact h u ux hux

theorem step (htx : txs t = some tx) (hstep : tx.HeaderStep tx') :
    HeadersOK snapshot (Function.update txs t (some tx')) :=
  h.update (hstep _ (h t tx htx))

theorem remove : HeadersOK snapshot (Function.update txs t none) := by
  intro u ux hux
  rcases eq_or_ne u t with rfl | hne
  · rw [Function.update_self] at hux
    cases hux
  · rw [Function.update_of_ne hne] at hux
    exact h u ux hux

end

variable {f : Transaction κ η → Transaction κ η}

theorem modifyTx_ok (h : HeadersOK snapshot s.txs)
    (hf : ∀ tx, s.txs t = some tx → (f tx).HeaderOK (snapshot t)) :
    HeadersOK snapshot (s.modifyTx t f).txs := by
  cases htx : s.txs t with
  | none =>
    simp only [modifyTx, htx, Option.map_none]
    exact h.remove
  | some tx =>
    simp only [modifyTx, htx, Option.map_some]
    exact h.update (hf tx htx)

theorem modifyTx (h : HeadersOK snapshot s.txs)
    (hf : ∀ tx, s.txs t = some tx → tx.HeaderStep (f tx)) :
    HeadersOK snapshot (s.modifyTx t f).txs :=
  h.modifyTx_ok fun tx htx => hf tx htx _ (h t tx htx)

section

theorem registerCommitDependency (h : HeadersOK snapshot txs) (t d : TxID) :
    HeadersOK snapshot (registerCommitDependency txs t d) := by
  unfold Mvcc.registerCommitDependency
  split
  next dep tx hdep htx =>
    split
    · split
      · exact h
      · refine HeadersOK.update (HeadersOK.step h hdep ?_) ?_
        · exact .of_eq rfl
        · have hsame : tx.HeaderStep { tx with
              commitDepCounter := tx.commitDepCounter + 1
              dependedOn := d :: tx.dependedOn } := .of_eq rfl
          exact hsame _ (h t tx htx)
    · exact h.step htx (.of_eq rfl)
    · exact h.step htx (.of_eq rfl)
    · exact h
    · exact h
  · exact h

variable {fin : TxID → Option TransactionState} {rv : RowVersion κ}

section

variable (h : HeadersOK snapshot txs)

include h

theorem isBeginVisible : HeadersOK snapshot (isBeginVisible txs fin tx rv).1 := by
  unfold Mvcc.isBeginVisible
  split
  · exact h
  · split
    · split
      · exact h
      · split
        · exact h.registerCommitDependency _ _
        · exact h
      · exact h
      · exact h
      · exact h
    · split <;> exact h
  · exact h

theorem isEndVisible : HeadersOK snapshot (isEndVisible txs fin tx rv).1 := by
  unfold Mvcc.isEndVisible
  split
  · exact h
  · split
    · split
      · exact h
      · split
        · exact h
        · exact h.registerCommitDependency _ _
      · exact h
      · exact h
      · exact h
    · split <;> exact h
  · exact h

theorem isVisibleTo : HeadersOK snapshot (rv.isVisibleTo txs fin tx).1 := by
  have hbegin : HeadersOK snapshot (Mvcc.isBeginVisible txs fin tx rv).1 := h.isBeginVisible
  unfold RowVersion.isVisibleTo
  split
  next txs' heq =>
    rw [heq] at hbegin
    exact hbegin.isEndVisible
  next txs' heq =>
    rw [heq] at hbegin
    exact hbegin

theorem findLastVisible (older newer : List (RowVersion κ)) :
    HeadersOK snapshot (findLastVisible txs fin tx older newer).1 := by
  induction older generalizing txs newer with
  | nil => exact h
  | cons rv older ih =>
    have hvisible : HeadersOK snapshot (rv.isVisibleTo txs fin tx).1 := h.isVisibleTo
    unfold Mvcc.findLastVisible
    split
    next txs' heq =>
      rw [heq] at hvisible
      exact hvisible
    next txs' heq =>
      rw [heq] at hvisible
      exact ih hvisible _

theorem isBtreeInvalidatingVersion :
    HeadersOK snapshot (rv.isBtreeInvalidatingVersion txs fin tx).1 := by
  have hvisible : HeadersOK snapshot (rv.isVisibleTo txs fin tx).1 := h.isVisibleTo
  unfold RowVersion.isBtreeInvalidatingVersion
  split
  next txs' heq =>
    rw [heq] at hvisible
    exact hvisible
  next txs' heq =>
    rw [heq] at hvisible
    split
    · exact hvisible
    · split
      · exact hvisible
      · split
        · exact hvisible
        · split
          · exact hvisible.registerCommitDependency _ _
          · exact hvisible
        · exact hvisible
    · exact hvisible

theorem anyBtreeInvalidating (older : List (RowVersion κ)) :
    HeadersOK snapshot (anyBtreeInvalidating txs fin tx older).1 := by
  induction older generalizing txs with
  | nil => exact h
  | cons rv older ih =>
    have hquery : HeadersOK snapshot (rv.isBtreeInvalidatingVersion txs fin tx).1 :=
      h.isBtreeInvalidatingVersion
    unfold Mvcc.anyBtreeInvalidating
    split
    next txs' heq =>
      rw [heq] at hquery
      exact hquery
    next txs' heq =>
      rw [heq] at hquery
      exact ih hquery

end

end

section

variable [DecidableEq κ]

theorem rollbackSavepointChanges (h : HeadersOK snapshot s.txs)
    (hsp : sp.headerDirty = false → sp.header = snapshot t) :
    HeadersOK snapshot (rollbackSavepointChanges s t sp).txs := by
  have hundone : HeadersOK snapshot ({ s with
    rows := undoVersions sp s.rows } : MvStore κ η).txs := h
  have hremoved : HeadersOK snapshot (({ s with
      rows := undoVersions sp s.rows } : MvStore κ η).removeRolledBackRowsFromWriteSet t
        (touchedRowids sp)).txs :=
    hundone.modifyTx fun _ _ => .of_eq rfl
  exact hremoved.modifyTx_ok fun tx htx => ⟨hsp, (hremoved t tx htx).savepoints⟩

theorem undoAll (h : HeadersOK snapshot s.txs) {sps : List (Savepoint κ η)}
    (hsps : ∀ sp ∈ sps, sp.headerDirty = false → sp.header = snapshot t) :
    HeadersOK snapshot
      (sps.foldl (fun s sp => MvStore.rollbackSavepointChanges s t sp) s).txs := by
  induction sps generalizing s with
  | nil => exact h
  | cons sp sps ih =>
    exact ih (h.rollbackSavepointChanges (hsps sp mem_cons_self))
      fun sp' hsp' => hsps sp' (mem_cons_of_mem _ hsp')

end

theorem kept (h : HeadersOK snapshot txs) (hkept : HeadersKept txs txs') :
    HeadersOK snapshot txs' := by
  intro t tx' htx'
  obtain ⟨tx, htx, hheader, hdirty, hstack⟩ := hkept t tx' htx'
  have hstep : tx.HeaderStep tx' :=
    .of_eq (by rw [hheader, hdirty, hstack])
  exact hstep _ (h t tx htx)

end HeadersOK

section

theorem HeadersOK.begun (h : HeadersOK snapshot txs) {header : η} {tx : Transaction κ η}
    (hheader : tx.header = header) (hstack : tx.savepointStack = []) :
    HeadersOK (Function.update snapshot t header) (Function.update txs t (some tx)) := by
  intro u ux hux
  rcases eq_or_ne u t with rfl | hne
  · rw [update_self, Option.some.injEq] at hux
    subst hux
    rw [update_self]
    refine ⟨fun _ => hheader, fun sp hsp => ?_⟩
    rw [hstack] at hsp
    cases hsp
  · rw [update_of_ne hne] at hux
    rw [update_of_ne hne]
    exact h u ux hux

theorem HeadersOK.unbegun (h : HeadersOK snapshot txs) (hnone : txs t = none) (header : η) :
    HeadersOK (Function.update snapshot t header) txs := by
  intro u ux hux
  rcases eq_or_ne u t with rfl | hne
  · rw [hnone] at hux
    cases hux
  · rw [update_of_ne hne]
    exact h u ux hux

theorem HeadersOK.beginExclusiveTx (h : HeadersOK snapshot s.txs) (hfresh : s.txs s.txIds = none) :
    HeadersOK (Function.update snapshot s.txIds s.globalHeader) s.beginExclusiveTx.1.txs := by
  have hidle := h.unbegun hfresh s.globalHeader
  unfold MvStore.beginExclusiveTx
  split
  · exact hidle
  simp only
  split
  · exact hidle
  · split
    · exact hidle
    · exact h.begun rfl rfl

theorem HeadersOK.upgradeToExclusiveTx {s' : MvStore κ η} (h : HeadersOK snapshot s.txs)
    (hcurrent : ∀ tx, s.txs t = some tx → tx.header = s.globalHeader)
    (hrun : s.upgradeToExclusiveTx t = .ok s') : HeadersOK snapshot s'.txs := by
  have hrefresh : ∀ {s1 : MvStore κ η}, s1.txs = s.txs → HeadersOK snapshot
      (s1.modifyTx t fun tx => { tx with
        pagerCommitLockHeld := true, header := s.globalHeader }).txs := by
    intro s1 htxs
    refine modifyTx_ok (htxs ▸ h) fun tx htx => ?_
    rw [htxs] at htx
    have hok := h t tx htx
    exact ⟨fun hclean => (hcurrent tx htx).symm.trans (hok.own hclean), hok.savepoints⟩
  unfold MvStore.upgradeToExclusiveTx at hrun
  split at hrun
  · cases hrun
  split at hrun
  · cases hrun
  next acquired hacquire =>
    have hsame : acquired.txs = s.txs := by rw [acquireExclusiveTx_ok hacquire]
    split at hrun
    · cases hrun
      exact hrefresh hsame
    · split at hrun <;> cases hrun
      rename_i lock _
      have hsame' : ({ acquired with pagerCommitLock := lock } : MvStore κ η).txs = s.txs := hsame
      exact hrefresh hsame'

end

end PgMicro.Mvcc
