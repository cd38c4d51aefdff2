import PgMicro.Mvcc.HeaderWindow

/-!
# The global header

A commit stores the whole header of its transaction, changed or not: in
`EndCommitLogicalLog` and again in `CommitEnd`. No update is lost as long as the header
that a commit overwrites is the one its transaction started from.
-/

namespace PgMicro.Mvcc

open Option World Transition HeaderWorld

variable {κ η : Type} {t : TxID} {a : Action κ η} {base : η}

variable {w0 w w' : HeaderWorld κ η} {as : List (Action κ η)}

theorem HeaderWorld.consistent_of_init (hinit : w0.world.Init) (hcommitted : w0.committed = [])
    (hbase : replayHeader base w0.world.store.log = w0.world.store.globalHeader) :
    w0.Consistent w0.world.store.lastCommittedTxTs w0.world.store.globalHeader base := by
  have hlast : w0.lastPublished w0.world.store.globalHeader = w0.world.store.globalHeader := by
    rw [lastPublished, hcommitted]
    rfl
  have hidle : ∀ t, w0.isClosing t = false := by
    intro t
    rw [isClosing, hinit.commits t]
    rfl
  refine ⟨hinit.sound, fun t tx htx => ?_, fun t sm tx hsm => ?_, fun field => ?_, fun t u ht => ?_,
    fun _ => ⟨hlast.symm, hbase.trans hlast.symm⟩, fun t sm tx hsm => ?_⟩
  · rw [hinit.txs t] at htx
    cases htx
  · rw [hinit.commits t] at hsm
    cases hsm
  · rw [hlast, hcommitted, lastChange]
  · rw [hidle t] at ht
    cases ht
  · rw [hinit.commits t] at hsm
    cases hsm

variable [DecidableEq κ] [IndexKey κ]

/-- In a run in which every commit stores over the header it started from, or over its own,
and one commit at a time is in `CommitEnd`: after each publication the header has on every
field the value of the last commit that changed it, and is the one the log gives; and a
commit that never changed its header leaves the global one alone. -/
theorem header_updates_kept (hinit : w0.world.Init) (hcommitted : w0.committed = [])
    (hbase : replayHeader base w0.world.store.log = w0.world.store.globalHeader)
    (hmeets : Transition.Meets HeaderWorld.exec HeaderWorld.KeepsHeaders w0 as)
    (hrun : run HeaderWorld.exec w0 as = some w) (hkeeps : w.KeepsHeaders a)
    (hexec : w.exec a = some w') :
    (w.published a ≠ none →
      (∀ (β : Type) [DecidableEq β] (field : η → β), field w'.world.store.globalHeader =
        lastChange field w0.world.store.globalHeader w'.committed) ∧
      replayHeader base w'.world.store.log = w'.world.store.globalHeader) ∧
    ∀ t tx, a = .commitStep t → w.world.store.txs t = some tx → tx.headerDirty = false →
      w'.world.store.globalHeader = w.world.store.globalHeader := by
  let seed := w0.world.store.lastCommittedTxTs
  let initial := w0.world.store.globalHeader
  have hw : w.Consistent seed initial base :=
    run_preserves (Q := HeaderWorld.Consistent seed initial base)
      (fun hkeeps h hexec => h.exec hkeeps hexec) hmeets
      (consistent_of_init hinit hcommitted hbase) hrun
  have hw' := hw.exec hkeeps hexec
  constructor
  · intro hpublished
    obtain ⟨hheader, hlog⟩ := hw'.window.settled (hw.none_closing_of_published hexec hpublished)
    refine ⟨fun β _ field => ?_, hlog.trans hheader.symm⟩
    rw [hheader]
    exact hw'.window.fields field
  · rintro t tx rfl htx hclean
    exact hw.globalHeader_of_clean hkeeps hexec htx hclean

/-- The step that publishes the second of two commits, of which each changed a field. -/
theorem header_updates_kept_two :
    ∃ w w' : HeaderWorld Empty (Nat × Nat),
      run HeaderWorld.exec (.opened (0, 0))
        (.beginTx :: .withHeaderMut 1 (fun h => (7, h.2)) :: commitActions 1 0 ++
          .beginTx :: .withHeaderMut 2 (fun h => (h.1, 8)) :: .commitTx 2 false ::
            List.replicate 9 (.commitStep 2)) = some w ∧
      w.exec (.commitStep 2) = some w' ∧
      w'.committed = [⟨(7, 0), (7, 8)⟩, ⟨(0, 0), (7, 0)⟩] ∧
      w'.world.store.globalHeader.1 = 7 ∧
      replayHeader (0, 0) w'.world.store.log = w'.world.store.globalHeader := by
  obtain ⟨w, hrun, h⟩ := map_eq_some_iff.1 (show (run HeaderWorld.exec
    (.opened (0, 0)) (.beginTx :: .withHeaderMut 1 (fun h => (7, h.2)) :: commitActions 1 0 ++
      .beginTx :: .withHeaderMut 2 (fun h => (h.1, 8)) :: .commitTx 2 false ::
        List.replicate 9 (.commitStep 2))).map
      (fun w : HeaderWorld Empty (Nat × Nat) => decide (w.KeepsHeaders (.commitStep 2) ∧
        w.published (.commitStep 2) = some ⟨(7, 0), (7, 8)⟩ ∧
        (w.exec (.commitStep 2)).map committed =
          some [⟨(7, 0), (7, 8)⟩, ⟨(0, 0), (7, 0)⟩])) = some true by decide +kernel)
  rw [decide_eq_true_eq] at h
  obtain ⟨hkeeps, hpublished, hnext⟩ := h
  obtain ⟨w', hexec, hcommitted⟩ := map_eq_some_iff.1 hnext
  have hkept := (header_updates_kept (init_opened _ _ _) rfl
    (show replayHeader (0,
      0) _ = _ from rfl) (by decide +kernel) hrun hkeeps hexec).1 (by simp [hpublished])
  refine ⟨w, w', hrun, hexec, hcommitted, ?_, hkept.2⟩
  rw [hkept.1 Nat Prod.fst, hcommitted]
  rfl

/-- A writer that began before a header update and commits after it, without touching the
header: the update is lost, and the log gives another header. -/
theorem header_update_lost :
    ∃ w w' : HeaderWorld Empty (Nat × Nat),
      run HeaderWorld.exec (.opened (0, 0))
        (.beginTx :: .beginTx :: .withHeaderMut 2 (fun h => (7, h.2)) ::
          commitActions 2 0 ++ .insert 1 (tableRow 1 [1]) :: .commitTx 1 false ::
            List.replicate 10 (.commitStep 1)) = some w ∧
      w.exec (.commitStep 1) = some w' ∧ w.published (.commitStep 1) = some ⟨(0, 0), (0, 0)⟩ ∧
      w.world.store.globalHeader = (0, 0) ∧ w'.world.store.globalHeader = (0, 0) ∧
      lastChange Prod.fst (0, 0) w'.committed = 7 ∧
      replayHeader (0, 0) w'.world.store.log = (7, 0) := by
  obtain ⟨w, hrun, h⟩ := map_eq_some_iff.1 (show (run HeaderWorld.exec
    (.opened (0, 0)) (.beginTx :: .beginTx :: .withHeaderMut 2 (fun h => (7, h.2)) ::
      commitActions 2 0 ++ .insert 1 (tableRow 1 [1]) :: .commitTx 1 false ::
        List.replicate 10 (.commitStep 1))).map
      (fun w : HeaderWorld Empty (Nat × Nat) => decide (
        w.published (.commitStep 1) = some ⟨(0, 0), (0, 0)⟩ ∧
        w.world.store.globalHeader = (0, 0) ∧
        (w.exec (.commitStep 1)).map (fun w' => (w'.world.store.globalHeader,
          lastChange Prod.fst (0, 0) w'.committed, replayHeader (0, 0) w'.world.store.log)) =
          some ((0, 0), 7, (7, 0)))) = some true by decide +kernel)
  rw [decide_eq_true_eq] at h
  obtain ⟨hpublished, hbefore, hnext⟩ := h
  obtain ⟨w', hexec, h⟩ := map_eq_some_iff.1 hnext
  simp only [Prod.mk.injEq] at h
  exact ⟨w, w', hrun, hexec, hpublished, hbefore, by simp [h], h.2.1, by simp [h]⟩

end PgMicro.Mvcc
