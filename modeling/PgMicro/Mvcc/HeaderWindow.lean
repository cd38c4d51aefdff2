import PgMicro.Mvcc.HeaderEffects

/-!
# One commit at a time in `CommitEnd`

The global header is the last one published, and the log gives it, except for the one commit
that is in `CommitEnd`.
-/

namespace PgMicro.Mvcc.HeaderWorld

open Function MvStore Option CommitStateMachine Transaction World

variable {κ η : Type} {sm sm' : CommitStateMachine κ η} {t : TxID} {a : Action κ η} {seed e : Nat}
  {base : η} {tx' tx : Transaction κ η}

def lastPublished (initial : η) (w : HeaderWorld κ η) : η :=
  (w.committed.head?.map HeaderCommit.after).getD initial

def isClosing (w : HeaderWorld κ η) (t : TxID) : Bool :=
  (w.world.commits t).any inCommitEnd

/-- Header and log while `t` is in `CommitEnd`: its header may be stored already, and its
frame logged. -/
structure ClosingOK (initial base : η) (w : HeaderWorld κ η) (t : TxID)
    (sm : CommitStateMachine κ η) (tx : Transaction κ η) : Prop where
  header : w.world.store.globalHeader = w.lastPublished initial ∨
    w.world.store.globalHeader = tx.header ∧
      (w.lastPublished initial = w.snapshot t ∨ w.lastPublished initial = tx.header)
  log : replayHeader base w.world.store.log =
    if sm.hasLogged then tx.loggedHeader.getD (w.lastPublished initial)
    else w.lastPublished initial

/-- The header is that of the last commit, and so is the one the log gives, except for what
the one commit in `CommitEnd` has done. -/
structure Window (initial base : η) (w : HeaderWorld κ η) : Prop where
  fields : ∀ {β : Type} [DecidableEq β] (field : η → β),
    field (w.lastPublished initial) = lastChange field initial w.committed
  single : ∀ t u, w.isClosing t = true → w.isClosing u = true → t = u
  settled : (∀ t, w.isClosing t = false) →
    w.world.store.globalHeader = w.lastPublished initial ∧
      replayHeader base w.world.store.log = w.lastPublished initial
  closing : ∀ t sm tx, w.world.commits t = some sm → sm.inCommitEnd = true →
    w.world.store.txs t = some tx → w.ClosingOK initial base t sm tx

structure Consistent (seed : Nat) (initial base : η) (w : HeaderWorld κ η) : Prop where
  sound : w.world.Sound rowClash seed
  headers : HeadersOK w.snapshot w.world.store.txs
  frames : ∀ t sm tx, w.world.commits t = some sm → w.world.store.txs t = some tx → sm.FrameOK tx
  window : w.Window initial base

variable {w w' : HeaderWorld κ η} {initial : η}

theorem isClosing_iff :
    w.isClosing t = true ↔ ∃ sm, w.world.commits t = some sm ∧ sm.inCommitEnd = true := by
  rw [isClosing, any_eq_true]

/-- A step that leaves header, log and commits alone, and whoever is in `CommitEnd`. -/
theorem Window.frame (h : w.Window initial base) (hcommitted : w'.committed = w.committed)
    (huntouched : w.world.store.Untouched w'.world.store)
    (hsame : ∀ u, w'.isClosing u = w.isClosing u)
    (hback : ∀ u sm' tx', w'.world.commits u = some sm' → sm'.inCommitEnd = true →
      w'.world.store.txs u = some tx' → w'.snapshot u = w.snapshot u ∧
      ∃ sm tx, w.world.commits u = some sm ∧ sm.inCommitEnd = true ∧
        sm'.hasLogged = sm.hasLogged ∧ w.world.store.txs u = some tx ∧
        tx'.header = tx.header ∧ tx'.headerDirty = tx.headerDirty) :
    w'.Window initial base where
  fields field := by
    rw [lastPublished, hcommitted]
    exact h.fields field
  single u v hu hv := h.single u v ((hsame u).symm.trans hu) ((hsame v).symm.trans hv)
  settled hnone := by
    rw [lastPublished, hcommitted, huntouched.globalHeader, huntouched.log]
    exact h.settled fun u => (hsame u).symm.trans (hnone u)
  closing u sm' tx' hsm' hin' htx' := by
    obtain ⟨hsnapshot, sm, tx, hsm, hin, hlogged, htx, hheader, hdirty⟩ :=
      hback u sm' tx' hsm' hin' htx'
    have hclosing := h.closing u sm tx hsm hin htx
    constructor
    · rw [lastPublished, hcommitted, huntouched.globalHeader, hsnapshot, hheader]
      exact hclosing.header
    · rw [lastPublished, hcommitted, huntouched.log, hlogged,
        loggedHeader_congr hheader hdirty]
      exact hclosing.log

theorem lastPublished_congr (initial : η) (hcommitted : w'.committed = w.committed) :
    w'.lastPublished initial = w.lastPublished initial := by
  rw [lastPublished, hcommitted, lastPublished]

section

variable (hothers : ∀ u, u ≠ t → w'.world.commits u = w.world.commits u)

include hothers

/-- One commit is in `CommitEnd`, and header and log are as it has left them. -/
theorem Window.of_closing (h : w.Window initial base) (hcommitted : w'.committed = w.committed)
    (hsm' : w'.world.commits t = some sm') (hin' : sm'.inCommitEnd = true)
    (hself : ∀ u ≠ t, w.isClosing u = false)
    (hok : ∀ tx', w'.world.store.txs t = some tx' → w'.ClosingOK initial base t sm' tx') :
    w'.Window initial base := by
  have heq : ∀ u, w'.isClosing u = true → u = t := by
    intro u hu
    by_contra hne
    rw [isClosing, hothers u hne] at hu
    exact Bool.false_ne_true ((hself u hne).symm.trans hu)
  refine ⟨fun field => ?_, fun u v hu hv => (heq u hu).trans (heq v hv).symm, fun hidle => ?_,
    fun u sm1 tx' hsm1 hin1 htx' => ?_⟩
  · rw [lastPublished_congr initial hcommitted, hcommitted]
    exact h.fields field
  · have hclosing : w'.isClosing t = true := isClosing_iff.2 ⟨sm', hsm', hin'⟩
    exact absurd hclosing (by simp [hidle t])
  · obtain rfl := heq u (isClosing_iff.2 ⟨sm1, hsm1, hin1⟩)
    rw [hsm', some.injEq] at hsm1
    subst hsm1
    exact hok tx' htx'

theorem Window.enter (h : w.Window initial base) (hnone : ∀ u, w.isClosing u = false)
    (hcommitted : w'.committed = w.committed) (hlog : w'.world.store.log = w.world.store.log)
    (hsm' : w'.world.commits t = some sm') (hin : sm'.inCommitEnd = true)
    (hlogged : sm'.hasLogged = false) (hglobal : ∀ tx', w'.world.store.txs t = some tx' →
      w'.world.store.globalHeader = w.world.store.globalHeader ∨
      w'.world.store.globalHeader = tx'.header ∧
        (w.world.store.globalHeader = w'.snapshot t ∨ w.world.store.globalHeader = tx'.header)) :
    w'.Window initial base := by
  have hlast := lastPublished_congr initial hcommitted
  obtain ⟨hsettled, hreplay⟩ := h.settled hnone
  refine h.of_closing hothers hcommitted hsm' hin (fun u _ => hnone u) fun tx' htx' => ⟨?_, ?_⟩
  · rw [hlast, ← hsettled]
    exact hglobal tx' htx'
  · rw [hlast, hlog, hreplay, hlogged]
    rfl

variable (h : w.Window initial base) (hsm : w.world.commits t = some sm)
  (hin : sm.inCommitEnd = true)

omit hothers in
include h hsm hin in
theorem Window.others_out {u : TxID} (hne : u ≠ t) : w.isClosing u = false := by
  rw [Bool.eq_false_iff]
  intro hu
  exact hne (h.single u t hu (isClosing_iff.2 ⟨sm, hsm, hin⟩))

variable (htx : w.world.store.txs t = some tx)

include h hsm hin htx

theorem Window.log (hout : sm.hasLogged = false)
    (hframe : sm.pendingLogAppend.bind LogRecord.header = tx.loggedHeader)
    (hcommitted : w'.committed = w.committed)
    (hglobal : w'.world.store.globalHeader = w.world.store.globalHeader)
    (hlog : w'.world.store.log = w.world.store.log ++ sm.pendingLogAppend.toList)
    (hsnapshot : w'.snapshot t = w.snapshot t) (hsm' : w'.world.commits t = some sm')
    (hin' : sm'.inCommitEnd = true) (hlogged : sm'.hasLogged = true)
    (htx' : ∀ tx', w'.world.store.txs t = some tx' →
      tx'.header = tx.header ∧ tx'.headerDirty = tx.headerDirty) :
    w'.Window initial base := by
  have hlast := lastPublished_congr initial hcommitted
  have hclosed := h.closing t sm tx hsm hin htx
  refine h.of_closing hothers hcommitted hsm' hin' (fun u hne => h.others_out hsm hin hne)
    fun tx' htx1 => ?_
  obtain ⟨hheader, hdirty⟩ := htx' tx' htx1
  constructor
  · rw [hlast, hglobal, hsnapshot, hheader]
    exact hclosed.header
  · have hreplay := hclosed.log
    rw [hout, if_neg Bool.false_ne_true] at hreplay
    rw [hlog, replayHeader_append, hframe, hreplay, hlogged, if_pos rfl, hlast,
      loggedHeader_congr hheader hdirty]

theorem Window.publish (hlogged : sm.hasLogged = true)
    (hfound : w.world.store.globalHeader = w.snapshot t ∨ w.world.store.globalHeader = tx.header)
    (hclean : tx.headerDirty = false → tx.header = w.snapshot t)
    (hcommitted : w'.committed = ⟨w.snapshot t, tx.header⟩ :: w.committed)
    (hglobal : w'.world.store.globalHeader = tx.header)
    (hlog : w'.world.store.log = w.world.store.log) (hout : w'.isClosing t = false) :
    w'.Window initial base := by
  have hlast : w'.lastPublished initial = tx.header := by
    rw [lastPublished, hcommitted]
    rfl
  have hnone : ∀ u, w'.isClosing u = false := by
    intro u
    rcases eq_or_ne u t with rfl | hne
    · exact hout
    · rw [isClosing, hothers u hne]
      exact h.others_out hsm hin hne
  have hclosed := h.closing t sm tx hsm hin htx
  have hbefore : w.lastPublished initial = w.snapshot t ∨ w.lastPublished initial = tx.header := by
    rcases hclosed.header with heq | ⟨-, heq⟩
    · exact heq ▸ hfound
    · exact heq
  refine ⟨fun field => ?_, fun u v hu => ?_, fun _ => ⟨hglobal.trans hlast.symm, ?_⟩,
    fun u sm1 tx' hsm1 hin1 => ?_⟩
  · rw [hlast, hcommitted, lastChange]
    split
    next hsame =>
      rw [← h.fields field]
      rcases hbefore with heq | heq
      · rw [heq, hsame]
      · rw [heq]
    · rfl
  · exact absurd hu (by simp [hnone u])
  · rw [hlog, hclosed.log, hlogged, if_pos rfl, hlast, loggedHeader]
    split
    · rfl
    next hdirty =>
      rcases hbefore with heq | heq
      · exact heq.trans (hclean (Bool.eq_false_iff.2 hdirty)).symm
      · exact heq
  · exact absurd (isClosing_iff.2 ⟨sm1, hsm1, hin1⟩) (by simp [hnone u])

end

theorem Consistent.none_closing (h : w.Consistent seed initial base) {sm : CommitStateMachine κ η}
    (hsm : w.world.commits t = some sm) (hout : sm.inCommitEnd = false)
    (hothers : ∀ u < w.world.store.txIds, u ≠ t → ∀ sm' ∈ w.world.commits u,
      sm'.inCommitEnd = false) (u : TxID) : w.isClosing u = false := by
  rw [Bool.eq_false_iff, Ne, isClosing_iff]
  rintro ⟨sm', hsm', hin⟩
  rcases eq_or_ne u t with rfl | hne
  · rw [hsm, some.injEq] at hsm'
    rw [← hsm', hout] at hin
    cases hin
  · obtain ⟨x, hx, -⟩ := (h.sound.control.each u).commit sm' hsm'
    have hlt := (h.sound.coherent.timely.txn_lt u x hx).1
    exact absurd (hothers u hlt hne sm' hsm') (by simp [hin])

variable [DecidableEq κ] [IndexKey κ]

section

variable (h : w.Consistent seed initial base)

include h

theorem Consistent.aside (hkeeps : w.KeepsHeaders a) (ha : ∀ t, a ≠ .commitStep t)
    (hexec : w.exec a = some w') : w'.Consistent seed initial base := by
  obtain ⟨ww, hrun, rfl⟩ := map_eq_some_iff.1 hexec
  have hcheckpoint : ∀ old f, a ≠ .checkpoint old f := by
    rintro old f rfl
    exact hkeeps
  have hcommitted : (w.published a).toList ++ w.committed = w.committed := by
    cases a <;> first | rfl | exact absurd rfl (ha _)
  have hclosing : ∀ u sm, ww.commits u = some sm → sm.inCommitEnd = true →
      w.world.commits u = some sm ∧ a ≠ .rollbackTx u := by
    intro u sm hsm hin
    rcases aside_back hrun ha hsm with hback | ⟨schema, rfl⟩
    · exact hback
    · cases hin
  refine ⟨(h.sound.exec (covers_rowClash _) hrun).1, ?_, ?_, ?_⟩
  · exact h.headers.exec h.sound.txs_fresh
      (fun t tx ht htx => by subst ht; exact hkeeps tx htx) hrun
  · intro u sm tx' hsm htx'
    rcases aside_back hrun ha hsm with ⟨hsm, hroll⟩ | ⟨schema, rfl⟩
    · obtain ⟨tx, htx, hheader, hdirty⟩ := h.sound.aside_tx hsm ha hcheckpoint hroll hrun htx'
      exact (h.frames u sm tx hsm htx).congr (loggedHeader_congr hheader hdirty)
    · rfl
  · refine h.window.frame hcommitted (exec_untouched hrun ha hcheckpoint) (fun u => ?_) ?_
    · rw [Bool.eq_iff_iff, isClosing_iff, isClosing_iff]
      constructor
      · rintro ⟨sm, hsm, hin⟩
        exact ⟨sm, (hclosing u sm hsm hin).1, hin⟩
      · rintro ⟨sm, hsm, hin⟩
        rcases (exec_aside hrun ha).goes_on hsm with hsm' | ⟨rfl, -⟩
        · exact ⟨sm, hsm', hin⟩
        · exact absurd (hkeeps sm hsm) (by simp [hin])
    · intro u sm tx' hsm hin htx'
      obtain ⟨hsm, hroll⟩ := hclosing u sm hsm hin
      obtain ⟨tx, htx, hheader, hdirty⟩ := h.sound.aside_tx hsm ha hcheckpoint hroll hrun htx'
      exact ⟨h.sound.snapshots_eq hsm, sm, tx, hsm, hin, rfl, htx, hheader, hdirty⟩

theorem Consistent.commitStep (hkeeps : w.KeepsHeaders (.commitStep t))
    (hexec : w.exec (.commitStep t) = some w') : w'.Consistent seed initial base := by
  obtain ⟨ww, hrun, rfl⟩ := map_eq_some_iff.1 hexec
  have hsound := (h.sound.exec (covers_rowClash _) hrun).1
  have hheaders := h.headers.exec (a := .commitStep t) h.sound.txs_fresh nofun hrun
  obtain ⟨sm, hsm, hrun⟩ := bind_eq_some_iff.1 hrun
  obtain ⟨⟨s, sm', result⟩, hstep, rfl⟩ := map_eq_some_iff.1 hrun
  obtain ⟨x, hx, -⟩ := (h.sound.control.each t).commit sm hsm
  obtain ⟨tx, htx, -⟩ := txs_of_txn hx
  have hkept := (step_effect hstep).2
  have heffect := step_headerEffect htx (h.frames t sm tx hsm htx) hstep
  have hother : ∀ u, u ≠ t → update w.world.commits t (sm'.next result) u =
      w.world.commits u := fun u hu => update_of_ne hu _ _
  have hown : update w.world.commits t (sm'.next result) t = sm'.next result :=
    update_self ..
  have hquiet : sm.toPublish = none →
      (w.published (.commitStep t)).toList ++ w.committed = w.committed := by
    intro hpublish
    simp [published, hsm, hpublish]
  obtain ⟨hstores, henters⟩ := hkeeps sm hsm
  obtain ⟨state, schema, writeSet, pending⟩ := sm
  refine ⟨hsound, hheaders, ?_, ?_⟩
  · intro u sm1 tx' hsm1 htx'
    obtain ⟨tx0, htx0, hheader, hdirty, -⟩ := hkept u tx' htx'
    refine CommitStateMachine.FrameOK.congr ?_ (loggedHeader_congr hheader hdirty)
    rcases eq_or_ne u t with rfl | hne
    · rw [htx, some.injEq] at htx0
      subst htx0
      exact heffect.frame (h.frames u _ tx hsm htx) sm1 (hown.symm.trans hsm1)
    · exact h.frames u sm1 tx0 ((hother u hne).symm.trans hsm1) htx0
  · cases heffect with
    | quiet huntouched hpublish hclosing hlogged hframe =>
      refine h.window.frame (hquiet hpublish) huntouched
        (fun u => ?_) fun u sm1 tx' hsm1 hin1 htx' => ?_
      · rcases eq_or_ne u t with rfl | hne
        · exact (congrArg (Option.any _) hown).trans (hclosing.trans (by rw [isClosing, hsm]; rfl))
        · exact congrArg (Option.any _) (hother u hne)
      · refine ⟨rfl, ?_⟩
        obtain ⟨tx0, htx0, hheader, hdirty, -⟩ := hkept u tx' htx'
        rcases eq_or_ne u t with rfl | hne
        · have hafter : sm'.next result = some sm1 := hown.symm.trans hsm1
          rw [hafter] at hclosing hlogged
          exact ⟨_, tx0, hsm, hclosing.symm.trans hin1, hlogged, htx0, hheader, hdirty⟩
        · exact ⟨sm1, tx0, (hother u hne).symm.trans hsm1, hin1, rfl, htx0, hheader, hdirty⟩
    | @entered e huntouched hstate hafter hlogged =>
      cases hstate
      have henters := henters (entersCommitEnd_of_next hstep hafter rfl rfl)
      exact h.window.enter hother (h.none_closing hsm rfl henters) (hquiet rfl) huntouched.log
        (hown.trans hafter) rfl rfl fun _ _ => .inl huntouched.globalHeader
    | @header e hs' hstate hafter =>
      subst hs'
      cases hstate
      have henters := henters (entersCommitEnd_of_next hstep hafter rfl rfl)
      refine h.window.enter hother (h.none_closing hsm rfl henters) (hquiet rfl) rfl
        (hown.trans hafter) rfl rfl fun tx' htx' => ?_
      obtain rfl : tx = tx' := some.inj (htx.symm.trans htx')
      exact .inr ⟨rfl, hstores rfl tx htx⟩
    | @logged e hs' hstate hafter =>
      subst hs'
      cases hstate
      refine h.window.log hother hsm rfl htx rfl (h.frames t _ tx hsm htx) (hquiet rfl) rfl rfl rfl
        (hown.trans hafter) rfl rfl fun tx' htx' => ?_
      obtain ⟨tx0, htx0, hheader, hdirty, -⟩ := hkept t tx' htx'
      obtain rfl : tx = tx0 := some.inj (htx.symm.trans htx0)
      exact ⟨hheader, hdirty⟩
    | @published e hheader hlog hstate hafter =>
      cases hstate
      refine h.window.publish hother hsm rfl htx rfl (hstores rfl tx htx)
        (h.headers t tx htx).own ?_
        hheader hlog ?_
      · simp [HeaderWorld.published, hsm, toPublish, htx]
      · exact congrArg (Option.any _) (hown.trans hafter)

theorem Consistent.exec (hkeeps : w.KeepsHeaders a)
    (hexec : w.exec a = some w') : w'.Consistent seed initial base := by
  by_cases ha : ∀ t, a ≠ .commitStep t
  · exact h.aside hkeeps ha hexec
  · push Not at ha
    obtain ⟨t, rfl⟩ := ha
    exact h.commitStep hkeeps hexec

theorem Consistent.none_closing_of_published (hexec : w.exec a = some w')
    (hpublished : w.published a ≠ none) (u : TxID) : w'.isClosing u = false := by
  obtain ⟨c, hc⟩ := ne_none_iff_exists'.1 hpublished
  cases a with
  | commitStep t =>
    obtain ⟨e, he, hc⟩ := bind_eq_some_iff.1 hc
    obtain ⟨sm, hsm, he⟩ := bind_eq_some_iff.1 he
    obtain ⟨tx, htx, -⟩ := map_eq_some_iff.1 hc
    obtain ⟨ww, hrun, rfl⟩ := map_eq_some_iff.1 hexec
    obtain ⟨sm0, hsm0, hrun⟩ := bind_eq_some_iff.1 hrun
    obtain rfl : sm = sm0 := some.inj (hsm.symm.trans hsm0)
    have hstate : sm.state = .publishCommit e := by
      unfold toPublish at he
      split at he <;> cases he
      assumption
    obtain ⟨⟨s, sm', result⟩, hstep, rfl⟩ := map_eq_some_iff.1 hrun
    rcases eq_or_ne u t with rfl | hne
    · simp only [step, hstate, stepPublishCommit, htx] at hstep
      cases hstep
      simp only [isClosing, update_self]
      rfl
    · exact (congrArg (Option.any inCommitEnd) (update_of_ne hne _ _)).trans
        (h.window.others_out hsm (by rw [inCommitEnd, hstate]) hne)
  | _ => cases hc

theorem Consistent.globalHeader_of_clean (hkeeps : w.KeepsHeaders (.commitStep t))
    (hexec : w.exec (.commitStep t) = some w') (htx : w.world.store.txs t = some tx)
    (hclean : tx.headerDirty = false) :
    w'.world.store.globalHeader = w.world.store.globalHeader := by
  obtain ⟨ww, hrun, rfl⟩ := map_eq_some_iff.1 hexec
  obtain ⟨sm, hsm, hrun⟩ := bind_eq_some_iff.1 hrun
  obtain ⟨⟨s, sm', result⟩, hstep, rfl⟩ := map_eq_some_iff.1 hrun
  have hfound : sm.storesHeader = true → tx.header = w.world.store.globalHeader := by
    intro hstores
    rcases (hkeeps sm hsm).1 hstores tx htx with heq | heq
    · exact ((h.headers t tx htx).own hclean).trans heq.symm
    · exact heq.symm
  cases step_headerEffect htx (h.frames t sm tx hsm htx) hstep with
  | quiet huntouched _ _ _ _ => exact huntouched.globalHeader
  | entered huntouched _ _ _ => exact huntouched.globalHeader
  | header hs' hstate _ =>
    subst hs'
    exact hfound (by rw [storesHeader, hstate])
  | logged hs' _ _ =>
    subst hs'
    rfl
  | published hheader _ hstate _ =>
    exact hheader.trans (hfound (by rw [storesHeader, hstate]))

end

end PgMicro.Mvcc.HeaderWorld
