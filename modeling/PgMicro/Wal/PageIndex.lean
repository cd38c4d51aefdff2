import PgMicro.Wal.Append

/-!
# The page index follows the WAL file

As long as a commit does not reuse the numbers of frames that were spilled, the lists of the
page index are the frames of the file, so that a look-up finds the latest frame of a page.
-/

namespace PgMicro.Wal

open KeyedLog Transition Option List

namespace WalState

variable {γ α : Type} [DecidableEq γ] {frameChecksum : γ → Page α → γ} {wal wal' : WalState γ α}
  {w : WalFile γ} {n m : Nat}

section

variable {file : Nat → Option PageNo} {shared : WalFileShared γ}

structure SameMetadata (shared shared' : WalFileShared γ) : Prop where
  snapshot : shared'.toWalSnapshot = shared.toWalSnapshot
  initialized : shared'.initialized = shared.initialized

omit [DecidableEq γ] in
theorem SameMetadata.trans {shared' shared'' : WalFileShared γ} (h : SameMetadata shared shared')
    (h' : SameMetadata shared' shared'') : SameMetadata shared shared'' :=
  ⟨h'.snapshot.trans h.snapshot, h'.initialized.trans h.initialized⟩

omit [DecidableEq γ] in
theorem foldl_completeAppendFrame (frameChecksum : γ → Page α → γ) (checksum : γ)
    (pages : List (Page α)) (hindex : shared.frameCache.Indexes file n) (hw : w.maxFrame = n) :
    let frames := numberFrames frameChecksum checksum (n + 1) pages
    let state := frames.foldl completeAppendFrame (shared, w)
    state.1.frameCache.Indexes (writeFrames file frames) (n + pages.length) ∧
      state.2.maxFrame = n + pages.length ∧ SameMetadata shared state.1 := by
  induction pages generalizing shared w n checksum file with
  | nil => exact ⟨hindex, hw, rfl, rfl⟩
  | cons page pages ih =>
    have hkept : shared.frameCache.Indexes (Function.update file (n + 1) (some page.id)) n :=
      hindex.congr fun f _ hf => (Function.update_of_ne (by omega) ..).symm
    have hentered : ({ shared with frameCache := shared.frameCache.cacheFrame page.id (n + 1) } :
        WalFileShared γ).frameCache.Indexes (Function.update file (n + 1) (some page.id)) (n + 1) :=
      hkept.cacheFrame (Function.update_self ..)
    obtain ⟨hindex', hmax, hsame⟩ := ih (frameChecksum checksum page)
      (w := { w with lastChecksum := frameChecksum checksum page, maxFrame := n + 1 }) hentered rfl
    rw [length_cons, ← Nat.add_assoc, Nat.add_right_comm]
    exact ⟨hindex', hmax, hsame.snapshot, hsame.initialized⟩

/-- Batches whose frames are numbered on from `n` up to `m`. -/
inductive Chained (frameChecksum : γ → Page α → γ) :
    Nat → List (PreparedFrames γ α) → Nat → Prop where
  | nil {n : Nat} : Chained frameChecksum n [] n
  | snoc {n m : Nat} {batches : List (PreparedFrames γ α)} {batch : PreparedFrames γ α}
      (h : Chained frameChecksum n batches m) (checksum : γ) (pages : List (Page α))
      (hframes : batch.metadata = numberFrames frameChecksum checksum (m + 1) pages)
      (hmax : batch.finalMaxFrame = m + pages.length) :
      Chained frameChecksum n (batches ++ [batch]) (m + pages.length)

variable {batches : List (PreparedFrames γ α)}

omit [DecidableEq γ] in
theorem Chained.of_nil (h : Chained frameChecksum n batches m) (hnil : batches = []) : m = n := by
  cases h with
  | nil => rfl
  | snoc => simp at hnil

omit [DecidableEq γ] in
theorem Chained.getLast {last : PreparedFrames γ α} (h : Chained frameChecksum n batches m)
    (hlast : batches.getLast? = some last) : last.finalMaxFrame = m := by
  cases h with
  | nil => cases hlast
  | snoc _ _ _ _ hmax =>
    rw [getLast?_concat] at hlast
    cases hlast
    exact hmax

omit [DecidableEq γ] in
theorem Chained.foldl_commitBatch (h : Chained frameChecksum n batches m)
    (hindex : shared.frameCache.Indexes file n) (hw : w.maxFrame = n) :
    let state := batches.foldl commitBatch (shared, w)
    state.1.frameCache.Indexes
        (batches.foldl (fun file batch => writeFrames file batch.metadata) file) m ∧
      state.2.maxFrame = m ∧ SameMetadata shared state.1 := by
  induction h with
  | nil => exact ⟨hindex, hw, ⟨rfl, rfl⟩⟩
  | @snoc m batches batch _ checksum pages hframes hmax ih =>
    obtain ⟨hindex', hmax', hsame⟩ := ih
    obtain ⟨hindex'', hmax'', hsame'⟩ :=
      foldl_completeAppendFrame frameChecksum checksum pages hindex' hmax'
    simp only [foldl_append, foldl_cons, foldl_nil, commitBatch, hframes, hmax]
    exact ⟨hindex'', trivial, hsame.trans hsame'⟩

end

def tip (wal : WalState γ α) : Nat := wal.writer.elim wal.shared.maxFrame WalFile.maxFrame

structure Inv (frameChecksum : γ → Page α → γ) (wal : WalState γ α) : Prop where
  indexed : wal.shared.frameCache.Indexes wal.file wal.tip
  published : wal.shared.maxFrame ≤ wal.tip
  fresh : wal.shared.initialized = false → wal.tip = 0 ∧ wal.prepared = []
  savepoints : ∀ target ∈ wal.savepoints,
    wal.shared.maxFrame ≤ target.frame ∧ target.frame ≤ wal.tip
  nested : wal.savepoints.Pairwise fun newer older => older.frame ≤ newer.frame
  prepared : ∃ m, Chained frameChecksum wal.tip wal.prepared m
  idle : wal.writer = none → wal.prepared = [] ∧ wal.savepoints = []

/-- The frames of a commit are prepared when the transaction has no frames in the index that
were spilled and not rolled back: its last frame is the published one. -/
def NothingSpilled (wal : WalState γ α) : Action γ α → Prop
  | .prepareFrames _ => wal.prepared = [] → ∀ w ∈ wal.writer, w.maxFrame = wal.shared.maxFrame
  | _ => True

instance [DecidableEq α] (wal : WalState γ α) : DecidablePred wal.NothingSpilled := fun action => by
  unfold NothingSpilled
  split <;> infer_instance

structure Published (wal : WalState γ α) : Prop where
  indexed : wal.shared.frameCache.Indexes wal.file wal.shared.maxFrame
  fresh : wal.shared.initialized = false → wal.shared.maxFrame = 0
  writer : wal.writer = none
  savepoints : wal.savepoints = []
  prepared : wal.prepared = []

section

omit [DecidableEq γ]

theorem inv_of_tip_eq (htip : wal.tip = wal.shared.maxFrame)
    (hindex : wal.shared.frameCache.Indexes wal.file wal.shared.maxFrame)
    (hfresh : wal.shared.initialized = false → wal.shared.maxFrame = 0)
    (hsavepoints : wal.savepoints = []) (hprepared : wal.prepared = []) :
    wal.Inv frameChecksum := by
  refine ⟨?_, Nat.le_of_eq htip.symm, ?_, ?_, ?_, ?_, fun _ => ⟨hprepared, hsavepoints⟩⟩
  · rw [htip]
    exact hindex
  · intro hinit
    exact ⟨htip.trans (hfresh hinit), hprepared⟩
  · rw [hsavepoints]
    rintro _ ⟨⟩
  · rw [hsavepoints]
    exact .nil
  · rw [hprepared]
    exact ⟨_, .nil⟩

theorem Published.inv (h : wal.Published) : wal.Inv frameChecksum :=
  inv_of_tip_eq (by rw [tip, h.writer, elim_none]) h.indexed h.fresh h.savepoints h.prepared

theorem Inv.published_of_idle (h : wal.Inv frameChecksum) (hwriter : wal.writer = none) :
    wal.Published := by
  have htip : wal.tip = wal.shared.maxFrame := by rw [tip, hwriter, elim_none]
  have hindex := h.indexed
  have hfresh := h.fresh
  rw [htip] at hindex hfresh
  exact ⟨hindex, fun hinit => (hfresh hinit).1, hwriter, (h.idle hwriter).2, (h.idle hwriter).1⟩

theorem Inv.tip_eq (hwriter : wal.writer = some w) : wal.tip = w.maxFrame := by
  rw [tip, hwriter, elim_some]

theorem inv_beginWriteTx (h : wal.Published) (marksFree : Bool) :
    (wal.beginWriteTx marksFree).Inv frameChecksum := by
  rw [beginWriteTx]
  split
  · exact inv_of_tip_eq rfl .empty (fun _ => rfl) h.savepoints h.prepared
  · exact inv_of_tip_eq rfl h.indexed h.fresh h.savepoints h.prepared

section

variable (h : wal.Inv frameChecksum)

include h

theorem inv_prepareWal (hprepared : wal.prepared = []) (checksum : γ) :
    (wal.prepareWal w checksum).Inv frameChecksum := by
  rw [prepareWal]
  split
  · exact h
  next hinit =>
    have htip := (h.fresh (eq_false_of_ne_true hinit)).1
    have hindex := h.indexed
    have hpublished := h.published
    have hsavepoints := h.savepoints
    rw [htip] at hindex hpublished hsavepoints
    refine ⟨?_, hpublished, ?_, hsavepoints, h.nested, ⟨0, ?_⟩, ?_⟩
    · exact hindex.congr fun f hpos hle => absurd hpos (by omega)
    · rintro ⟨⟩
    · simp only [hprepared]
      exact .nil
    · rintro ⟨⟩

theorem inv_appendFramesVectored (hwriter : wal.writer = some w) (hinit : wal.shared.initialized)
    (hprepared : wal.prepared = []) (pages : List (Page α)) :
    (wal.appendFramesVectored frameChecksum w pages).Inv frameChecksum := by
  have htip := Inv.tip_eq hwriter
  have hindex := h.indexed
  have hpublished := h.published
  have hsavepoints := h.savepoints
  rw [htip] at hindex hpublished hsavepoints
  obtain ⟨hindex', hmax, hsame⟩ := foldl_completeAppendFrame frameChecksum
    w.lastChecksum pages hindex rfl
  have hmaxFrame := congrArg WalSnapshot.maxFrame hsame.snapshot
  have htip' : (wal.appendFramesVectored frameChecksum w pages).tip = w.maxFrame + pages.length :=
    hmax
  refine ⟨by rw [htip']; exact hindex', ?_, ?_, ?_, h.nested, ?_, ?_⟩
  · rw [htip']
    simp only [appendFramesVectored]
    omega
  · intro hfresh
    simp only [appendFramesVectored, hsame.initialized, hinit] at hfresh
    cases hfresh
  · intro target htarget
    obtain ⟨hlow, hhigh⟩ := hsavepoints target htarget
    rw [htip']
    simp only [appendFramesVectored]
    omega
  · simp only [appendFramesVectored, hprepared]
    exact ⟨_, .nil⟩
  · rintro ⟨⟩

theorem inv_openSavepoint (hwriter : wal.writer = some w) :
    ({ wal with savepoints := ⟨w.maxFrame, w.lastChecksum⟩ :: wal.savepoints } :
      WalState γ α).Inv frameChecksum := by
  have htip := Inv.tip_eq hwriter
  refine ⟨h.indexed, h.published, h.fresh, ?_, ?_, h.prepared, ?_⟩
  · rintro target (_ | ⟨_, htarget⟩)
    · exact ⟨htip ▸ h.published, Nat.le_of_eq htip.symm⟩
    · exact h.savepoints target htarget
  · refine .cons ?_ h.nested
    intro older holder
    exact htip ▸ (h.savepoints older holder).2
  · intro hnone
    rw [hwriter] at hnone
    cases hnone

theorem inv_releaseSavepoint :
    ({ wal with savepoints := wal.savepoints.tail } : WalState γ α).Inv frameChecksum := by
  refine ⟨h.indexed, h.published, h.fresh, ?_, h.nested.tail, h.prepared, ?_⟩
  · intro target htarget
    exact h.savepoints target (mem_of_mem_tail htarget)
  · intro hnone
    exact ⟨(h.idle hnone).1, by simp [(h.idle hnone).2]⟩

theorem inv_rollbackTo {target : RollbackTo γ} {index : Nat} (hprepared : wal.prepared = [])
    (htarget : wal.savepoints[index]? = some target) :
    ({ wal with
        shared := { wal.shared with
          frameCache := wal.shared.frameCache.rollbackCache target.frame }
        writer := some { w with maxFrame := target.frame, lastChecksum := target.checksum }
        savepoints := wal.savepoints.drop index } : WalState γ α).Inv frameChecksum := by
  obtain ⟨hlow, hhigh⟩ := h.savepoints target (mem_of_getElem? htarget)
  obtain ⟨hindex, hget⟩ := List.getElem?_eq_some_iff.1 htarget
  have hdrop : wal.savepoints.drop index = target :: wal.savepoints.drop (index + 1) := by
    rw [drop_eq_getElem_cons hindex, hget]
  have hnested := h.nested.sublist (drop_sublist index wal.savepoints)
  refine ⟨h.indexed.rollbackCache hhigh, hlow, ?_, ?_, hnested, ?_, ?_⟩
  · intro hinit
    have htip := (h.fresh hinit).1
    exact ⟨Nat.le_zero.1 (htip ▸ hhigh), hprepared⟩
  · intro older holder
    refine ⟨(h.savepoints older (mem_of_mem_drop holder)).1, ?_⟩
    simp only [hdrop] at holder hnested
    rcases holder with _ | ⟨_, holder⟩
    · exact Nat.le_refl _
    · exact rel_of_pairwise_cons hnested holder
  · simp only [hprepared]
    exact ⟨_, .nil⟩
  · rintro ⟨⟩

theorem inv_commit (hwriter : wal.writer = some w) (hprepared : wal.prepared ≠ []) :
    (wal.commit w).Inv frameChecksum := by
  obtain ⟨m, hchained⟩ := h.prepared
  have hindex := h.indexed
  rw [Inv.tip_eq hwriter] at hchained hindex
  obtain ⟨hindex', hmax, hsame⟩ := hchained.foldl_commitBatch hindex rfl
  refine inv_of_tip_eq rfl (by rw [← hmax] at hindex'; exact hindex') ?_ rfl rfl
  intro hinit
  exact absurd (h.fresh (hsame.initialized ▸ hinit)).2 hprepared

end

end

/-- Without spilled frames, `prepare_frames` goes on after the published frames. -/
theorem prepareSeed_eq {frame : Nat} {checksum : γ} {w' : WalFile γ}
    {last : Option (PreparedFrames γ α)} {shared : WalFileShared γ}
    (h : prepareSeed shared w last = (w', checksum, frame))
    (hspilled : last = none → w.maxFrame = shared.maxFrame) :
    w'.maxFrame = w.maxFrame ∧ frame = (last.elim w.maxFrame PreparedFrames.finalMaxFrame) + 1 := by
  cases last with
  | some prev =>
    cases h
    exact ⟨rfl, rfl⟩
  | none =>
    have hmax := hspilled rfl
    simp only [prepareSeed] at h
    split at h
    · cases h
      exact ⟨rfl, rfl⟩
    split at h
    · split at h
      · cases h
        exact ⟨rfl, rfl⟩
      · cases h
        exact ⟨hmax.symm, congrArg (· + 1) hmax.symm⟩
    · cases h
      exact ⟨rfl, rfl⟩

theorem inv_prepareFrames (h : wal.Inv frameChecksum) (hwriter : wal.writer = some w)
    (hinit : wal.shared.initialized)
    (hspilled : wal.prepared = [] → w.maxFrame = wal.shared.maxFrame) (pages : List (Page α))
    (hpages : pages ≠ []) : (wal.prepareFrames frameChecksum w pages).Inv frameChecksum := by
  have htip := Inv.tip_eq hwriter
  obtain ⟨m, hchained⟩ := h.prepared
  rw [prepareFrames]
  rcases hseed : prepareSeed wal.shared w wal.prepared.getLast? with ⟨w', checksum, frame⟩
  obtain ⟨hmax, hframe⟩ := prepareSeed_eq hseed fun hnone =>
    hspilled (getLast?_eq_none_iff.1 hnone)
  have hm : frame = m + 1 := by
    rw [hframe]
    cases hlast : wal.prepared.getLast? with
    | none => rw [elim_none, hchained.of_nil (getLast?_eq_none_iff.1 hlast), htip]
    | some last => rw [elim_some, hchained.getLast hlast]
  have htip' : ∀ prepared : List (PreparedFrames γ α),
      ({ wal with writer := some w', prepared } : WalState γ α).tip = wal.tip := by
    intro prepared
    rw [htip, ← hmax]
    rfl
  have hlen : 0 < pages.length := length_pos_of_ne_nil hpages
  refine ⟨?_, ?_, ?_, ?_, h.nested, ?_, ?_⟩
  · rw [htip']
    exact h.indexed
  · rw [htip']
    exact h.published
  · intro hfresh
    simp only [hinit] at hfresh
    cases hfresh
  · rw [htip']
    exact h.savepoints
  · rw [htip']
    subst hm
    exact ⟨_, hchained.snoc checksum pages rfl (by simp only; omega)⟩
  · rintro ⟨⟩

omit [DecidableEq γ] in
theorem inv_publishBackfill (h : wal.Inv frameChecksum) (maxFrame : Nat) :
    ({ wal with shared := { wal.shared with nbackfills := maxFrame } } :
      WalState γ α).Inv frameChecksum :=
  ⟨h.indexed, h.published, h.fresh, h.savepoints, h.nested, h.prepared, h.idle⟩

variable {a : Action γ α}

theorem inv_exec_idle (h : wal.Published) (hexec : exec frameChecksum wal a = some wal') :
    wal'.Inv frameChecksum := by
  cases a with
  | begin marksFree =>
    simp only [exec, h.writer, some.injEq] at hexec
    subst hexec
    exact inv_beginWriteTx h marksFree
  | restartLog =>
    simp only [exec, h.writer, some.injEq] at hexec
    subst hexec
    exact inv_of_tip_eq rfl .empty (fun _ => rfl) h.savepoints h.prepared
  | publishBackfill maxFrame =>
    simp only [exec, ite_none_right_eq_some, some.injEq] at hexec
    obtain ⟨-, rfl⟩ := hexec
    simpa using inv_publishBackfill h.inv maxFrame
  | _ => simp [exec, h.writer] at hexec

theorem inv_exec_writing (hspilled : wal.NothingSpilled a) (h : wal.Inv frameChecksum)
    (hwriter : wal.writer = some w) (hexec : exec frameChecksum wal a = some wal') :
    wal'.Inv frameChecksum := by
  cases a with
  | begin => simp [exec, hwriter] at hexec
  | restartLog => simp [exec, hwriter] at hexec
  | prepareWal checksum =>
    simp only [exec, hwriter, ite_none_right_eq_some, some.injEq] at hexec
    obtain ⟨hprepared, rfl⟩ := hexec
    exact inv_prepareWal h hprepared checksum
  | spill pages =>
    simp only [exec, hwriter, ite_none_right_eq_some, some.injEq] at hexec
    obtain ⟨⟨hinit, hprepared⟩, rfl⟩ := hexec
    exact inv_appendFramesVectored h hwriter hinit hprepared pages
  | openSavepoint =>
    simp only [exec, hwriter, ite_none_right_eq_some, some.injEq] at hexec
    obtain ⟨-, rfl⟩ := hexec
    simpa [hwriter] using inv_openSavepoint h hwriter
  | releaseSavepoint =>
    simp only [exec, hwriter, some.injEq] at hexec
    subst hexec
    simpa [hwriter] using inv_releaseSavepoint h
  | rollbackTo index =>
    simp only [exec, hwriter, ite_none_right_eq_some, map_eq_some_iff] at hexec
    obtain ⟨hprepared, target, htarget, rfl⟩ := hexec
    exact inv_rollbackTo h hprepared htarget
  | prepareFrames pages =>
    simp only [exec, hwriter, ite_none_right_eq_some, some.injEq] at hexec
    obtain ⟨⟨hinit, hpages⟩, rfl⟩ := hexec
    exact inv_prepareFrames h hwriter hinit (fun hnil => hspilled hnil w hwriter) pages hpages
  | commit =>
    simp only [exec, hwriter, ite_none_right_eq_some, some.injEq] at hexec
    obtain ⟨hprepared, rfl⟩ := hexec
    exact inv_commit h hwriter hprepared
  | rollback =>
    simp only [exec, hwriter, some.injEq] at hexec
    subst hexec
    refine inv_of_tip_eq rfl (h.indexed.rollbackCache h.published) ?_ rfl rfl
    intro hinit
    exact Nat.le_zero.1 ((h.fresh hinit).1 ▸ h.published)
  | publishBackfill maxFrame =>
    simp only [exec, ite_none_right_eq_some, some.injEq] at hexec
    obtain ⟨-, rfl⟩ := hexec
    simpa using inv_publishBackfill h maxFrame

theorem inv_exec (hspilled : wal.NothingSpilled a) (h : wal.Inv frameChecksum)
    (hexec : exec frameChecksum wal a = some wal') : wal'.Inv frameChecksum := by
  cases hwriter : wal.writer with
  | none => exact inv_exec_idle (h.published_of_idle hwriter) hexec
  | some w => exact inv_exec_writing hspilled h hwriter hexec

/-- In every run in which a commit prepares its frames only when nothing is spilled, the page
index finds the latest frame of a page in every published range, and the checkpointer's list
consists of these frames. -/
theorem find_frame_latest (frameChecksum : γ → Page α → γ) {actions : List (Action γ α)}
    (hstart : wal.Published) (hspilled : Meets (exec frameChecksum) NothingSpilled wal actions)
    (hrun : run (exec frameChecksum) wal actions = some wal') :
    ∀ lo hi, 1 ≤ lo → hi ≤ wal'.shared.maxFrame →
      (∀ page frame, wal'.shared.frameCache.findFrame page lo hi none = some frame ↔
        IsLatest wal'.file page lo hi frame) ∧
      (∀ page, wal'.shared.frameCache.findFrame page lo hi none = none ↔
        ∀ f, lo ≤ f → f ≤ hi → wal'.file f ≠ some page) ∧
      (∀ page frame, (page, frame) ∈ wal'.shared.frameCache.iterLatestFrames lo hi ↔
        IsLatest wal'.file page lo hi frame) ∧
      (wal'.shared.frameCache.iterLatestFrames lo hi).Pairwise (·.1 < ·.1) := by
  intro lo hi hlo hhi
  have hinv : wal'.Inv frameChecksum := run_preserves inv_exec hspilled hstart.inv hrun
  have htip := Nat.le_trans hhi hinv.published
  refine ⟨?_, ?_, ?_, FrameCache.pairwise_iterLatestFrames ..⟩
  · intro page frame
    exact hinv.indexed.findFrame hlo htip
  · intro page
    exact hinv.indexed.findFrame_eq_none hlo htip
  · intro page frame
    rw [FrameCache.mem_iterLatestFrames]
    exact hinv.indexed.findFrame hlo htip

def empty : WalState Unit Unit where
  shared := ⟨⟨0, 0, (), 0, 0⟩, (), true, ∅⟩
  file := fun _ => none
  writer := none
  savepoints := []
  prepared := []

theorem published_empty : empty.Published := ⟨.empty, fun _ => rfl, rfl, rfl, rfl⟩

def commitTwice : List (Action Unit Unit) :=
  [.begin false, .openSavepoint, .spill [⟨2, ()⟩, ⟨3, ()⟩], .rollbackTo 0,
    .prepareFrames [⟨2, ()⟩, ⟨3, ()⟩], .commit, .publishBackfill 2,
    .begin false, .prepareFrames [⟨5, ()⟩], .commit]

theorem find_frame_latest_commitTwice : ∃ wal',
    run (exec fun _ _ => ()) empty commitTwice = some wal' ∧
    wal'.shared.maxFrame = 3 ∧ IsLatest wal'.file 2 1 3 1 ∧
    wal'.shared.frameCache.findFrame 2 1 3 none = some 1 := by
  have hrun : (run (exec fun _ _ => ()) empty commitTwice).map
      (fun wal => (wal.shared.maxFrame, wal.shared.frameCache.findFrame 2 1 3 none)) =
      some (3, some 1) := by decide +kernel
  obtain ⟨wal', hrun, heq⟩ := map_eq_some_iff.1 hrun
  obtain ⟨hmax, hfind⟩ := Prod.mk.inj heq
  have hlatest := find_frame_latest (fun _ _ => ()) published_empty (by decide +kernel) hrun 1 3
    (Nat.le_refl 1) (Nat.le_of_eq hmax.symm)
  exact ⟨wal', hrun, hmax, (hlatest.1 2 1).1 hfind, hfind⟩

def spillThenCommit : List (Action Unit Unit) :=
  [.begin false, .spill [⟨2, ()⟩], .spill [⟨3, ()⟩], .spill [⟨2, ()⟩],
    .prepareFrames [⟨2, ()⟩, ⟨3, ()⟩], .commit, .publishBackfill 2,
    .begin false, .prepareFrames [⟨5, ()⟩], .commit]

/-- Frame 3 is a frame of page 5, but the index has it for page 2 too, and so does the
checkpointer's list. -/
theorem find_frame_spillThenCommit : ∃ wal',
    run (exec fun _ _ => ()) empty spillThenCommit = some wal' ∧ wal'.shared.maxFrame = 3 ∧
    wal'.file 3 = some 5 ∧ wal'.shared.frameCache.findFrame 2 3 3 none = some 3 ∧
    (2, 3) ∈ wal'.shared.frameCache.iterLatestFrames 3 3 := by
  have hrun : (run (exec fun _ _ => ()) empty spillThenCommit).map (fun wal =>
      (wal.shared.maxFrame, wal.file 3, wal.shared.frameCache.findFrame 2 3 3 none)) =
      some (3, some 5, some 3) := by decide +kernel
  obtain ⟨wal', hrun, heq⟩ := map_eq_some_iff.1 hrun
  simp only [Prod.mk.injEq] at heq
  obtain ⟨hmax, hfile, hfind⟩ := heq
  exact ⟨wal', hrun, hmax, hfile, hfind, FrameCache.mem_iterLatestFrames.2 hfind⟩

end WalState

end PgMicro.Wal
