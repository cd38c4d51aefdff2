import PgMicro.PersistentStorage.LogicalLog
import PgMicro.Wal.RecoveryScan

/-!
# Recovery keeps the committed prefix

After a crash the reader finds what was committed, and a writer goes on from there.
-/

namespace PgMicro.Wal

open Codec KeyedLog PersistentStorage Option List Nat WalHeader ChainedRecords StreamingWalReader

variable {frames : List WalFrameHeader}

structure FrameInput where
  pageNumber : UInt32
  dbSize : UInt32
  page : List UInt8
  deriving DecidableEq, Repr

def chainFrames (target : Endian) (walHeader : WalHeader) :
    Checksum → List FrameInput → Option (Checksum × List UInt8)
  | c, [] => some (c, [])
  | c, f :: fs =>
    (prepareWalFrame target walHeader c walHeader.pageSize f.pageNumber f.dbSize f.page).bind
      fun (c, frame) => (chainFrames target walHeader c fs).map fun (c, bytes) =>
        (c, frame ++ bytes)

def FrameInput.Matches (input : FrameInput) (f : WalFrameHeader) : Prop :=
  f.pageNumber = input.pageNumber ∧ f.dbSize = input.dbSize

section

variable {target : Endian} {hdr h : WalHeader} {pageSize : PageSize} {random1 random2 : UInt32}
  {c c' : Checksum} {inputs : List FrameInput} {bytes : List UInt8}

theorem chainFrames_spec (hvalid : h.Valid) (hpages : ∀ f ∈ inputs, f.pageNumber ≠ 0)
    (hchain : chainFrames target h c inputs = some (c', bytes)) :
    ∃ frames, h.records.Written c bytes frames ∧ h.records.after c frames = c' ∧
      List.Forall₂ FrameInput.Matches inputs frames := by
  induction inputs generalizing c bytes with
  | nil =>
    cases hchain
    exact ⟨[], .nil, rfl, .nil⟩
  | cons f fs ih =>
    rw [chainFrames, bind_eq_some_iff] at hchain
    obtain ⟨⟨c1, frame⟩, hprepare, hmap⟩ := hchain
    obtain ⟨⟨c2, bytes2⟩, hrest, heq⟩ := map_eq_some_iff.1 hmap
    cases heq
    obtain ⟨hsize, hnext⟩ := prepareWalFrame_spec hvalid (hpages f mem_cons_self) hprepare
    obtain ⟨frames, hwritten, hafter, hmatches⟩ :=
      ih (fun f' hf' => hpages f' (mem_cons_of_mem f hf')) hrest
    exact ⟨_ :: frames, .cons hsize hnext hwritten, hafter, .cons ⟨rfl, rfl⟩ hmatches⟩

theorem validFrames_append (hwritten : h.records.Written h.checksum bytes frames)
    (rest : List UInt8) :
    h.validFrames (bytes ++ rest) = frames ++
      h.records.accepted (rest.length / h.frameSize) (h.records.after h.checksum frames) rest := by
  have hfs : 0 < h.frameSize := lt_of_lt_of_le (by decide) (le_add_right _ _)
  have hlen : bytes.length = frames.length * h.frameSize := hwritten.length_eq
  rw [validFrames, length_append, hlen, mul_comm, mul_add_div hfs]
  exact hwritten.accepted _ rest

theorem written_committed (rest : List UInt8) :
    h.records.Written h.checksum
      (rest.take ((committed (h.validFrames rest)).length * h.frameSize))
      (committed (h.validFrames rest)) := by
  have hall : h.records.Written h.checksum
      (rest.take ((h.validFrames rest).length * h.frameSize)) (h.validFrames rest) :=
    h.records.written_accepted (div_mul_le_self rest.length h.records.size)
  have htake := hall.take (committed (h.validFrames rest)).length
  rwa [take_take, take_committed, h.records_size,
    min_eq_left (mul_le_mul_right h.frameSize length_committed_le)] at htake

theorem pwrite_frames {rest : List UInt8} {m : Nat} (hle : m * h.frameSize ≤ rest.length) :
    pwrite (h.encode ++ rest) (walHeaderSize + m * h.frameSize) bytes =
      h.encode ++ (rest.take (m * h.frameSize) ++ bytes ++
        rest.drop (m * h.frameSize + bytes.length)) := by
  have hgap : walHeaderSize + m * h.frameSize - (h.encode ++ rest).length = 0 := by
    rw [length_append, h.length_encode]
    omega
  rw [pwrite, hgap, replicate_zero, append_nil, ← h.length_encode,
    take_length_add_append, add_assoc, drop_length_add_append, append_assoc,
    append_assoc, append_assoc]

/-- **Recovery.** From the header, some of the written frames and anything behind them, the
longest valid prefix up to its last commit frame is recovered, however the file is read; the kept
frames are valid. A writer that goes on gives a file from which these commits and the new frames
are recovered, and then only frames with which the bytes behind the new ones continue the chain. -/
theorem wal_recovery (hheader : prepare target hdr pageSize random1 random2 = some h)
    (hsize : hdr.pageSize = 0 ∨ PageSize.Valid hdr.pageSize)
    (hchain : chainFrames target h h.checksum inputs = some (c, bytes))
    (hpages : ∀ f ∈ inputs, f.pageNumber ≠ 0) (k : Nat) (suffix : List UInt8)
    (chunkFrames : Nat → Nat) :
    let rest := bytes.take (k * h.frameSize) ++ suffix
    let frames := h.validFrames rest
    ∃ shared, buildSharedWal target (h.encode ++ rest) chunkFrames = some shared ∧
      Recovered h frames shared ∧
      (∃ kept, kept <+: frames ∧ List.Forall₂ FrameInput.Matches (inputs.take k) kept) ∧
      ∀ (more : List FrameInput) (c' : Checksum) (newBytes : List UInt8) (chunkFrames' : Nat → Nat),
        (∀ f ∈ more, f.pageNumber ≠ 0) →
        chainFrames target h shared.lastChecksum more = some (c', newBytes) →
        let leftover := rest.drop (shared.maxFrame * h.frameSize + newBytes.length)
        ∃ shared' frames', buildSharedWal target
            (pwrite (h.encode ++ rest) (walHeaderSize + shared.maxFrame * h.frameSize) newBytes)
            chunkFrames' = some shared' ∧
          List.Forall₂ FrameInput.Matches more frames' ∧
          Recovered h (committed frames ++ frames' ++
            h.records.accepted (leftover.length / h.frameSize) c' leftover) shared' := by
  intro rest frames
  have hvalid := valid_of_prepare hheader hsize
  obtain ⟨shared, hbuild, hrecovered⟩ := buildSharedWal_spec hvalid target rest chunkFrames
  refine ⟨shared, hbuild, hrecovered, ?_, ?_⟩
  · obtain ⟨written, hwritten, -, hmatches⟩ := chainFrames_spec hvalid hpages hchain
    refine ⟨written.take k, ?_, forall₂_take k hmatches⟩
    have hhead : frames = written.take k ++ _ := validFrames_append (hwritten.take k) suffix
    rw [hhead]
    exact prefix_append ..
  · intro more c' newBytes chunkFrames' hmore hchain' leftover
    have hcommitted := written_committed (h := h) rest
    rw [hrecovered.lastChecksum] at hchain'
    obtain ⟨frames', hwritten', hafter', hmatches'⟩ := chainFrames_spec hvalid hmore hchain'
    have hvalidFrames := validFrames_append (hcommitted.append hwritten') leftover
    rw [after_append, hafter'] at hvalidFrames
    have hfile : pwrite (h.encode ++ rest)
      (walHeaderSize + shared.maxFrame * h.frameSize) newBytes =
        h.encode ++ (rest.take (shared.maxFrame * h.frameSize) ++ newBytes ++ leftover) := by
      apply pwrite_frames
      have hlen := hcommitted.length_eq
      rw [length_take, h.records_size] at hlen
      rw [hrecovered.maxFrame]
      omega
    obtain ⟨shared', hbuild', hrecovered'⟩ := buildSharedWal_spec hvalid target
      (rest.take (shared.maxFrame * h.frameSize) ++ newBytes ++ leftover) chunkFrames'
    rw [hrecovered.maxFrame, hvalidFrames] at hrecovered'
    exact ⟨shared', frames', hfile ▸ hbuild', hmatches', hrecovered'⟩

theorem StreamingWalReader.Recovered.published {shared : WalFileShared Checksum}
    (hrecovered : Recovered h frames shared) :
    ({ shared, file := pageOf frames, writer := none, savepoints := [], prepared := [] } :
      WalState Checksum (List UInt8)).Published := by
  refine ⟨?_, ?_, rfl, rfl, rfl⟩
  · intro page
    rw [hrecovered.indexed, hrecovered.maxFrame]
  · intro hfresh
    simp only [hrecovered.initialized] at hfresh
    cases hfresh

end

section

/-- `WalHeader::new()` on a little-endian machine. -/
def freshHeader : WalHeader := ⟨walMagicLE, 3007000, 0, 0, 0, 0, 0, 0⟩

def smallPages : PageSize := ⟨512, by decide⟩

def zeroPage : List UInt8 := replicate 512 0

def twoCommits : List FrameInput := [⟨1, 1, zeroPage⟩, ⟨2, 2, zeroPage⟩]

/-- The first of two commits is recovered from a file that was cut inside the second. -/
theorem wal_recovery_twoCommits : ∃ h c bytes shared,
    prepare .little freshHeader smallPages 1 2 = some h ∧
    chainFrames .little h h.checksum twoCommits = some (c, bytes) ∧
    buildSharedWal .little (h.encode ++ (bytes.take (1 * h.frameSize) ++ [0, 0])) (fun _ => 1) =
      some shared ∧
    shared.maxFrame = 1 ∧
    Recovered h (h.validFrames (bytes.take (1 * h.frameSize) ++ [0, 0])) shared := by
  have hrun : ((prepare .little freshHeader smallPages 1 2).bind fun h =>
      (chainFrames .little h h.checksum twoCommits).bind fun (_, bytes) =>
        (buildSharedWal .little (h.encode ++ (bytes.take (1 * h.frameSize) ++ [0, 0]))
          (fun _ => 1)).map fun shared => shared.maxFrame) = some 1 := by decide +kernel
  obtain ⟨h, hheader, hrun⟩ := bind_eq_some_iff.1 hrun
  obtain ⟨⟨c, bytes⟩, hchain, hrun⟩ := bind_eq_some_iff.1 hrun
  obtain ⟨shared, hbuild, hmax⟩ := map_eq_some_iff.1 hrun
  obtain ⟨shared', hbuild', hrecovered, -⟩ :=
    wal_recovery hheader (.inl rfl) hchain (by decide) 1 [0, 0] (fun _ => 1)
  rw [hbuild'] at hbuild
  cases hbuild
  exact ⟨h, c, bytes, shared, hheader, hchain, hbuild', hmax, hrecovered⟩

/-- A second frame whose first was lost is not recovered, but the frame that is written next can
lead up to it: one commit is written, and two are recovered. -/
theorem leftover_frame_recovered : ∃ h c bytes c' newBytes shared shared',
    prepare .little freshHeader smallPages 1 2 = some h ∧
    chainFrames .little h h.checksum twoCommits = some (c, bytes) ∧
    buildSharedWal .little (h.encode ++ (replicate h.frameSize 0 ++ bytes.drop h.frameSize))
      (fun _ => 1) = some shared ∧
    shared.maxFrame = 0 ∧
    chainFrames .little h shared.lastChecksum [⟨1, 1, zeroPage⟩] = some (c', newBytes) ∧
    buildSharedWal .little
      (pwrite (h.encode ++ (replicate h.frameSize 0 ++ bytes.drop h.frameSize))
        (walHeaderSize + shared.maxFrame * h.frameSize) newBytes) (fun _ => 1) = some shared' ∧
    shared'.maxFrame = 2 := by
  have hrun : ((prepare .little freshHeader smallPages 1 2).bind fun h =>
      (chainFrames .little h h.checksum twoCommits).bind fun (_, bytes) =>
        let file := h.encode ++ (replicate h.frameSize 0 ++ bytes.drop h.frameSize)
        (buildSharedWal .little file (fun _ => 1)).bind fun shared =>
          (chainFrames .little h shared.lastChecksum [⟨1, 1, zeroPage⟩]).bind fun (_, newBytes) =>
            (buildSharedWal .little (pwrite file (walHeaderSize + shared.maxFrame * h.frameSize)
              newBytes) (fun _ => 1)).map fun shared' => (shared.maxFrame, shared'.maxFrame)) =
      some (0, 2) := by decide +kernel
  obtain ⟨h, hheader, hrun⟩ := bind_eq_some_iff.1 hrun
  obtain ⟨⟨c, bytes⟩, hchain, hrun⟩ := bind_eq_some_iff.1 hrun
  obtain ⟨shared, hbuild, hrun⟩ := bind_eq_some_iff.1 hrun
  obtain ⟨⟨c', newBytes⟩, hchain', hrun⟩ := bind_eq_some_iff.1 hrun
  obtain ⟨shared', hbuild', hmax⟩ := map_eq_some_iff.1 hrun
  simp only [Prod.mk.injEq] at hmax
  exact ⟨h, c, bytes, c', newBytes, shared, shared', hheader, hchain, hbuild, hmax.1, hchain',
    hbuild', hmax.2⟩

end

open Transition WalState in
/-- Whatever follows the header of a WAL that is opened, and however it is then written to with
nothing spilled at a commit, a look-up finds the latest frame of its page. -/
theorem reopened_wal_finds_latest {h : WalHeader} (hvalid : h.Valid) (bytes : List UInt8)
    (target : Endian) (chunkFrames : Nat → Nat)
    (frameChecksum : Checksum → Page (List UInt8) → Checksum) :
    ∃ shared, buildSharedWal target (h.encode ++ bytes) chunkFrames = some shared ∧
      ∀ actions wal, let opened := ⟨shared, pageOf (h.validFrames bytes), none, [], []⟩
        Meets (exec frameChecksum) NothingSpilled opened actions →
        run (exec frameChecksum) opened actions = some wal →
        ∀ lo hi page frame, 1 ≤ lo → hi ≤ wal.shared.maxFrame →
          (wal.shared.frameCache.findFrame page lo hi none = some frame ↔
            IsLatest wal.file page lo hi frame) := by
  obtain ⟨shared, hbuild, hrecovered⟩ := buildSharedWal_spec hvalid target bytes chunkFrames
  refine ⟨shared, hbuild, ?_⟩
  intro actions wal opened hspilled hrun lo hi page frame hlo hhi
  have hinv : wal.Inv frameChecksum := run_preserves inv_exec hspilled hrecovered.published.inv hrun
  exact hinv.indexed.findFrame hlo (hhi.trans hinv.published)

open Transition WalState in
/-- Two commits are recovered, and a third one writes the page of the first again. -/
theorem reopened_wal_finds_latest_afterCommits : ∃ h c bytes shared wal,
    prepare .little freshHeader smallPages 1 2 = some h ∧
    chainFrames .little h h.checksum twoCommits = some (c, bytes) ∧
    buildSharedWal .little (h.encode ++ bytes) (fun _ => 1) = some shared ∧
    run (exec fun c _ => c) ⟨shared, pageOf (h.validFrames bytes), none, [], []⟩
      [.begin false, .prepareFrames [⟨1, zeroPage⟩], .commit] = some wal ∧
    wal.shared.maxFrame = 3 ∧ IsLatest wal.file 1 1 3 3 ∧ IsLatest wal.file 2 1 3 2 := by
  have hrun : ((prepare .little freshHeader smallPages 1 2).bind fun h =>
      (chainFrames .little h h.checksum twoCommits).bind fun (_, bytes) =>
        (buildSharedWal .little (h.encode ++ bytes) (fun _ => 1)).bind fun shared =>
          let opened := ⟨shared, pageOf (h.validFrames bytes), none, [], []⟩
          let actions := [.begin false, .prepareFrames [⟨1, zeroPage⟩], .commit]
          (run (exec fun c _ => c) opened actions).map fun wal =>
            (decide (Meets (exec fun c _ => c) NothingSpilled opened actions),
              wal.shared.maxFrame, wal.shared.frameCache.findFrame 1 1 3 none,
              wal.shared.frameCache.findFrame 2 1 3 none)) =
      some (true, 3, some 3, some 2) := by decide +kernel
  obtain ⟨h, hheader, hrun⟩ := bind_eq_some_iff.1 hrun
  obtain ⟨⟨c, bytes⟩, hchain, hrun⟩ := bind_eq_some_iff.1 hrun
  obtain ⟨shared, hbuild, hrun⟩ := bind_eq_some_iff.1 hrun
  obtain ⟨wal, hactions, hrun⟩ := map_eq_some_iff.1 hrun
  simp only [Prod.mk.injEq, decide_eq_true_eq] at hrun
  obtain ⟨hspilled, hmax, hwritten, hrecovered⟩ := hrun
  obtain ⟨shared', hbuild', hfind⟩ := reopened_wal_finds_latest
    (valid_of_prepare hheader (.inl rfl)) bytes .little (fun _ => 1) fun c _ => c
  obtain rfl : shared = shared' := some.inj (hbuild.symm.trans hbuild')
  have hlatest := hfind _ wal hspilled hactions 1 3
  exact ⟨h, c, bytes, shared, wal, hheader, hchain, hbuild, hactions, hmax,
    (hlatest 1 3 le_rfl hmax.ge).1 hwritten, (hlatest 2 2 le_rfl hmax.ge).1 hrecovered⟩

end PgMicro.Wal
