import PgMicro.Wal.PageIndex
import PgMicro.Wal.Recovery

/-!
# What the reader recovers

However the file is cut into chunks, the reader ends with the frames of the longest valid prefix
up to the last commit frame.
-/

namespace PgMicro.Wal

open Codec KeyedLog Option List Nat WalHeader ChainedRecords

variable {frames : List WalFrameHeader} {n : Nat}

def committed (frames : List WalFrameHeader) : List WalFrameHeader :=
  frames.rdropWhile fun f => f.dbSize = 0

def pageOf (frames : List WalFrameHeader) : Nat → Option PageNo
  | 0 => none
  | i + 1 => frames[i]?.map fun f => f.pageNumber.toNat

open StreamingWalReader

section

variable {frames' : List WalFrameHeader} {f : WalFrameHeader} {i : Nat}

theorem committed_concat (h : ¬ 0 < f.dbSize) : committed (frames ++ [f]) = committed frames :=
  rdropWhile_concat_pos _ _ _ (by simpa using h)

theorem committed_concat_commit (h : 0 < f.dbSize) : committed (frames ++ [f]) = frames ++ [f] :=
  rdropWhile_concat_neg _ _ _ (by simpa using UInt32.pos_iff_ne_zero.1 h)

theorem length_committed_le : (committed frames).length ≤ frames.length :=
  (List.rdropWhile_prefix _ _).length_le

theorem take_committed : frames.take (committed frames).length = committed frames :=
  (prefix_iff_eq_take.1 (List.rdropWhile_prefix _ _)).symm

theorem pageOf_append (h : i ≤ frames.length) : pageOf (frames ++ frames') i = pageOf frames i := by
  cases i with
  | zero => rfl
  | succ i => rw [pageOf, pageOf, getElem?_append_left h]

theorem pageOf_concat : pageOf (frames ++ [f]) (frames.length + 1) = some f.pageNumber.toNat := by
  rw [pageOf, getElem?_concat_length, map_some]

theorem positions_concat (page : PageNo) :
    positions (pageOf (frames ++ [f])) (frames.length + 1) page =
      positions (pageOf frames) frames.length page ++
        if f.pageNumber.toNat = page then [frames.length + 1] else [] := by
  rw [positions_succ, pageOf_concat, positions_congr fun j _ hj => pageOf_append hj]
  simp

end

namespace FrameCache

variable {cache : FrameCache}

theorem frames_flushEntry (entry : Sigma fun _ : PageNo => List Nat) (page : PageNo) :
    (flushEntry n cache entry).frames page =
      cache.frames page ++ if entry.1 = page then entry.2.filter (· ≤ n) else [] := by
  rw [flushEntry]
  split
  next hempty =>
    rw [List.isEmpty_iff] at hempty
    rw [hempty, ite_self, append_nil]
  · exact frames_extend

theorem frames_foldl_flushEntry (entries : List (Sigma fun _ : PageNo => List Nat))
    (hkeys : entries.NodupKeys) (page : PageNo) :
    (entries.foldl (flushEntry n) cache).frames page =
      cache.frames page ++ ((entries.dlookup page).getD []).filter (· ≤ n) := by
  induction entries generalizing cache with
  | nil => exact (append_nil _).symm
  | cons entry entries ih =>
    rw [nodupKeys_cons] at hkeys
    rw [foldl_cons, ih hkeys.2, frames_flushEntry]
    obtain ⟨page', frames⟩ := entry
    rcases eq_or_ne page page' with rfl | hne
    · rw [if_pos rfl, dlookup_cons_eq, dlookup_eq_none.2 hkeys.1]
      simp
    · rw [if_neg hne.symm, append_nil, dlookup_cons_ne _ _ hne]

end FrameCache

namespace StreamingWalReader

variable {target : Endian} {h : WalHeader} {r : StreamingWalReader} {frame : List UInt8}

structure Scanned (target : Endian) (h : WalHeader) (frames : List WalFrameHeader)
    (r : StreamingWalReader) : Prop where
  header : r.header = h
  pageSize : r.state.pageSize = h.pageSize.toNat
  native : r.state.useNativeEndian = useNativeEndian target h.magic
  headerValid : r.state.headerValid = true
  frameIdx : r.state.frameIdx = frames.length + 1
  cumulative : r.state.cumulativeChecksum = h.records.after h.checksum frames
  lastValidFrame : r.state.lastValidFrame = (committed frames).length
  lastValidChecksum : r.state.lastValidChecksum = h.records.after h.checksum (committed frames)
  indexed : r.shared.frameCache.Indexes (pageOf frames) (committed frames).length
  pending : ∀ page, r.shared.frameCache.frames page ++ r.state.pendingFrames.frames page =
    positions (pageOf frames) frames.length page

structure SameProgress (r r' : StreamingWalReader) : Prop where
  offset : r'.offset = r.offset
  pageSize : r'.pageSize = r.pageSize
  done : r'.done = r.done

theorem SameProgress.trans {r' r'' : StreamingWalReader} (h : SameProgress r r')
    (h' : SameProgress r' r'') : SameProgress r r'' :=
  ⟨h'.offset.trans h.offset, h'.pageSize.trans h.pageSize, h'.done.trans h.done⟩

theorem flushPendingFrames_eq (hlast : r.state.lastValidFrame = n)
    (hpending : ∀ page, r.shared.frameCache.frames page ++ r.state.pendingFrames.frames page =
      positions (pageOf frames) n page) :
    ∃ (frameCache pendingFrames : FrameCache) (maxFrame : Nat), r.flushPendingFrames =
        { r with
          shared := { r.shared with frameCache, maxFrame }
          state := { r.state with pendingFrames } } ∧
      frameCache.Indexes (pageOf frames) n ∧ ∀ page, pendingFrames.frames page = [] := by
  rw [flushPendingFrames]
  split
  next hempty =>
    rw [List.isEmpty_iff] at hempty
    have hnone : ∀ page, r.state.pendingFrames.frames page = [] := by
      intro page
      rw [FrameCache.frames, AList.lookup, hempty]
      rfl
    refine ⟨_, _, _, rfl, fun page => ?_, hnone⟩
    rw [← hpending, hnone, append_nil]
  · refine ⟨_, _, _, rfl, fun page => ?_, fun _ => rfl⟩
    have hle : ∀ f ∈ r.state.pendingFrames.frames page, f ≤ n := by
      intro f hf
      have hmem : f ∈ positions (pageOf frames) n page := by
        rw [← hpending]
        exact mem_append_right _ hf
      exact (mem_positions.1 hmem).2.1
    rw [FrameCache.frames_foldl_flushEntry _ r.state.pendingFrames.nodupKeys, ← hpending, hlast]
    exact congrArg _ (filter_eq_self.2 fun f hf => decide_eq_true (hle f hf))

theorem Scanned.acceptFrame (hs : r.Scanned target h frames) (f : WalFrameHeader) :
    (r.acceptFrame f f.checksum).Scanned target h (frames ++ [f]) ∧
      r.SameProgress (r.acceptFrame f f.checksum) := by
  have hpending : ∀ page, r.shared.frameCache.frames page ++
      (r.state.pendingFrames.cacheFrame f.pageNumber.toNat r.state.frameIdx).frames page =
        positions (pageOf (frames ++ [f])) (frames.length + 1) page := by
    intro page
    rw [FrameCache.frames_cacheFrame, ← append_assoc, hs.pending, hs.frameIdx,
      positions_concat]
  have hlength : (frames ++ [f]).length = frames.length + 1 := length_append
  have hafter : h.records.after h.checksum (frames ++ [f]) = f.checksum :=
    h.records.after_concat frames f
  rw [StreamingWalReader.acceptFrame]
  simp only
  split
  next hcommit =>
    -- The frame commits, so that everything read so far is entered.
    obtain ⟨frameCache, pendingFrames, maxFrame, hflush, hindexed, hnone⟩ :=
      flushPendingFrames_eq (r := { r with
        state := { r.state with
          cumulativeChecksum := f.checksum
          pendingFrames := r.state.pendingFrames.cacheFrame f.pageNumber.toNat r.state.frameIdx
          lastValidFrame := r.state.frameIdx
          lastValidChecksum := f.checksum } }) hs.frameIdx hpending
    rw [hflush]
    refine ⟨⟨hs.header, hs.pageSize, hs.native, hs.headerValid, ?_, hafter.symm, ?_, ?_, ?_, ?_⟩,
      ⟨rfl, rfl, rfl⟩⟩
    · rw [hlength]
      exact congrArg (· + 1) hs.frameIdx
    · rw [committed_concat_commit hcommit, hlength]
      exact hs.frameIdx
    · rw [committed_concat_commit hcommit]
      exact hafter.symm
    · rw [committed_concat_commit hcommit, hlength]
      exact hindexed
    · intro page
      rw [hlength]
      exact (congrArg _ (hnone page)).trans ((append_nil _).trans (hindexed page))
  next hcommit =>
    have hindexed : r.shared.frameCache.Indexes (pageOf (frames ++ [f]))
        (committed frames).length :=
      hs.indexed.congr fun i _ hi => (pageOf_append (le_trans hi length_committed_le)).symm
    refine ⟨⟨hs.header, hs.pageSize, hs.native, hs.headerValid, ?_, hafter.symm, ?_, ?_, ?_, ?_⟩,
      ⟨rfl, rfl, rfl⟩⟩
    · rw [hlength]
      exact congrArg (· + 1) hs.frameIdx
    · rw [committed_concat hcommit]
      exact hs.lastValidFrame
    · rw [committed_concat hcommit]
      exact hs.lastValidChecksum
    · rw [committed_concat hcommit]
      exact hindexed
    · rw [hlength]
      exact hpending

theorem Scanned.processFrame (hvalid : PageSize.Valid h.pageSize) (hs : r.Scanned target h frames)
    (hlen : frame.length = h.frameSize) :
    r.processFrame target frame =
      match h.records.next (h.records.after h.checksum frames) frame with
      | none => some .stop
      | some f => some (.accept (r.acceptFrame f f.checksum)) := by
  have hhead : (frame.take 8).length % 8 = 0 := by
    rw [length_take, hlen, frameSize, walFrameHeaderSize, Nat.min_eq_left (by omega)]
  have hpage : (frame.drop walFrameHeaderSize).length % 8 = 0 := by
    rw [length_drop, hlen, frameSize, Nat.add_sub_cancel_left]
    exact hvalid.mod_eight
  rw [StreamingWalReader.processFrame]
  simp only [hs.header, hs.native, hs.cumulative, checksumWal_eq hhead, checksumWal_eq hpage,
    bind_eq_bind, bind_some]
  generalize h.records.after h.checksum frames = c
  simp only [records, hlen, true_and]
  generalize hfh : parseWalFrameHeader frame = fh
  generalize hcomputed : checksumLoop (wordOrder h.magic).ofBytes (frame.drop walFrameHeaderSize)
    (checksumLoop (wordOrder h.magic).ofBytes (frame.take 8) c) = computed
  split
  next hnumber =>
    rw [if_neg fun hall => hall.1 hnumber]
  next hnumber =>
    split
    next hsalts =>
      rw [if_neg fun hall => hsalts.elim (· hall.2.1) (· hall.2.2.1)]
    next hsalts =>
      rw [not_or, not_not, not_not] at hsalts
      split
      next hne =>
        rw [if_neg fun hall => hne hall.2.2.2]
      next heq =>
        rw [not_not] at heq
        rw [if_pos ⟨hnumber, hsalts.1, hsalts.2, heq⟩, heq]

theorem Scanned.processFrames (hvalid : PageSize.Valid h.pageSize) {buf : List UInt8}
    (hs : r.Scanned target h frames) (hn : n * h.frameSize ≤ buf.length) :
    ∃ r', processFrames target n buf r = some
        ((h.records.accepted n (h.records.after h.checksum frames) buf).length * h.frameSize, r') ∧
      r'.Scanned target h
        (frames ++ h.records.accepted n (h.records.after h.checksum frames) buf) ∧
      r.SameProgress r' := by
  induction n generalizing r frames buf with
  | zero =>
    rw [accepted, length_nil, zero_mul, append_nil]
    exact ⟨r, rfl, hs, rfl, rfl, rfl⟩
  | succ n ih =>
    rw [succ_mul] at hn
    have hsize : walFrameHeaderSize + r.state.pageSize = h.frameSize := by
      rw [hs.pageSize, frameSize]
    have hlen : (buf.take h.frameSize).length = h.frameSize := by
      rw [length_take]
      omega
    rw [processFrames]
    simp only [hsize, hs.processFrame hvalid hlen]
    cases hnext : h.records.next (h.records.after h.checksum frames) (buf.take h.frameSize) with
    | none =>
      rw [accepted_stop hnext, length_nil, zero_mul, append_nil]
      exact ⟨r, rfl, hs, rfl, rfl, rfl⟩
    | some f =>
      obtain ⟨hscanned, hsame⟩ := hs.acceptFrame f
      obtain ⟨r', hread, hscanned', hsame'⟩ := ih hscanned
        (show n * h.frameSize ≤ (buf.drop h.frameSize).length by rw [length_drop]; omega)
      rw [after_concat] at hread hscanned'
      rw [accepted_cons hnext, length_cons, succ_mul, add_comm]
      simp only [hread]
      rw [append_assoc] at hscanned'
      exact ⟨r', rfl, hscanned', hsame.trans hsame'⟩

structure Recovered (h : WalHeader) (frames : List WalFrameHeader)
    (shared : WalFileShared Checksum) :
    Prop where
  maxFrame : shared.maxFrame = (committed frames).length
  lastChecksum : shared.lastChecksum = h.records.after h.checksum (committed frames)
  indexed : ∀ page, shared.frameCache.frames page =
    positions (pageOf frames) (committed frames).length page
  initialized : shared.initialized = true
  nbackfills : shared.nbackfills = 0

theorem Scanned.finalizeLoading (hs : r.Scanned target h frames) :
    r.finalizeLoading.Scanned target h frames ∧ Recovered h frames r.finalizeLoading.shared := by
  have hframes : ∀ page, r.finalizeLoading.shared.frameCache.frames page =
      r.shared.frameCache.frames page := by
    intro page
    rw [StreamingWalReader.finalizeLoading]
    simp only
    split
    · rw [FrameCache.frames_retain rfl, hs.indexed, hs.lastValidFrame]
      exact filter_eq_self.2 fun f hf => decide_eq_true (mem_positions.1 hf).2.1
    · rfl
  refine ⟨⟨hs.header, hs.pageSize, hs.native, hs.headerValid, hs.frameIdx, hs.cumulative,
    hs.lastValidFrame, hs.lastValidChecksum, ?_, ?_⟩, hs.lastValidFrame, hs.lastValidChecksum, ?_,
    ?_, rfl⟩
  · intro page
    rw [hframes, hs.indexed]
  · intro page
    rw [hframes]
    exact hs.pending page
  · intro page
    rw [hframes, hs.indexed]
  · rw [StreamingWalReader.finalizeLoading]
    simp [hs.headerValid]

variable {file : List UInt8}

structure Reading (target : Endian) (h : WalHeader) (file : List UInt8)
    (frames : List WalFrameHeader) (r : StreamingWalReader) : Prop where
  scanned : r.Scanned target h frames
  offset : r.offset = walHeaderSize + frames.length * h.frameSize
  pageSize : r.pageSize = h.pageSize.toNat
  finished : r.done → Recovered h frames r.shared ∧
    frames = h.validFrames (file.drop walHeaderSize)
  rest : r.done = false → h.validFrames (file.drop walHeaderSize) =
    frames ++ h.records.accepted ((file.drop r.offset).length / h.frameSize)
      (h.records.after h.checksum frames) (file.drop r.offset)

theorem Scanned.moveTo (hs : r.Scanned target h frames) (offset : Nat) :
    Scanned target h frames { r with offset } :=
  ⟨hs.header, hs.pageSize, hs.native, hs.headerValid, hs.frameIdx, hs.cumulative,
    hs.lastValidFrame, hs.lastValidChecksum, hs.indexed, hs.pending⟩

theorem Reading.submitOneChunk (hvalid : PageSize.Valid h.pageSize)
    (hr : r.Reading target h file frames) (hdone : r.done = false) (hlt : r.offset < file.length)
    (chunkFrames : Nat) :
    ∃ r' frames', r.submitOneChunk target file chunkFrames = some r' ∧
      r'.Reading target h file frames' ∧ (r'.done = false → r.offset < r'.offset) := by
  have hfs : 0 < h.frameSize := lt_of_lt_of_le (by decide) (le_add_right _ _)
  have hpage : r.pageSize ≠ 0 := by
    have := hvalid.1
    rw [hr.pageSize]
    omega
  have hframeSize : walFrameHeaderSize + r.pageSize = h.frameSize := by
    rw [hr.pageSize, frameSize]
  have hstate : walFrameHeaderSize + r.state.pageSize = h.frameSize := by
    rw [hr.scanned.pageSize, frameSize]
  obtain ⟨m, hm⟩ : ∃ m, max (chunkFrames * h.frameSize) h.frameSize = (m + 1) * h.frameSize := by
    rcases le_total chunkFrames 1 with hle | hle
    · refine ⟨0, ?_⟩
      rw [Nat.max_eq_right (Nat.mul_le_of_le_div _ _ _ (by rwa [Nat.div_self hfs])), Nat.zero_add,
        one_mul]
    · refine ⟨chunkFrames - 1, ?_⟩
      rw [Nat.sub_add_cancel hle, Nat.max_eq_left (Nat.le_mul_of_pos_left _ hle)]
  have hrest := hr.rest hdone
  have hlen : (file.drop r.offset).length = file.length - r.offset := length_drop
  rw [StreamingWalReader.submitOneChunk, if_neg hpage]
  simp only [hframeSize, hm]
  rw [← hlen]
  generalize hsource : file.drop r.offset = source at hrest hlen
  generalize hl : min ((m + 1) * h.frameSize) source.length = l
  have hpos : 0 < l := by
    rw [← hl, succ_mul]
    omega
  have hbuf : (source.take l).length = l := by
    rw [length_take]
    omega
  have htake : l / h.frameSize * h.frameSize ≤ l := div_mul_le_self l h.frameSize
  obtain ⟨r', hread, hscanned, hsame⟩ := hr.scanned.processFrames hvalid (htake.trans hbuf.ge)
  obtain ⟨hstop, hgo⟩ := h.records.accepted_chunk
    (c := h.records.after h.checksum frames) hfs hl.symm
  rw [accepted_take htake] at hread hscanned
  rw [if_neg hpos.ne', handleChunkRead, hstate, hbuf, hread]
  generalize hacc : h.records.accepted (l / h.records.size) (h.records.after h.checksum frames)
    source = acc at hstop hgo
  have hacc' : h.records.accepted (l / h.frameSize) (h.records.after h.checksum frames) source =
    acc := hacc
  rw [hacc'] at hscanned ⊢
  have hoffset : r'.offset + acc.length * h.frameSize =
      walHeaderSize + (frames ++ acc).length * h.frameSize := by
    rw [hsame.offset, hr.offset, length_append, add_mul, add_assoc]
  have hle : acc.length * h.frameSize ≤ l := by
    rw [← hacc]
    exact (mul_le_mul_right _ length_accepted_le).trans htake
  have hscanned' := hscanned.moveTo (r'.offset + acc.length * h.frameSize)
  simp only [bind_eq_bind, bind_some]
  split
  next hcond =>
    have hall : h.records.accepted (source.length / h.frameSize) (h.records.after h.checksum frames)
        source = acc := by
      rcases lt_or_eq_of_le hle with hlt' | heq
      · exact hstop hlt'
      have hnil : source.drop l = [] := by
        rw [hsame.offset] at hcond
        exact drop_eq_nil_of_le (by omega)
      refine (hgo heq).trans ?_
      rw [hnil, length_nil, Nat.zero_div]
      exact append_nil _
    refine ⟨_, frames ++ acc, rfl, ⟨hscanned'.finalizeLoading.1, hoffset,
      hsame.pageSize.trans hr.pageSize, fun _ => ⟨hscanned'.finalizeLoading.2, ?_⟩, ?_⟩, ?_⟩
    · rw [hrest, hall]
    · rintro ⟨⟩
    · rintro ⟨⟩
  next hcond =>
    have heq : acc.length * h.frameSize = l := by omega
    have hdone' : r'.done = false := hsame.done.trans hdone
    have hdrop : file.drop (r'.offset + acc.length * h.frameSize) = source.drop l := by
      rw [hsame.offset, heq, ← hsource, drop_drop]
    refine ⟨_, frames ++ acc, rfl,
      ⟨hscanned', hoffset, hsame.pageSize.trans hr.pageSize, ?_, ?_⟩, ?_⟩
    · intro htrue
      simp only [hdone'] at htrue
      cases htrue
    · intro _
      have := hgo heq
      rw [hrest, after_append, hdrop, append_assoc]
      exact congrArg _ this
    · intro _
      simp only [hsame.offset]
      omega

theorem Reading.readChunks (hvalid : PageSize.Valid h.pageSize) (chunkFrames : Nat → Nat)
    {fuel : Nat} (hr : r.Reading target h file frames) (hfuel : file.length - r.offset < fuel) :
    ∃ r', r.readChunks target file chunkFrames fuel = some r' ∧
      Recovered h (h.validFrames (file.drop walHeaderSize)) r'.shared := by
  induction fuel generalizing r frames with
  | zero => omega
  | succ fuel ih =>
    rw [readChunks]
    split
    next hdone =>
      obtain ⟨hrecovered, rfl⟩ := hr.finished hdone
      exact ⟨r, rfl, hrecovered⟩
    next hdone =>
      rw [Bool.not_eq_true] at hdone
      split
      next hend =>
        have hrest := hr.rest hdone
        rw [drop_eq_nil_of_le hend, length_nil, Nat.zero_div, accepted,
          append_nil] at hrest
        exact ⟨_, rfl, hrest ▸ hr.scanned.finalizeLoading.2⟩
      next hlt =>
        obtain ⟨r', frames', hread, hr', hmore⟩ :=
          hr.submitOneChunk hvalid hdone (Nat.lt_of_not_le hlt) (chunkFrames r.offset)
        rw [hread]
        simp only
        split
        next hle =>
          have hdone' : r'.done := by
            cases hd : r'.done with
            | true => rfl
            | false => exact absurd (hmore hd) (by omega)
          obtain ⟨-, rfl⟩ := hr'.finished hdone'
          exact ⟨_, rfl, hr'.scanned.finalizeLoading.2⟩
        · exact ih hr' (by omega)

theorem handleHeaderRead_encode (target : Endian) (hvalid : h.Valid) (bytes : List UInt8) :
    ∃ r, (new target).handleHeaderRead target h.encode = some r ∧
      r.Reading target h (h.encode ++ bytes) [] := by
  have hlen : (h.encode.take 24).length % 8 = 0 := by
    rw [length_take, h.length_encode]
    rfl
  have hnew : PageSize.new h.pageSize ≠ none := by
    rw [PageSize.new, dif_pos hvalid.pageSize]
    exact some_ne_none _
  rw [handleHeaderRead, if_neg (not_not.2 h.length_encode)]
  simp only [h.decode_encode, checksumWal_eq hlen, hvalid.checksum, bind_eq_bind,
    bind_some]
  rw [if_neg (by simp [hnew])]
  refine ⟨_, rfl, ⟨⟨rfl, rfl, rfl, rfl, rfl, rfl, rfl, rfl, .empty, fun _ => rfl⟩, ?_, rfl, ?_, ?_⟩⟩
  · rw [length_nil, zero_mul]
    rfl
  · rintro ⟨⟩
  · intro _
    rfl

end StreamingWalReader

theorem buildSharedWal_spec {h : WalHeader} (hvalid : h.Valid) (target : Endian)
    (bytes : List UInt8) (chunkFrames : Nat → Nat) :
    ∃ shared, buildSharedWal target (h.encode ++ bytes) chunkFrames = some shared ∧
      Recovered h (h.validFrames bytes) shared := by
  have hlen := h.length_encode
  obtain ⟨r, hheader, hr⟩ := handleHeaderRead_encode target hvalid bytes
  obtain ⟨r', hread, hrecovered⟩ := hr.readChunks hvalid.pageSize chunkFrames
    (show (h.encode ++ bytes).length - r.offset < (h.encode ++ bytes).length + 1 by omega)
  rw [drop_left' hlen] at hrecovered
  refine ⟨r'.shared, ?_, hrecovered⟩
  rw [buildSharedWal, if_neg (by rw [length_append]; omega), take_left' hlen, hheader]
  simp only [bind_eq_bind, bind_some, hread]

end PgMicro.Wal
