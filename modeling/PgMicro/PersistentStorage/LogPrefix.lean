import PgMicro.PersistentStorage.LogWriter

/-!
# Prefix semantics of the logical log

The reader accepts the longest chain of frames at the start of the log and stops at its end,
from where the writer goes on.
-/

namespace PgMicro.PersistentStorage

open Codec Mvcc Storage List LogHeader Reader

section

variable {crc : Crc32c} {src : Source} {r : Reader} {pos : Nat} {ι : Type}
  {getIndexInfo : MVTableId → ι} {c : UInt32} {bytes : List UInt8}

theorem parseFrame_eq_none (h : bytes.length < txMinFrameSize) : parseFrame crc c bytes = none := by
  rw [Option.eq_none_iff_forall_not_mem]
  rintro ⟨ops, c', rest⟩ hmem
  obtain ⟨frame, rfl, hframe⟩ := parseFrame_eq_some hmem
  have hmin := hframe.txMinFrameSize_le
  rw [length_append] at h
  omega

theorem Reader.parseNextTransaction_spec (crc : Crc32c) (hat : At src pos r.input)
    (hvalid : r.lastValidOffset = pos) :
    match parseFrame crc r.runningCrc (src.file.drop pos) with
    | some (ops, c', rest) => ∃ pos' input, r.parseNextTransaction crc src =
        (.ok (.ops ops), { r with input, lastValidOffset := pos', runningCrc := c' }) ∧
        At src pos' input ∧ src.file.drop pos' = rest
    | none => ∃ result input, (result = .eof ∨ result = .invalidFrame) ∧
        r.parseNextTransaction crc src = (.ok result, { r with input }) := by
  have hstart : r.input.offset - r.input.bytesCanRead = pos := by
    have := hat.pos_add
    omega
  have hkeep : ∀ input, { r with input, lastValidOffset := pos } = { r with input } := by
    rintro input
    rw [← hvalid]
  have hmin : txHeaderSize ≤ txMinFrameSize := by decide
  rw [parseNextTransaction, hat.remainingBytes_eq]
  by_cases hshort : (src.file.drop pos).length < txMinFrameSize
  · rw [parseFrame_eq_none hshort, if_pos hshort]
    exact ⟨_, r.input, .inl rfl, rfl⟩
  rw [if_neg hshort]
  have hheaderLen : ¬ (src.file.drop pos).length < txHeaderSize := by omega
  obtain ⟨input, hheader, hat1⟩ := hat.tryConsumeBytes_ok CorruptError.shortRead hheaderLen
  rw [hheader, parseFrame, InMemory.consume_eq, if_neg hheaderLen]
  simp only [hstart]
  set headerBytes := (src.file.drop pos).take txHeaderSize
  by_cases hmagic : ofLE (headerBytes.take 4) ≠ frameMagic
  · rw [if_pos hmagic, if_pos hmagic, hkeep]
    exact ⟨_, input, .inr rfl, rfl⟩
  rw [if_neg hmagic, if_neg hmagic]
  rw [drop_drop]
  rcases (simulates_parseStreamingPayload CorruptError.shortRead crc
    (ofLE ((headerBytes.drop 12).take 4)) (ofLE ((headerBytes.drop 4).take 8))
    (ofLE ((headerBytes.drop 16).take 8)) (crc.append r.runningCrc headerBytes)).cases hat1 with
    ⟨⟨ops, c'⟩, pos2, input2, hmemory, hstream, hat2⟩ | ⟨input2, hmemory, hstream⟩ |
    ⟨e, input2, hmemory, hstream⟩
  · rw [hmemory, hstream]
    simp only [InMemory.consume_eq]
    by_cases htrailerLen : (src.file.drop pos2).length < txTrailerSize
    · rw [if_pos htrailerLen, hat2.tryConsumeBytes_eof _ htrailerLen]
      exact ⟨_, input2, .inl rfl, rfl⟩
    obtain ⟨input3, htrailer, hat3⟩ :=
      hat2.tryConsumeBytes_ok CorruptError.shortRead htrailerLen
    have hend : input3.offset - input3.bytesCanRead = pos2 + txTrailerSize := by
      have := hat3.pos_add
      omega
    rw [if_neg htrailerLen, htrailer]
    simp only [hkeep, hend]
    by_cases hcrc : ofLE (((src.file.drop pos2).take txTrailerSize).take 4) ≠ c'.toNat
    · rw [if_pos hcrc, if_pos hcrc]
      exact ⟨_, input3, .inr rfl, rfl⟩
    rw [if_neg hcrc, if_neg hcrc]
    by_cases hmagic : ofLE (((src.file.drop pos2).take txTrailerSize).drop 4) ≠ endMagic
    · rw [if_pos hmagic, if_pos hmagic]
      exact ⟨_, input3, .inr rfl, rfl⟩
    · rw [if_neg hmagic, if_neg hmagic]
      exact ⟨_, input3, rfl, hat3, by rw [drop_drop]⟩
  · rw [hmemory, hstream]
    exact ⟨_, input2, .inl rfl, rfl⟩
  · rw [hmemory, hstream]
    simp only [hkeep]
    exact ⟨_, input2, .inr rfl, rfl⟩

inductive Accepted (crc : Crc32c) :
    UInt32 → List UInt8 → List (List ParsedOp) → UInt32 → List UInt8 → Prop where
  | stop {c : UInt32} {bytes : List UInt8} (h : parseFrame crc c bytes = none) :
      Accepted crc c bytes [] c bytes
  | frame {c c' c'' : UInt32} {bytes rest tail : List UInt8} {ops : List ParsedOp}
      {opss : List (List ParsedOp)} (h : parseFrame crc c bytes = some (ops, c', rest))
      (hrest : Accepted crc c' rest opss c'' tail) : Accepted crc c bytes (ops :: opss) c'' tail

theorem exists_accepted (crc : Crc32c) (c : UInt32) (bytes : List UInt8) :
    ∃ opss c' tail, Accepted crc c bytes opss c' tail := by
  induction hlen : bytes.length using Nat.strongRecOn generalizing c bytes with
  | ind n ih =>
    cases hframe : parseFrame crc c bytes with
    | none => exact ⟨[], c, bytes, .stop hframe⟩
    | some result =>
      obtain ⟨ops, c', rest⟩ := result
      obtain ⟨frame, rfl, hisFrame⟩ := parseFrame_eq_some hframe
      have hlt := hisFrame.length_lt
      rw [length_append] at hlen
      obtain ⟨opss, c'', tail, hrest⟩ := ih rest.length (by omega) c' rest rfl
      exact ⟨ops :: opss, c'', tail, .frame hframe hrest⟩

variable {opss : List (List ParsedOp)} {c' : UInt32} {tail : List UInt8}

theorem Accepted.frames (h : Accepted crc c bytes opss c' tail) :
    ∃ frames, Frames crc c frames opss c' ∧ bytes = frames.flatten ++ tail ∧
      parseFrame crc c' tail = none := by
  induction h with
  | stop hnone => exact ⟨[], .nil, rfl, hnone⟩
  | frame hframe _ ih =>
    obtain ⟨frame, rfl, hisFrame⟩ := parseFrame_eq_some hframe
    obtain ⟨frames, hframes, rfl, hnone⟩ := ih
    exact ⟨frame :: frames, .cons hisFrame hframes, by rw [flatten_cons, append_assoc],
      hnone⟩

theorem Frames.accepted {c'' : UInt32} {frames : List (List UInt8)} {opss' : List (List ParsedOp)}
    (h : Frames crc c frames opss c') (hrest : Accepted crc c' bytes opss' c'' tail) :
    Accepted crc c (frames.flatten ++ bytes) (opss ++ opss') c'' tail := by
  induction h with
  | nil => exact hrest
  | cons hframe _ ih =>
    rw [flatten_cons, append_assoc]
    exact .frame (hframe.parseFrame_append _) (ih hrest)

structure Reader.Between (src : Source) (pos : Nat) (c : UInt32) (bytes : List UInt8)
    (r : Reader) : Prop where
  at_ : At src pos r.input
  valid : r.lastValidOffset = pos
  crc : r.runningCrc = c
  rest : src.file.drop pos = bytes

theorem Reader.Between.pendingOps (h : r.Between src pos c bytes) (ops : List ParsedOp) :
    Reader.Between src pos c bytes { r with pendingOps := ops } :=
  ⟨h.at_, h.valid, h.crc, h.rest⟩

theorem Reader.Between.lastValidOffset_add (h : r.Between src pos c bytes) :
    r.lastValidOffset + bytes.length = src.file.length := by
  have hpos := h.at_.pos_add
  have hle := h.at_.inFile
  rw [h.valid, ← h.rest, length_drop]
  omega

variable {fuel : Nat}

theorem Reader.nextFrame_spec (hacc : Accepted crc c bytes opss c' tail)
    (getIndexInfo : MVTableId → ι) (hr : r.Between src pos c bytes) (hpending : r.pendingOps = [])
    (hfuel : bytes.length < fuel) :
    (opss.flatten = [] ∧ ∃ r', r.nextFrame crc src getIndexInfo fuel = some (.ok .eof, r') ∧
      r'.runningCrc = c' ∧ r'.lastValidOffset + tail.length = src.file.length) ∨
    ∃ op ops opss' c1 bytes1 pos1 r1, opss.flatten = op :: ops ++ opss'.flatten ∧
      r.nextFrame crc src getIndexInfo fuel = some (.ok (parsedOpToStreaming getIndexInfo op), r1) ∧
      r1.pendingOps = ops ∧ r1.Between src pos1 c1 bytes1 ∧ Accepted crc c1 bytes1 opss' c' tail ∧
      bytes1.length + ops.length < bytes.length := by
  induction hacc generalizing r pos fuel with
  | @stop c bytes hnone =>
    obtain ⟨fuel, rfl⟩ : ∃ n, fuel = n + 1 := ⟨fuel - 1, by omega⟩
    have hspec := r.parseNextTransaction_spec crc hr.at_ hr.valid
    rw [hr.rest, hr.crc, hnone] at hspec
    obtain ⟨result, input, hresult, heq⟩ := hspec
    refine .inl ⟨rfl, ?_⟩
    rw [nextFrame]
    split
    · exact ⟨r, rfl, hr.crc, hr.lastValidOffset_add⟩
    · rw [heq]
      rcases hresult with rfl | rfl <;> exact ⟨_, rfl, rfl, hr.lastValidOffset_add⟩
  | @frame c c1 c' bytes rest tail ops opss hframe hrest ih =>
    obtain ⟨fuel, rfl⟩ : ∃ n, fuel = n + 1 := ⟨fuel - 1, by omega⟩
    have hspec := r.parseNextTransaction_spec crc hr.at_ hr.valid
    rw [hr.rest, hr.crc, hframe] at hspec
    obtain ⟨pos', input, heq, hat', hdrop⟩ := hspec
    obtain ⟨frame, rfl, hisFrame⟩ := parseFrame_eq_some hframe
    have hmin := hisFrame.txMinFrameSize_le
    have hlt := hisFrame.length_lt
    have hbetween : Reader.Between src pos' c1 rest
        { r with input, lastValidOffset := pos', runningCrc := c1 } := ⟨hat', rfl, rfl, hdrop⟩
    rw [length_append] at hfuel ⊢
    rw [nextFrame, hr.at_.remainingBytes_eq, hr.rest,
      if_neg (by rw [length_append]; omega), heq]
    cases ops with
    | nil =>
      have hless : rest.length < fuel := by omega
      rcases ih hbetween hpending hless with hdone | ⟨op, ops, opss', c2, bytes2, pos2, r2, hflat,
        hnext, hops, hr2, hacc2, hless⟩
      · exact .inl hdone
      · exact .inr ⟨op, ops, opss', c2, bytes2, pos2, r2, hflat, hnext, hops, hr2, hacc2, by omega⟩
    | cons op ops =>
      rw [length_cons] at hlt
      exact .inr ⟨op, ops, opss, c1, rest, pos', _, rfl, rfl, rfl, hbetween.pendingOps ops, hrest,
        by omega⟩

theorem Reader.readAll_record {fuel : Nat} {op : ParsedOp} {r1 : Reader}
    (h : r.nextRecord crc src getIndexInfo (fuel + 1) =
      some (.ok (parsedOpToStreaming getIndexInfo op), r1)) :
    r.readAll crc src getIndexInfo (fuel + 1) = (r1.readAll crc src getIndexInfo fuel).map
      fun (results, r) => (parsedOpToStreaming getIndexInfo op :: results, r) := by
  rw [readAll, h]
  cases op <;> rfl

theorem Reader.readAll_spec (hacc : Accepted crc c bytes opss c' tail)
    (getIndexInfo : MVTableId → ι) (hr : r.Between src pos c bytes)
    (hfuel : bytes.length + r.pendingOps.length < fuel) :
    ∃ r', r.readAll crc src getIndexInfo fuel =
        some ((r.pendingOps ++ opss.flatten).map (parsedOpToStreaming getIndexInfo), r') ∧
      r'.runningCrc = c' ∧ r'.lastValidOffset + tail.length = src.file.length := by
  induction fuel generalizing r pos c bytes opss with
  | zero => omega
  | succ fuel ih =>
    cases hpending : r.pendingOps with
    | cons op ops =>
      rw [hpending, length_cons] at hfuel
      obtain ⟨r', hread, hcrc, hvalid⟩ := ih hacc (hr.pendingOps ops) (by simp only; omega)
      rw [readAll_record (by rw [nextRecord, hpending]), hread]
      exact ⟨r', rfl, hcrc, hvalid⟩
    | nil =>
      have hless : bytes.length < fuel + 1 := by omega
      rcases nextFrame_spec hacc getIndexInfo hr hpending
        hless with ⟨hflat, r', hnext, hcrc, hvalid⟩ | ⟨op, ops, opss', c2,
          bytes2, pos2, r2, hflat, hnext, hops, hr2, hacc2, hless⟩
      · rw [readAll, nextRecord, hpending]
        simp only [hnext, hflat]
        exact ⟨r', rfl, hcrc, hvalid⟩
      · obtain ⟨r', hread, hcrc, hvalid⟩ := ih hacc2 hr2 (by rw [hops]; omega)
        rw [readAll_record (by rw [nextRecord, hpending]; exact hnext), hread, hops,
          hflat]
        exact ⟨r', rfl, hcrc, hvalid⟩

end

section

variable {crc : Crc32c} {src : Source} {ι : Type} {getIndexInfo : MVTableId → ι} {salt : Nat}

/-- Read the header and then every record; `none` when the header is not valid, a read fails or
the fuel runs out. -/
def readLog (crc : Crc32c) (src : Source) (getIndexInfo : MVTableId → ι) (fuel : Nat) :
    Option (LogHeader × List (StreamingResult ι) × Reader) :=
  match new.tryReadHeader crc src with
  | (.valid header, r) => (r.readAll crc src getIndexInfo fuel).map fun result => (header, result)
  | _ => none

theorem readLog_spec (getIndexInfo : MVTableId → ι) (hsalt : salt < 2 ^ 64) {c' : UInt32}
    {bytes tail : List UInt8}
    {opss : List (List ParsedOp)} (hfile : src.file = (new salt).encode crc ++ bytes)
    (hacc : Accepted crc (deriveInitialCrc crc salt) bytes opss c' tail) {fuel : Nat}
    (hfuel : src.file.length < fuel) :
    ∃ r, readLog crc src getIndexInfo fuel =
        some (new salt, opss.flatten.map (parsedOpToStreaming getIndexInfo), r) ∧
      r.runningCrc = c' ∧ r.lastValidOffset + tail.length = src.file.length := by
  have hlen := length_encode_new crc salt
  have hheader : src.file.take logHdrSize = (new salt).encode crc := by
    rw [hfile, take_left' hlen]
  have hrest : src.file.drop logHdrSize = bytes := by rw [hfile, drop_left' hlen]
  have hlength : src.file.length = logHdrSize + bytes.length := by
    rw [hfile, length_append, hlen]
  have hhdrLen : ofLE ((((new salt).encode crc).drop 6).take 2) = logHdrSize := by
    rw [(encode_new_fields crc salt).2.2.2.1]
    rfl
  set r0 : Reader := ⟨⟨logHdrSize, [], 0⟩, some (new salt), [], logHdrSize,
    deriveInitialCrc crc salt⟩ with hr0
  have hread : new.tryReadHeader crc src = (.valid (new salt), r0) := by
    rw [tryReadHeader, if_neg (by omega), hheader]
    simp only [hhdrLen, ne_eq, not_true_eq_false, decode_encode_new hsalt]
    rfl
  have hbetween : r0.Between src logHdrSize (deriveInitialCrc crc salt) bytes :=
    ⟨⟨Nat.le_refl 0, by rw [hlength]; exact Nat.le_add_right .., rfl, rfl⟩, rfl, rfl, hrest⟩
  obtain ⟨r, hall, hcrc, hvalid⟩ := readAll_spec hacc getIndexInfo hbetween
    (by rw [hr0, length_nil]; omega : bytes.length + r0.pendingOps.length < fuel)
  refine ⟨r, ?_, hcrc, hvalid⟩
  rw [readLog, hread]
  simp only [hall]
  rfl

/-- **Prefix semantics.**  The header of a log, some of its frames and anything after them read
back as the operations of these frames and of the frames that happen to follow; what the reader
returns is where a writer goes on. -/
theorem log_read_back (crc : Crc32c) (getIndexInfo : MVTableId → ι) (hsalt : salt < 2 ^ 64)
    {txs : List (LogRecord (SortableIndexKey ι) DatabaseHeader × Bool)} {log : LogicalLog}
    (hlog : (LogicalLog.new []).appendAll crc salt txs = some log)
    (hfits : ∀ tx ∈ txs, Fits tx.1) (hne : txs ≠ []) :
    ∃ frames : List (List UInt8),
      log.file = (new salt).encode crc ++ frames.flatten ∧
      frames.length = txs.length ∧
      ∀ (k : Nat) (suffix : List UInt8) (src : Source) (fuel : Nat),
        src.file = (new salt).encode crc ++ (frames.take k).flatten ++ suffix →
        src.file.length < fuel →
        ∃ (c : UInt32) (accepted : List (List UInt8)) (opss : List (List ParsedOp))
          (tail : List UInt8) (r : Reader),
          Frames crc (deriveInitialCrc crc salt) (frames.take k)
            ((txs.take k).map fun tx => txOps tx.1) c ∧
          suffix = accepted.flatten ++ tail ∧
          Frames crc c accepted opss r.runningCrc ∧
          (∀ frame ops c', IsFrame crc r.runningCrc frame ops c' → ¬ frame <+: tail) ∧
          readLog crc src getIndexInfo fuel = some (new salt,
            (((txs.take k).map fun tx => txOps tx.1).flatten ++ opss.flatten).map
              (parsedOpToStreaming getIndexInfo), r) ∧
          r.lastValidOffset = ((new salt).encode crc ++ (frames.take k).flatten ++
            accepted.flatten).length ∧
          ∀ (salt' : Nat) (more : List (LogRecord (SortableIndexKey ι) DatabaseHeader × Bool))
            (log' : LogicalLog) (src' : Source) (fuel' : Nat), (∀ tx ∈ more, Fits tx.1) →
            (LogicalLog.restore src.file (new salt) r.lastValidOffset
              r.runningCrc).appendAll crc salt' more = some log' →
            src'.file = log'.file → src'.file.length < fuel' →
            ∃ (rest : List ParsedOp) (r' : Reader),
              readLog crc src' getIndexInfo fuel' = some (new salt,
                (((txs.take k).map fun tx => txOps tx.1).flatten ++ opss.flatten ++
                  (more.map fun tx => txOps tx.1).flatten ++ rest).map
                  (parsedOpToStreaming getIndexInfo), r') := by
  obtain ⟨frames, hframes, hfile⟩ := LogicalLog.appendAll_new hlog hfits hne
  refine ⟨frames, hfile, by rw [hframes.length_eq, length_map], ?_⟩
  intro k suffix src fuel hsrc hfuel
  obtain ⟨c, hkept⟩ := hframes.take k
  rw [← map_take] at hkept
  obtain ⟨opss, c', tail, hacc⟩ := exists_accepted crc c suffix
  obtain ⟨accepted, haccepted, rfl, hstop⟩ := hacc.frames
  obtain ⟨r, hread, rfl, hvalid⟩ :=
    readLog_spec getIndexInfo hsalt hsrc (hkept.accepted hacc) hfuel
  have hoffset : r.lastValidOffset = ((new salt).encode crc ++ (frames.take k).flatten ++
      accepted.flatten).length := by
    rw [hsrc] at hvalid
    simp only [length_append] at hvalid ⊢
    omega
  rw [flatten_append] at hread
  refine ⟨c, accepted, opss, tail, r, hkept, rfl, haccepted, ?_, hread, hoffset, ?_⟩
  · rintro frame ops c1 hframe ⟨rest, rfl⟩
    rw [hframe.parseFrame_append] at hstop
    cases hstop
  · intro salt' more log' src' fuel' hmore hlog' hsrc' hfuel'
    have hpre : src.file.take r.lastValidOffset =
        (new salt).encode crc ++ (frames.take k ++ accepted).flatten := by
      rw [hsrc, hoffset, flatten_append]
      simp only [← append_assoc]
      rw [take_left]
    obtain ⟨frames', hframes', hfile'⟩ := LogicalLog.appendAll_eq_some hlog' hmore
      (by
        have hlen := length_encode_new crc salt
        simp only [LogicalLog.restore, hoffset, length_append, hlen, logHdrSize]
        omega)
      (by simp only [LogicalLog.restore]; omega)
    obtain ⟨opss', c2, tail', hacc'⟩ := exists_accepted crc log'.runningCrc
      (src.file.drop (r.lastValidOffset + frames'.flatten.length))
    have hchain := ((hkept.append haccepted).append hframes').accepted hacc'
    have hsrc2 : src'.file = (new salt).encode crc ++
        ((frames.take k ++ accepted ++ frames').flatten ++
          src.file.drop (r.lastValidOffset + frames'.flatten.length)) := by
      rw [hsrc', hfile', pwrite]
      simp only [LogicalLog.restore]
      rw [hpre, Nat.sub_eq_zero_of_le (by omega)]
      simp
    obtain ⟨r', hread', _, _⟩ :=
      readLog_spec getIndexInfo hsalt hsrc2 hchain hfuel'
    refine ⟨opss'.flatten, r', ?_⟩
    rw [hread']
    simp

/-- The Castagnoli polynomial, lowest bit first. -/
def crcBit (c : UInt32) : UInt32 := if c &&& 1 = 1 then c >>> 1 ^^^ 0x82f63b78 else c >>> 1

def bitwiseCrc : Crc32c where
  append c bytes := ~~~bytes.foldl (fun c b => crcBit^[8] (c ^^^ b.toUInt32)) (~~~c)
  append_nil c := UInt32.not_not
  append_append c _ _ := by rw [UInt32.not_not, foldl_append]

def twoTxs : List (LogRecord (SortableIndexKey Unit) DatabaseHeader × Bool) :=
  [(⟨5, [⟨1, some (.txId 1), none, ⟨⟨-2, .int (-1)⟩, some [1, 2, 3], 1⟩, false⟩], none⟩, false),
    (⟨6, [⟨2, some (.timestamp 5), some (.txId 2), ⟨⟨-2, .int (-1)⟩, some [1, 2, 3], 1⟩, true⟩,
      ⟨3, some (.txId 2), none, ⟨⟨-3, .record ⟨[9], ()⟩⟩, none, 1⟩, false⟩], none⟩, true)]

theorem fits_twoTxs : ∀ tx ∈ twoTxs, Fits tx.1 := by
  intro tx htx
  have hall : ∀ tx ∈ twoTxs, tx.1.txTimestamp < 2 ^ 64 ∧
      (∀ rowVersion ∈ tx.1.rowVersions, RowidFits rowVersion) ∧
      ((serializeOps tx.1).all fun payload => payload.length < 2 ^ 64) ∧
      tx.1.header = none := by decide +kernel
  obtain ⟨hts, hrowids, hpayload, hheader⟩ := hall tx htx
  refine ⟨hts, hrowids, ?_, ?_⟩
  · intro payload hsome
    rw [hsome] at hpayload
    exact of_decide_eq_true hpayload
  · intro header hmem
    rw [hheader] at hmem
    cases hmem

/-- The first of two transactions is read back from a file that was cut inside the second. -/
theorem log_read_back_two : ∃ log, (LogicalLog.new []).appendAll bitwiseCrc 7 twoTxs = some log ∧
    ∃ frames : List (List UInt8), log.file = (new 7).encode bitwiseCrc ++ frames.flatten ∧
      frames.length = 2 ∧ ∀ src : Source,
        src.file = (new 7).encode bitwiseCrc ++ (frames.take 1).flatten ++ [0x4D] →
        ∃ rest r, readLog bitwiseCrc src (fun _ => ()) (src.file.length + 1) =
          some (new 7, (ParsedOp.upsertTable (-2) (-1) [1, 2, 3] 5 false :: rest).map
            (parsedOpToStreaming fun _ => ()), r) := by
  have hsome : ((LogicalLog.new []).appendAll bitwiseCrc 7 twoTxs).isSome := by decide +kernel
  obtain ⟨log, hlog⟩ := Option.isSome_iff_exists.1 hsome
  obtain ⟨frames, hfile, hlen, hread⟩ :=
    log_read_back bitwiseCrc (fun _ => ()) (by decide) hlog fits_twoTxs (by decide)
  refine ⟨log, hlog, frames, hfile, hlen, ?_⟩
  intro src hsrc
  obtain ⟨_, _, opss, _, r, _, _, _, _, hlog', _⟩ := hread 1 [0x4D] src _ hsrc (Nat.lt_succ_self _)
  exact ⟨opss.flatten, r, hlog'⟩

end

end PgMicro.PersistentStorage
