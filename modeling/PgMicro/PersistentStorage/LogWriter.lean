import PgMicro.PersistentStorage.LogFrames

/-!
# What the writer of the logical log leaves in the file

The header reads back, and every transaction is a frame with its own operations, chained to
the frame before it.
-/

namespace PgMicro.PersistentStorage

open Codec Mvcc Storage List Option LogHeader

section

variable {ι : Type} {rowVersion : RowVersion (SortableIndexKey ι)}
  {tx : LogRecord (SortableIndexKey ι) DatabaseHeader}

def toOp (commitTs : Nat) (rowVersion : RowVersion (SortableIndexKey ι)) : ParsedOp :=
  let tableId := rowVersion.row.id.tableId
  match rowVersion.row.id.rowId, rowVersion.end_.isSome with
  | .int rowid, false =>
    .upsertTable tableId rowid (rowVersion.row.data.getD []) commitTs rowVersion.btreeResident
  | .int rowid, true => .deleteTable tableId rowid commitTs rowVersion.btreeResident
  | .record key, false => .upsertIndex tableId key.key commitTs rowVersion.btreeResident
  | .record key, true => .deleteIndex tableId key.key commitTs rowVersion.btreeResident

def txOps (tx : LogRecord (SortableIndexKey ι) DatabaseHeader) : List ParsedOp :=
  tx.rowVersions.map (toOp tx.txTimestamp) ++
    tx.header.toList.map (ParsedOp.updateHeader · tx.txTimestamp)

def RowidFits (rowVersion : RowVersion (SortableIndexKey ι)) : Prop :=
  match rowVersion.row.id.rowId with
  | .int rowid => -2 ^ 63 ≤ rowid ∧ rowid < 2 ^ 63
  | .record _ => True

instance (rowVersion : RowVersion (SortableIndexKey ι)) : Decidable (RowidFits rowVersion) := by
  unfold RowidFits
  split <;> infer_instance

structure Fits (tx : LogRecord (SortableIndexKey ι) DatabaseHeader) : Prop where
  txTimestamp : tx.txTimestamp < 2 ^ 64
  rowids : ∀ rowVersion ∈ tx.rowVersions, RowidFits rowVersion
  size : ∀ payload, serializeOps tx = some payload → payload.length < 2 ^ 64
  header : ∀ header ∈ tx.header, header.magic = sqliteMagic

variable {bytes : List UInt8}

theorem opPayloadLen_eq (h : opPayload rowVersion = some bytes) :
    opPayloadLen rowVersion = some bytes.length := by
  rw [opPayload] at h
  rw [opPayloadLen]
  cases hkey : rowVersion.row.id.rowId with
  | int rowid =>
    simp only [hkey] at h ⊢
    split at h
    next hend =>
      cases h
      rw [if_pos hend, length_writeVarint (asUnsigned_lt 64 rowid)]
    next hend =>
      obtain ⟨data, hdata, rfl⟩ := map_eq_some_iff.1 h
      rw [if_neg hend, hdata, length_append, length_writeVarint (asUnsigned_lt 64 rowid)]
      rfl
  | record key =>
    simp only [hkey] at h ⊢
    rw [h]
    rfl

theorem checkOpHeader_opTag {tableId : Int} (h : tableId < 0) :
    checkOpHeader (opTag rowVersion).code
      (if rowVersion.btreeResident then opFlagBtreeResident else 0) tableId =
      .ok (opTag rowVersion) := by
  have hflags : (if rowVersion.btreeResident then opFlagBtreeResident else 0) &&&
      ~~~opFlagBtreeResident = 0 := by
    cases rowVersion.btreeResident <;> rfl
  have hne : opTag rowVersion ≠ .updateHeader := by
    rw [opTag]
    split <;> exact OpTag.noConfusion
  rw [checkOpHeader, OpTag.ofCode_code]
  cases htag : opTag rowVersion with
  | updateHeader => exact absurd htag hne
  | _ => simp [hflags, not_le.2 h]

theorem decodeOp_opTag (commitTs : Nat) (h : opPayload rowVersion = some bytes)
    (hrowid : RowidFits rowVersion) :
    decodeOp (opTag rowVersion) rowVersion.row.id.tableId rowVersion.btreeResident commitTs bytes =
      .ok (toOp commitTs rowVersion) := by
  rw [RowidFits] at hrowid
  rw [opPayload] at h
  rw [opTag, toOp]
  cases hkey : rowVersion.row.id.rowId with
  | int rowid =>
    simp only [hkey] at h hrowid ⊢
    have hread := readVarint_writeVarint (asUnsigned_lt 64 rowid)
    have hrowid' : asSigned 64 (asUnsigned 64 rowid) = rowid :=
      asSigned_asUnsigned (by decide) hrowid.1 hrowid.2
    cases hend : rowVersion.end_.isSome with
    | true =>
      rw [hend, if_pos rfl] at h
      cases h
      have := hread []
      rw [append_nil] at this
      simp [decodeOp, this, hrowid']
    | false =>
      rw [hend, if_neg Bool.false_ne_true] at h
      obtain ⟨data, hdata, rfl⟩ := map_eq_some_iff.1 h
      rw [payload, hkey] at hdata
      simp only [decodeOp, hread data, length_append, hrowid', hdata]
      rw [if_neg (by omega), drop_left, getD_some]
  | record key =>
    simp only [hkey, payload, some.injEq] at h ⊢
    subst h
    cases rowVersion.end_.isSome <;> rfl

theorem isOp_serializeOpEntry (commitTs : Nat) (h : serializeOpEntry rowVersion = some bytes)
    (hrowid : RowidFits rowVersion) (hsize : bytes.length < 2 ^ 64) :
    ∃ opBytes lenBytes payload, bytes = opBytes ++ lenBytes ++ payload ∧
      IsOp commitTs opBytes lenBytes payload (toOp commitTs rowVersion) := by
  rw [serializeOpEntry] at h
  split at h
  · cases h
  rename_i hneg
  split at h
  · cases h
  rename_i hrange
  have hlow : -2 ^ 31 ≤ rowVersion.row.id.tableId := (not_not.1 hrange).1
  have hhigh : rowVersion.row.id.tableId ≤ 2 ^ 31 - 1 := (not_not.1 hrange).2
  obtain ⟨payloadLen, hpayloadLen, hnext⟩ := bind_eq_some_iff.1 h
  obtain ⟨payload, hpayload, hbytes⟩ := bind_eq_some_iff.1 hnext
  cases hbytes
  rw [opPayloadLen_eq hpayload] at hpayloadLen
  cases hpayloadLen
  have hlen : payload.length < 2 ^ 64 := by
    rw [length_append] at hsize
    omega
  have htableId : opTableId ((opTag rowVersion).code ::
      (if rowVersion.btreeResident then opFlagBtreeResident else 0) ::
      toLE 4 (asUnsigned 32 rowVersion.row.id.tableId)) = rowVersion.row.id.tableId := by
    rw [opTableId, drop_succ_cons, drop_succ_cons, drop_zero,
      ofLE_toLE (asUnsigned_lt 32 _),
        asSigned_asUnsigned (by decide) hlow (Int.lt_of_le_sub_one hhigh)]
  have hresident : opResident ((opTag rowVersion).code ::
      (if rowVersion.btreeResident then opFlagBtreeResident else 0) ::
      toLE 4 (asUnsigned 32 rowVersion.row.id.tableId)) = rowVersion.btreeResident := by
    rw [opResident, getD_cons_succ, getD_cons_zero]
    cases rowVersion.btreeResident <;> rfl
  refine ⟨_, writeVarint payload.length, payload, rfl, by simp, ?_, ?_⟩
  · refine ⟨opTag rowVersion, ?_, ?_⟩
    · rw [htableId]
      exact checkOpHeader_opTag (not_not.1 hneg)
    · rw [htableId, hresident]
      exact decodeOp_opTag commitTs hpayload hrowid
  · have hread := readVarint_writeVarint hlen []
    rwa [append_nil] at hread

theorem isOps_rowVersions {commitTs : Nat} {rowVersions : List (RowVersion (SortableIndexKey ι))}
    {entries : List (List UInt8)} (h : rowVersions.mapM serializeOpEntry = some entries)
    (hrowids : ∀ rowVersion ∈ rowVersions, RowidFits rowVersion) {rest : List UInt8}
    {ops : List ParsedOp} (hrest : IsOps commitTs rest ops)
    (hsize : (entries.flatten ++ rest).length < 2 ^ 64) :
    IsOps commitTs (entries.flatten ++ rest) (rowVersions.map (toOp commitTs) ++ ops) := by
  induction rowVersions generalizing entries with
  | nil =>
    cases h
    exact hrest
  | cons rowVersion rowVersions ih =>
    rw [mapM_cons] at h
    obtain ⟨entry, hentry, hnext⟩ := bind_eq_some_iff.1 h
    obtain ⟨entries', hentries, hlast⟩ := bind_eq_some_iff.1 hnext
    cases hlast
    rw [flatten_cons, append_assoc] at hsize ⊢
    rw [length_append] at hsize
    obtain ⟨opBytes, lenBytes, payload, rfl, hop⟩ := isOp_serializeOpEntry commitTs
      hentry (hrowids _ mem_cons_self) (by omega)
    exact .cons hop (ih hentries (fun _ hmem => hrowids _ (mem_cons_of_mem _ hmem)) (by omega))

theorem isOps_header (commitTs : Nat) {header : Option DatabaseHeader}
    (h : ∀ header' ∈ header, header'.magic = sqliteMagic) :
    IsOps commitTs (header.elim [] serializeHeaderEntry)
      (header.toList.map (ParsedOp.updateHeader · commitTs)) := by
  cases header with
  | none => exact .nil
  | some header =>
    have hlen := header.length_eq
    have hread := readVarint_writeVarint (show databaseHeaderSize < 2 ^ 64 by decide) []
    rw [append_nil, ← hlen] at hread
    have hop : IsOp commitTs (OpTag.updateHeader.code :: 0 :: toLE 4 0)
        (writeVarint header.bytes.length) header.bytes (.updateHeader header commitTs) := by
      refine ⟨rfl, ⟨.updateHeader, rfl, ?_⟩, hread⟩
      rw [decodeOp, dif_pos hlen, if_neg (not_not.2 (h header rfl))]
    have hops := IsOps.cons hop IsOps.nil
    rw [append_nil, hlen] at hops
    exact hops

theorem length_txOps (tx : LogRecord (SortableIndexKey ι) DatabaseHeader) :
    (txOps tx).length = opCount tx := by
  rw [txOps, opCount, length_append, length_map, length_map]
  cases tx.header <;> rfl

theorem isFrame_serializeTx {crc : Crc32c} {c c' : UInt32} {frame : List UInt8}
    (h : serializeTx crc c tx = some (frame, c')) (hfits : Fits tx) :
    IsFrame crc c frame (txOps tx) c' := by
  rw [serializeTx] at h
  split at h
  next hcount =>
    obtain ⟨payload, hpayload, hlast⟩ := bind_eq_some_iff.1 h
    cases hlast
    have hsize := hfits.size _ hpayload
    obtain ⟨entries, hentries, hdone⟩ := bind_eq_some_iff.1 hpayload
    cases hdone
    have hops := isOps_rowVersions hentries hfits.rowids
      (isOps_header tx.txTimestamp hfits.header) hsize
    rw [← length_txOps] at hcount ⊢
    exact .mk hops hsize hcount hfits.txTimestamp
  · cases h

end

section

variable {crc : Crc32c} {salt : Nat}

theorem LogHeader.length_encode_new (crc : Crc32c) (salt : Nat) :
    ((new salt).encode crc).length = logHdrSize := by
  simp [encode, encodeFields, new, logHdrSize, logHdrReservedSize]

theorem LogHeader.encode_new_fields (crc : Crc32c) (salt : Nat) :
    ((new salt).encode crc).take 4 = toLE 4 logMagic ∧
    ((new salt).encode crc).getD 4 0 = logVersion ∧
    ((new salt).encode crc).getD 5 0 = 0 ∧
    (((new salt).encode crc).drop 6).take 2 = toLE 2 logHdrSize ∧
    (((new salt).encode crc).drop 8).take 8 = toLE 8 salt ∧
    (((new salt).encode crc).drop 16).take logHdrReservedSize =
      replicate logHdrReservedSize 0 ∧
    ((new salt).encode crc).take 52 = (new salt).encodeFields ∧
    (((new salt).encode crc).drop 52).take 4 =
      toLE 4 (crc.crc32c ((new salt).encodeFields ++ toLE 4 0)).toNat :=
  ⟨rfl, rfl, rfl, rfl, rfl, rfl, rfl, rfl⟩

theorem LogHeader.decode_encode_new (h : salt < 2 ^ 64) :
    decode crc ((new salt).encode crc) = some (new salt) := by
  obtain ⟨hmagic, hversion, hflags, hhdrLen, hsalt, hreserved, hfields, hcrc⟩ :=
    encode_new_fields crc salt
  have hlen : ¬ ((new salt).encode crc).length < logHdrSize := by
    exact lt_irrefl _
  have hcrc' := UInt32.toNat_lt (crc.crc32c ((new salt).encodeFields ++ toLE 4 0))
  rw [decode, if_neg hlen, hmagic, hversion, hflags, hhdrLen, hsalt, hreserved, hfields,
    hcrc, ofLE_toLE (show salt < 256 ^ 8 from h), ofLE_toLE (show _ < 256 ^ 4 from hcrc'),
    if_neg (by decide), if_neg (by decide), if_neg (by decide), if_neg (by decide),
    if_neg (not_not.2 rfl), if_neg (by decide)]
  rfl

end

section

variable {crc : Crc32c} {salt : Nat} {ι : Type}

inductive Frames (crc : Crc32c) :
    UInt32 → List (List UInt8) → List (List ParsedOp) → UInt32 → Prop where
  | nil {c : UInt32} : Frames crc c [] [] c
  | cons {c c' c'' : UInt32} {frame : List UInt8} {ops : List ParsedOp}
      {frames : List (List UInt8)} {opss : List (List ParsedOp)} (h : IsFrame crc c frame ops c')
      (hs : Frames crc c' frames opss c'') : Frames crc c (frame :: frames) (ops :: opss) c''

namespace Frames

variable {c c' c'' : UInt32} {frames frames' : List (List UInt8)}
  {opss opss' : List (List ParsedOp)}

section

variable (h : Frames crc c frames opss c')

include h

theorem length_eq : frames.length = opss.length := by
  induction h with
  | nil => rfl
  | cons _ _ ih => rw [length_cons, length_cons, ih]

theorem append (h' : Frames crc c' frames' opss' c'') :
    Frames crc c (frames ++ frames') (opss ++ opss') c'' := by
  induction h with
  | nil => exact h'
  | cons hframe _ ih => exact .cons hframe (ih h')

theorem take (k : Nat) : ∃ c1, Frames crc c (frames.take k) (opss.take k) c1 := by
  induction h generalizing k with
  | nil => exact ⟨_, by simpa using .nil⟩
  | @cons c _ _ frame ops frames opss hframe _ ih =>
    cases k with
    | zero => exact ⟨c, .nil⟩
    | succ k =>
      obtain ⟨c1, hframes⟩ := ih k
      exact ⟨c1, .cons hframe hframes⟩

end

end Frames

variable {file : List UInt8} {offset : Nat}

theorem pwrite_nil (h : offset ≤ file.length) : pwrite file offset [] = file := by
  rw [pwrite, Nat.sub_eq_zero_of_le h, replicate_zero, append_nil, append_nil,
    length_nil, Nat.add_zero, take_append_drop]

theorem pwrite_pwrite (h : offset ≤ file.length) (a b : List UInt8) :
    pwrite (pwrite file offset a) (offset + a.length) b = pwrite file offset (a ++ b) := by
  have hhead : (file.take offset ++ a).length = offset + a.length := by
    rw [length_append, length_take_of_le h]
  have hle : offset + a.length ≤
      (file.take offset ++ a ++ file.drop (offset + a.length)).length := by
    rw [length_append, hhead]
    exact Nat.le_add_right ..
  simp only [pwrite, Nat.sub_eq_zero_of_le h, replicate_zero, append_nil]
  rw [Nat.sub_eq_zero_of_le hle, take_left' hhead, ← hhead, drop_length_add_append,
    drop_drop, hhead, length_append, Nat.add_assoc]
  simp

namespace LogicalLog

variable {log log' : LogicalLog}

theorem prepareHeader_of_offset (h : log.offset ≠ 0) : log.prepareHeader crc salt = (log, []) := by
  rw [prepareHeader, if_neg h]

theorem prepareHeader_file (crc : Crc32c) (salt : Nat) (log : LogicalLog) :
    (log.prepareHeader crc salt).1.file = log.file ∧
      (log.prepareHeader crc salt).1.offset = log.offset := by
  rw [prepareHeader]
  split
  · split <;> exact ⟨rfl, rfl⟩
  · exact ⟨rfl, rfl⟩

variable {tx : LogRecord (SortableIndexKey ι) DatabaseHeader} {immediately : Bool}

theorem serializeAndPwriteTx_eq_some {bytes : Nat}
    (h : log.serializeAndPwriteTx crc salt tx immediately = some (log', bytes)) (hfits : Fits tx) :
    ∃ frame c', IsFrame crc (log.prepareHeader crc salt).1.runningCrc frame (txOps tx) c' ∧
      log'.file = pwrite log.file log.offset ((log.prepareHeader crc salt).2 ++ frame) ∧
      bytes = ((log.prepareHeader crc salt).2 ++ frame).length ∧
      if immediately then log'.offset = log.offset + bytes ∧ log'.runningCrc = c'
      else log'.offset = log.offset ∧ log'.pendingRunningCrc = some c' := by
  obtain ⟨hfile, hoffset⟩ := prepareHeader_file crc salt log
  obtain ⟨⟨frame, c'⟩, hframe, hlast⟩ := bind_eq_some_iff.1 h
  cases hlast
  refine ⟨frame, c', isFrame_serializeTx hframe hfits, ?_, rfl, ?_⟩
  · cases immediately <;> exact congrArg₂ (pwrite · · _) hfile hoffset
  · cases immediately
    · exact ⟨hoffset, rfl⟩
    · exact ⟨congrArg (· + _) hoffset, rfl⟩

theorem append_eq_some (h : log.append crc salt tx immediately = some log') (hfits : Fits tx) :
    ∃ frame, IsFrame crc (log.prepareHeader crc salt).1.runningCrc frame
      (txOps tx) log'.runningCrc ∧
      log'.file = pwrite log.file log.offset ((log.prepareHeader crc salt).2 ++ frame) ∧
      log'.offset = log.offset + ((log.prepareHeader crc salt).2 ++ frame).length := by
  rw [append] at h
  split at h
  · obtain ⟨⟨log1, bytes⟩, hwrite, rfl⟩ := map_eq_some_iff.1 h
    obtain ⟨frame, c', hframe, hfile, rfl, hoffset, rfl⟩ :=
      serializeAndPwriteTx_eq_some hwrite hfits
    exact ⟨frame, hframe, hfile, hoffset⟩
  obtain ⟨⟨log1, bytes⟩, hwrite, hadvance⟩ := bind_eq_some_iff.1 h
  obtain ⟨frame, c', hframe, hfile, rfl, hoffset, hpending⟩ :=
    serializeAndPwriteTx_eq_some hwrite hfits
  simp only [advanceOffsetAfterSuccess, hpending] at hadvance
  cases hadvance
  exact ⟨frame, hframe, hfile, congrArg (· + _) hoffset⟩

variable {txs : List (LogRecord (SortableIndexKey ι) DatabaseHeader × Bool)}

theorem appendAll_eq_some {txs : List (LogRecord (SortableIndexKey ι) DatabaseHeader × Bool)}
    (h : log.appendAll crc salt txs = some log') (hfits : ∀ tx ∈ txs, Fits tx.1)
    (hoffset : log.offset ≠ 0) (hle : log.offset ≤ log.file.length) :
    ∃ frames, Frames crc log.runningCrc frames (txs.map fun tx => txOps tx.1) log'.runningCrc ∧
      log'.file = pwrite log.file log.offset frames.flatten := by
  induction txs generalizing log with
  | nil =>
    cases h
    exact ⟨[], .nil, (pwrite_nil hle).symm⟩
  | cons tx txs ih =>
    obtain ⟨log1, hfirst, hnext⟩ := bind_eq_some_iff.1 h
    obtain ⟨frame, hframe, hfile, hoffset1⟩ := append_eq_some hfirst (hfits _ mem_cons_self)
    rw [prepareHeader_of_offset hoffset] at hframe hfile hoffset1
    rw [nil_append] at hfile hoffset1
    obtain ⟨frames, hframes, hfile'⟩ := ih hnext (fun _ hmem => hfits _ (mem_cons_of_mem _ hmem))
      (by omega) (by
        rw [hoffset1, hfile, pwrite]
        simp only [length_append, length_take_of_le hle]
        omega)
    refine ⟨frame :: frames, .cons hframe hframes, ?_⟩
    rw [hfile', hfile, hoffset1, pwrite_pwrite hle, flatten_cons]

theorem appendAll_new (h : (new []).appendAll crc salt txs = some log)
    (hfits : ∀ tx ∈ txs, Fits tx.1) (hne : txs ≠ []) :
    ∃ frames, Frames crc (deriveInitialCrc crc salt) frames (txs.map fun tx => txOps tx.1)
        log.runningCrc ∧
      log.file = (LogHeader.new salt).encode crc ++ frames.flatten := by
  cases txs with
  | nil => exact absurd rfl hne
  | cons tx txs =>
    obtain ⟨log1, hfirst, hnext⟩ := bind_eq_some_iff.1 h
    obtain ⟨frame, hframe, hfile, hoffset⟩ := append_eq_some hfirst (hfits _ mem_cons_self)
    have hwritten : ∀ bytes : List UInt8, pwrite (new []).file (new []).offset bytes = bytes := by
      intro bytes
      simp [pwrite, new]
    have hlen : log1.offset = log1.file.length := by
      rw [hoffset, hfile, hwritten]
      exact Nat.zero_add _
    have hpos : log1.offset ≠ 0 := by
      have hheader := length_encode_new crc salt
      rw [hoffset, length_append]
      exact Nat.ne_of_gt (Nat.add_pos_right _ (Nat.add_pos_left (hheader ▸ by decide) _))
    obtain ⟨frames, hframes, hfile'⟩ := appendAll_eq_some hnext
      (fun _ hmem => hfits _ (mem_cons_of_mem _ hmem)) hpos hlen.le
    refine ⟨frame :: frames, .cons hframe hframes, ?_⟩
    rw [hfile', hlen, pwrite, take_length, Nat.sub_self, replicate_zero, append_nil,
      drop_eq_nil_of_le (Nat.le_add_right ..), append_nil, hfile, hwritten,
      flatten_cons, append_assoc]
    rfl

end LogicalLog

end

end PgMicro.PersistentStorage
