import PgMicro.PersistentStorage.LogReader

/-!
# Frames of the logical log

What bytes are a frame, with which operations and which checksum, and that the reader takes
exactly these.
-/

namespace PgMicro.PersistentStorage

open Codec Mvcc Storage List InMemory

variable {payload headerBytes trailerBytes bytes rest : List UInt8} {n : Nat} {crc : Crc32c}
  {c c' : UInt32} {ops : List ParsedOp}

section

structure IsOp (commitTs : Nat) (opBytes lenBytes payload : List UInt8) (op : ParsedOp) : Prop where
  length_eq : opBytes.length = 6
  check : ∃ tag, checkOpHeader (opBytes.getD 0 0) (opBytes.getD 1 0) (opTableId opBytes) = .ok tag ∧
    decodeOp tag (opTableId opBytes) (opResident opBytes) commitTs payload = .ok op
  len : readVarint lenBytes = some (payload.length, lenBytes.length)

inductive IsOps (commitTs : Nat) : List UInt8 → List ParsedOp → Prop where
  | nil : IsOps commitTs [] []
  | cons {opBytes lenBytes payload rest : List UInt8} {op : ParsedOp} {ops : List ParsedOp}
      (h : IsOp commitTs opBytes lenBytes payload op) (hs : IsOps commitTs rest ops) :
      IsOps commitTs (opBytes ++ lenBytes ++ payload ++ rest) (op :: ops)

inductive IsFrame (crc : Crc32c) (c : UInt32) : List UInt8 → List ParsedOp → UInt32 → Prop where
  | mk {payload : List UInt8} {ops : List ParsedOp} {commitTs : Nat}
      (hops : IsOps commitTs payload ops) (hsize : payload.length < 2 ^ 64)
      (hcount : ops.length < 2 ^ 32) (hts : commitTs < 2 ^ 64) :
      IsFrame crc c
        (txHeader payload.length ops.length commitTs ++ payload ++
          txTrailer (crc.append c (txHeader payload.length ops.length commitTs ++ payload)))
        ops (crc.append c (txHeader payload.length ops.length commitTs ++ payload))

end

section

variable {v i value : Nat} {acc lenBytes out : List UInt8}

theorem consumeVarintFrom_append
    (h : readVarintFrom n v i lenBytes = some (value, i + lenBytes.length)) :
    (consumeVarintFrom n v acc : InMemory CorruptError _) (lenBytes ++ rest) =
      .ok ((value, acc ++ lenBytes), rest) := by
  induction lenBytes generalizing n v i acc with
  | nil => cases n <;> cases h
  | cons c lenBytes ih =>
    cases n with
    | zero =>
      rw [readVarintFrom] at h
      split at h
      · cases h
      next hlarge =>
        simp only [length_cons, Option.some.injEq, Prod.mk.injEq] at h
        obtain rfl : lenBytes = [] := length_eq_zero_iff.1 (by omega)
        rw [consumeVarintFrom, cons_append, bind_ok consumeByte_cons,
          if_neg hlarge, pure_apply, h.1, nil_append]
    | succ n =>
      rw [readVarintFrom] at h
      rw [consumeVarintFrom, cons_append, bind_ok consumeByte_cons]
      split at h
      next hlast =>
        simp only [length_cons, Option.some.injEq, Prod.mk.injEq] at h
        obtain rfl : lenBytes = [] := length_eq_zero_iff.1 (by omega)
        rw [if_pos hlast, pure_apply, h.1, nil_append]
      next hmarked =>
        rw [if_neg hmarked, ih (i := i + 1) (h.trans (by rw [length_cons]; congr 2; omega)),
          append_assoc, singleton_append]

theorem consumeVarintFrom_eq_ok
    (h : (consumeVarintFrom n v acc : InMemory CorruptError _) bytes = .ok ((value, out), rest)) :
    ∃ lenBytes, out = acc ++ lenBytes ∧ bytes = lenBytes ++ rest ∧
      readVarintFrom n v i lenBytes = some (value, i + lenBytes.length) := by
  induction n generalizing v i acc bytes with
  | zero =>
    obtain ⟨c, tail, hc, hnext⟩ := bind_eq_ok h
    obtain rfl := consumeByte_eq_ok hc
    split at hnext
    · cases hnext
    next hlarge =>
      cases hnext
      exact ⟨[c], rfl, rfl, by rw [readVarintFrom, if_neg hlarge]; rfl⟩
  | succ n ih =>
    obtain ⟨c, tail, hc, hnext⟩ := bind_eq_ok h
    obtain rfl := consumeByte_eq_ok hc
    split at hnext
    next hlast =>
      cases hnext
      exact ⟨[c], rfl, rfl, by rw [readVarintFrom, if_pos hlast]; rfl⟩
    next hmarked =>
      obtain ⟨lenBytes, rfl, rfl, hread⟩ := ih (i := i + 1) hnext
      refine ⟨c :: lenBytes, by rw [append_assoc, singleton_append], rfl, ?_⟩
      rw [readVarintFrom, if_neg hmarked, hread, length_cons]
      congr 2
      omega

end

section

variable {commitTs : Nat} {n' : Nat} {op : ParsedOp}

theorem parseStreamingOp_append {opBytes lenBytes : List UInt8}
    (h : IsOp commitTs opBytes lenBytes payload op)
    (hsize : n + (opBytes ++ lenBytes ++ payload).length < 2 ^ 64) :
    (parseStreamingOp crc commitTs c n : InMemory CorruptError _)
        (opBytes ++ lenBytes ++ payload ++ rest) =
      .ok ((op, crc.append c (opBytes ++ lenBytes ++ payload),
        n + (opBytes ++ lenBytes ++ payload).length), rest) := by
  obtain ⟨hlen, ⟨tag, hcheck, hdecode⟩, hvarint⟩ := h
  have htotal : (opBytes ++ lenBytes ++ payload).length =
      6 + lenBytes.length + payload.length := by
    rw [length_append, length_append, hlen]
  rw [htotal] at hsize ⊢
  rw [parseStreamingOp, append_assoc, append_assoc,
    bind_ok (consume_append hlen)]
  simp only [hcheck]
  rw [consumeVarintBytes, bind_ok (consumeVarintFrom_append (i := 0)
    (by rw [Nat.zero_add]; exact hvarint))]
  simp only [nil_append]
  rw [bind_ok (consume_append rfl), if_neg (by omega)]
  simp [hdecode, crc.append_append]

theorem parseStreamingOp_eq_ok
    (h : (parseStreamingOp crc commitTs c n : InMemory CorruptError _) bytes =
      .ok ((op, c', n'), rest)) :
    ∃ opBytes lenBytes payload, IsOp commitTs opBytes lenBytes payload op ∧
      bytes = opBytes ++ lenBytes ++ payload ++ rest ∧
      c' = crc.append c (opBytes ++ lenBytes ++ payload) ∧
      n' = n + (opBytes ++ lenBytes ++ payload).length := by
  obtain ⟨opBytes, tail, hop, hnext⟩ := bind_eq_ok h
  obtain ⟨rfl, hlen⟩ := consume_eq_ok hop
  cases hcheck : checkOpHeader (opBytes.getD 0 0) (opBytes.getD 1 0) (opTableId opBytes) with
  | error e =>
    simp only [hcheck] at hnext
    cases hnext
  | ok tag =>
    simp only [hcheck] at hnext
    obtain ⟨⟨payloadLen, lenBytes⟩, tail', hvarint, hdone⟩ := bind_eq_ok hnext
    obtain ⟨lenBytes, rfl, rfl, hread⟩ := consumeVarintFrom_eq_ok (i := 0) hvarint
    obtain ⟨payload, tail'', hpayload, hlast⟩ := bind_eq_ok hdone
    obtain ⟨rfl, rfl⟩ := consume_eq_ok hpayload
    split at hlast
    · cases hlast
    cases hdecode : decodeOp tag (opTableId opBytes) (opResident opBytes) commitTs payload with
    | error e =>
      simp only [hdecode] at hlast
      cases hlast
    | ok op' =>
      simp only [hdecode] at hlast
      cases hlast
      refine ⟨opBytes, lenBytes, payload, ⟨hlen, ⟨tag, hcheck, hdecode⟩, ?_⟩, ?_, ?_, ?_⟩
      · rw [readVarint, hread, Nat.zero_add]
      · simp only [append_assoc]
      · simp only [crc.append_append]
      · simp only [length_append, hlen]

theorem parseStreamingOps_append (crc : Crc32c) (rest : List UInt8) (h : IsOps commitTs bytes ops)
    (hsize : n + bytes.length < 2 ^ 64) :
    (parseStreamingOps crc commitTs ops.length c n : InMemory CorruptError _) (bytes ++ rest) =
      .ok ((ops, crc.append c bytes, n + bytes.length), rest) := by
  induction h generalizing c n with
  | nil => rw [crc.append_nil]; rfl
  | @cons opBytes lenBytes payload tail op ops hop hops ih =>
    rw [length_append] at hsize
    rw [length_cons, parseStreamingOps, append_assoc,
      bind_ok (parseStreamingOp_append hop (by omega))]
    simp only
    rw [bind_ok (ih (by omega))]
    simp only [crc.append_append]
    simp [Nat.add_assoc]

theorem parseStreamingOps_eq_ok {count : Nat}
    (h : (parseStreamingOps crc commitTs count c n : InMemory CorruptError _) bytes =
      .ok ((ops, c', n'), rest)) :
    ∃ payload, IsOps commitTs payload ops ∧ bytes = payload ++ rest ∧ count = ops.length ∧
      c' = crc.append c payload ∧ n' = n + payload.length := by
  induction count generalizing c n bytes ops c' n' rest with
  | zero =>
    cases h
    exact ⟨[], .nil, rfl, rfl, (crc.append_nil _).symm, rfl⟩
  | succ count ih =>
    obtain ⟨⟨op, c1, n1⟩, tail, hop, hnext⟩ := bind_eq_ok h
    obtain ⟨opBytes, lenBytes, payload, hisOp, rfl, rfl, rfl⟩ := parseStreamingOp_eq_ok hop
    obtain ⟨⟨ops', c2, n2⟩, tail', hops, hlast⟩ := bind_eq_ok hnext
    obtain ⟨payload', hisOps, rfl, rfl, rfl, rfl⟩ := ih hops
    cases hlast
    refine ⟨_, .cons hisOp hisOps, by rw [append_assoc _ payload'], rfl, ?_, ?_⟩
    · rw [crc.append_append]
    · simp [Nat.add_assoc]

end

section

@[simp]
theorem length_txHeader (payloadSize opCount commitTs : Nat) :
    (txHeader payloadSize opCount commitTs).length = txHeaderSize := by
  simp [txHeader, txHeaderSize]

@[simp]
theorem length_txTrailer (c : UInt32) : (txTrailer c).length = txTrailerSize := by
  simp [txTrailer, txTrailerSize]

theorem txHeader_fields (payloadSize opCount commitTs : Nat) :
    (txHeader payloadSize opCount commitTs).take 4 = toLE 4 frameMagic ∧
    ((txHeader payloadSize opCount commitTs).drop 4).take 8 = toLE 8 payloadSize ∧
    ((txHeader payloadSize opCount commitTs).drop 12).take 4 = toLE 4 opCount ∧
    ((txHeader payloadSize opCount commitTs).drop 16).take 8 = toLE 8 commitTs := by
  refine ⟨?_, ?_, ?_, ?_⟩ <;> simp [txHeader, drop_append, drop_eq_nil_of_le]

theorem eq_txHeader (hlen : headerBytes.length = txHeaderSize)
    (hmagic : ofLE (headerBytes.take 4) = frameMagic) :
    headerBytes = txHeader (ofLE ((headerBytes.drop 4).take 8))
      (ofLE ((headerBytes.drop 12).take 4)) (ofLE ((headerBytes.drop 16).take 8)) := by
  rw [txHeaderSize] at hlen
  have hsize : ((headerBytes.drop 4).take 8).length = 8 := by
    rw [length_take, length_drop]
    omega
  have hcount : ((headerBytes.drop 12).take 4).length = 4 := by
    rw [length_take, length_drop]
    omega
  have hts : (headerBytes.drop 16).length = 8 := by rw [length_drop, hlen]
  rw [txHeader, ← hmagic, toLE_ofLE_of_length (by rw [length_take]; omega),
    toLE_ofLE_of_length hsize, toLE_ofLE_of_length hcount, take_of_length_le hts.le,
    toLE_ofLE_of_length hts]
  have h3 := take_append_drop 4 (headerBytes.drop 12)
  have h2 := take_append_drop 8 (headerBytes.drop 4)
  rw [drop_drop] at h2 h3
  rw [append_assoc, append_assoc, h3, h2, take_append_drop]

theorem eq_txTrailer {c : UInt32} (hlen : trailerBytes.length = txTrailerSize)
    (hcrc : ofLE (trailerBytes.take 4) = c.toNat) (hmagic : ofLE (trailerBytes.drop 4) = endMagic) :
    trailerBytes = txTrailer c := by
  rw [txTrailerSize] at hlen
  rw [txTrailer, ← hcrc, ← hmagic, toLE_ofLE_of_length (by rw [length_take]; omega),
    toLE_ofLE_of_length (by rw [length_drop]; omega), take_append_drop]

end

section

variable {frame : List UInt8}

def parseFrame (crc : Crc32c) (c : UInt32) (bytes : List UInt8) :
    Option (List ParsedOp × UInt32 × List UInt8) :=
  match (ByteSource.consume txHeaderSize : InMemory CorruptError _) bytes with
  | .ok (headerBytes, rest) =>
    if ofLE (headerBytes.take 4) ≠ frameMagic then none
    else
      let payload : InMemory CorruptError (List ParsedOp × UInt32) :=
        parseStreamingPayload crc (ofLE ((headerBytes.drop 12).take 4))
          (ofLE ((headerBytes.drop 4).take 8)) (ofLE ((headerBytes.drop 16).take 8))
          (crc.append c headerBytes)
      match payload rest with
      | .ok ((ops, c'), rest) =>
        match (ByteSource.consume txTrailerSize : InMemory CorruptError _) rest with
        | .ok (trailerBytes, rest) =>
          if ofLE (trailerBytes.take 4) ≠ c'.toNat then none
          else if ofLE (trailerBytes.drop 4) ≠ endMagic then none
          else some (ops, c', rest)
        | _ => none
      | _ => none
  | _ => none

theorem IsFrame.parseFrame_append (h : IsFrame crc c frame ops c') (rest : List UInt8) :
    parseFrame crc c (frame ++ rest) = some (ops, c', rest) := by
  obtain @⟨payload, _, commitTs, hops, hsize, hcount, hts⟩ := h
  obtain ⟨hmagic, hpayload, hopCount, hcommitTs⟩ :=
    txHeader_fields payload.length ops.length commitTs
  have hparse := parseStreamingOps_append crc
    (txTrailer (crc.append c (txHeader payload.length ops.length commitTs ++ payload)) ++ rest)
    hops (n := 0) (c := crc.append c (txHeader payload.length ops.length commitTs)) (by omega)
  rw [Nat.zero_add, crc.append_append] at hparse
  have htrailer : ∀ c : UInt32, ofLE ((txTrailer c).take 4) = c.toNat ∧
      ofLE ((txTrailer c).drop 4) = endMagic := by
    intro c
    have hc : c.toNat < 256 ^ 4 := c.toNat_lt
    constructor
    · rw [txTrailer, take_left' (length_toLE 4 _), ofLE_toLE hc]
    · rw [txTrailer, drop_left' (length_toLE 4 _), ofLE_toLE (by decide)]
  rw [parseFrame, append_assoc, append_assoc,
    consume_append (length_txHeader ..)]
  simp only [hmagic, hpayload, hopCount, hcommitTs]
  rw [if_neg (not_not.2 (ofLE_toLE (by decide))), ofLE_toLE (by omega), ofLE_toLE (by omega),
    ofLE_toLE (by omega), parseStreamingPayload, bind_ok hparse]
  simp only [ne_eq, not_true_eq_false, if_false, pure_apply]
  rw [consume_append (length_txTrailer _)]
  simp [htrailer]

theorem IsFrame.of_parts (hlen : headerBytes.length = txHeaderSize)
    (hmagic : ofLE (headerBytes.take 4) = frameMagic)
    (hsize : ofLE ((headerBytes.drop 4).take 8) = payload.length)
    (hcount : ofLE ((headerBytes.drop 12).take 4) = ops.length)
    (hops : IsOps (ofLE ((headerBytes.drop 16).take 8)) payload ops)
    (hlen' : trailerBytes.length = txTrailerSize)
    (hcrc : ofLE (trailerBytes.take 4) = (crc.append c (headerBytes ++ payload)).toNat)
    (hend : ofLE (trailerBytes.drop 4) = endMagic) :
    IsFrame crc c (headerBytes ++ payload ++ trailerBytes) ops
      (crc.append c (headerBytes ++ payload)) := by
  have hbound : ∀ {field : List UInt8} {width : Nat}, field.length ≤ width →
      ofLE field < 256 ^ width :=
    fun h => (ofLE_lt _).trans_le (Nat.pow_le_pow_right (by decide) h)
  have hsize' := hbound (length_take_le 8 (headerBytes.drop 4))
  have hcount' := hbound (length_take_le 4 (headerBytes.drop 12))
  have hts := hbound (length_take_le 8 (headerBytes.drop 16))
  have hheader := eq_txHeader hlen hmagic
  rw [hsize] at hsize' hheader
  rw [hcount] at hcount' hheader
  rw [eq_txTrailer hlen' hcrc hend, hheader]
  exact .mk hops hsize' hcount' hts

theorem parseFrame_eq_some (h : parseFrame crc c bytes = some (ops, c', rest)) :
    ∃ frame, bytes = frame ++ rest ∧ IsFrame crc c frame ops c' := by
  unfold parseFrame at h
  split at h
  next headerBytes tail hheader =>
    obtain ⟨rfl, hlen⟩ := consume_eq_ok hheader
    split at h
    · cases h
    rename_i hmagic
    simp only at h
    split at h
    next ops' c1 tail' hpayload =>
      obtain ⟨⟨ops1, c2, n⟩, tail2, hops, hnext⟩ := bind_eq_ok hpayload
      obtain ⟨payload, hisOps, rfl, hcount, rfl, rfl⟩ := parseStreamingOps_eq_ok hops
      simp only [Nat.zero_add, crc.append_append] at hnext
      split at hnext
      · cases hnext
      next hsize =>
        cases hnext
        split at h
        next trailerBytes tail3 htrailer =>
          obtain ⟨rfl, hlen'⟩ := consume_eq_ok htrailer
          split at h
          · cases h
          split at h
          · cases h
          next hcrc hend =>
            cases h
            exact ⟨_, by simp, .of_parts hlen (not_not.1 hmagic)
              (not_not.1 hsize) hcount hisOps hlen' (not_not.1 hcrc) (not_not.1 hend)⟩
        · cases h
    · cases h
  · cases h

theorem IsOps.length_le {commitTs : Nat} (h : IsOps commitTs payload ops) :
    ops.length ≤ payload.length := by
  induction h with
  | nil => exact Nat.le_refl 0
  | cons hop _ ih =>
    have := hop.length_eq
    simp only [length_cons, length_append]
    omega

theorem IsFrame.length_lt (h : IsFrame crc c frame ops c') : ops.length < frame.length := by
  cases h with
  | mk hops _ _ _ =>
    have := hops.length_le
    rw [length_append, length_append, length_txHeader, txHeaderSize]
    omega

theorem IsFrame.txMinFrameSize_le (h : IsFrame crc c frame ops c') :
    txMinFrameSize ≤ frame.length := by
  cases h
  rw [length_append, length_append, length_txHeader, length_txTrailer, txMinFrameSize]
  omega

end

section

variable {src : Source} {short : CorruptError}

theorem simulates_consumeVarintFrom (n v : Nat) (acc : List UInt8) :
    Simulates (consumeVarintFrom n v acc : Streaming src short _) (consumeVarintFrom n v acc) := by
  induction n generalizing v acc with
  | zero =>
    refine .bind .consumeByte fun c => ?_
    split
    · exact .fail _
    · exact .pure _
  | succ n ih =>
    refine .bind .consumeByte fun c => ?_
    split
    · exact .pure _
    · exact ih _ _

theorem simulates_parseStreamingOp (crc : Crc32c) (commitTs : Nat) (c : UInt32) (n : Nat) :
    Simulates (parseStreamingOp crc commitTs c n : Streaming src short _)
      (parseStreamingOp crc commitTs c n) := by
  refine .bind (.consume 6) fun opBytes => ?_
  cases checkOpHeader (opBytes.getD 0 0) (opBytes.getD 1 0) (opTableId opBytes) with
  | error e => exact .fail e
  | ok tag =>
    refine .bind (simulates_consumeVarintFrom 8 0 []) fun len => .bind (.consume len.1)
      fun payload => ?_
    simp only
    split
    · exact .fail _
    · cases decodeOp tag (opTableId opBytes) (opResident opBytes) commitTs payload with
      | error e => exact .fail e
      | ok op => exact .pure _

theorem simulates_parseStreamingOps (crc : Crc32c) (commitTs count : Nat) (c : UInt32) (n : Nat) :
    Simulates (parseStreamingOps crc commitTs count c n : Streaming src short _)
      (parseStreamingOps crc commitTs count c n) := by
  induction count generalizing c n with
  | zero => exact .pure _
  | succ count ih =>
    exact .bind (simulates_parseStreamingOp crc commitTs c n) fun _ =>
      .bind (ih _ _) fun _ => .pure _

theorem simulates_parseStreamingPayload (short : CorruptError) (crc : Crc32c)
    (opCount payloadSize commitTs : Nat) (c : UInt32) :
    Simulates (parseStreamingPayload crc opCount payloadSize commitTs c : Streaming src short _)
      (parseStreamingPayload crc opCount payloadSize commitTs c) := by
  refine .bind (simulates_parseStreamingOps crc commitTs opCount c 0) fun r => ?_
  simp only
  split
  · exact .fail _
  · exact .pure _

end

end PgMicro.PersistentStorage
