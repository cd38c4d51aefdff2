import PgMicro.PersistentStorage.ChunkedPayload

/-!
# Parsing by chunks against parsing at once

A parser of one op that has made up its mind is not changed by bytes that follow, and a carried op
declares the length at which it is parsed. So the loop over the chunks follows the loop over the
whole payload op by op.
-/

namespace PgMicro.PersistentStorage

open Codec List

variable {commitTs opCount n v i : Nat} {buf carry : List UInt8} {ops : List ParsedOp}

theorem readVarintPartialFrom_append (tail : List UInt8)
    (h : readVarintPartialFrom n v i buf ≠ .ok none) :
    readVarintPartialFrom n v i (buf ++ tail) = readVarintPartialFrom n v i buf := by
  induction buf generalizing n v i with
  | nil => exact absurd (by cases n <;> rfl) h
  | cons c buf ih =>
    cases n with
    | zero => rfl
    | succ n =>
      simp only [cons_append, readVarintPartialFrom] at h ⊢
      split
      · rfl
      next hmarked =>
        rw [if_neg hmarked] at h
        exact ih h

theorem readVarintPartialFrom_lt {w len : Nat}
    (h : readVarintPartialFrom n v i buf = .ok (some (w, len))) : i < len := by
  induction buf generalizing n v i with
  | nil => cases n <;> cases h
  | cons c buf ih =>
    cases n with
    | zero =>
      rw [readVarintPartialFrom] at h
      split at h <;> cases h
      omega
    | succ n =>
      rw [readVarintPartialFrom] at h
      split at h
      · cases h
        omega
      · have := ih h
        omega

theorem readVarintPartialFrom_none (h : readVarintPartialFrom n v i buf = .ok none) :
    buf.length ≤ n ∧ ∀ tail w len,
      readVarintPartialFrom n v i (buf ++ tail) = .ok (some (w, len)) → i + buf.length < len := by
  induction buf generalizing n v i with
  | nil => exact ⟨Nat.zero_le _, fun tail w len hok => readVarintPartialFrom_lt hok⟩
  | cons c buf ih =>
    cases n with
    | zero =>
      rw [readVarintPartialFrom] at h
      split at h <;> cases h
    | succ n =>
      simp only [cons_append, readVarintPartialFrom, length_cons] at h ⊢
      split at h
      · cases h
      next hmarked =>
        obtain ⟨hle, hlt⟩ := ih h
        refine ⟨by omega, fun tail w len hok => ?_⟩
        rw [if_neg hmarked] at hok
        have := hlt tail w len hok
        omega

theorem opPrefix_append (tail : List UInt8) (h : ¬ buf.length < 6) :
    ¬ (buf ++ tail).length < 6 ∧ (buf ++ tail).getD 0 0 = buf.getD 0 0 ∧
      (buf ++ tail).getD 1 0 = buf.getD 1 0 ∧ (buf ++ tail).take 6 = buf.take 6 ∧
        (buf ++ tail).drop 6 = buf.drop 6 ++ tail := by
  have hgetD {i : Nat} (hi : i < buf.length) : (buf ++ tail).getD i 0 = buf.getD i 0 := by
    rw [getD, getElem?_append_left hi, getD]
  exact ⟨by rw [length_append]; omega, hgetD (by omega), hgetD (by omega),
    take_append_of_le_length (by omega), drop_append_of_le_length (by omega)⟩

theorem tryParse_append (tail : List UInt8) (h : tryParseOneOpFromBuf commitTs buf ≠ .eof) :
    tryParseOneOpFromBuf commitTs (buf ++ tail) = tryParseOneOpFromBuf commitTs buf := by
  by_cases hlen : buf.length < 6
  · exact absurd (if_pos hlen) h
  obtain ⟨hlen', hzero, hone, htake, hdrop⟩ := opPrefix_append tail hlen
  simp only [tryParseOneOpFromBuf, if_neg hlen, if_neg hlen', hzero, hone, htake, hdrop] at h ⊢
  split at h <;> try rfl
  have hvarint : readVarintPartial (buf.drop 6) ≠ .ok none := fun hnone => by
    rw [hnone] at h
    exact h rfl
  rw [show readVarintPartial (buf.drop 6 ++ tail) = readVarintPartial (buf.drop 6) from
    readVarintPartialFrom_append tail hvarint]
  split at h <;> try rfl
  split at h
  next hover =>
    rw [if_pos hover, if_pos hover]
  split at h
  · exact absurd rfl h
  next hfits hlong =>
    rw [if_neg hfits, if_neg hfits, if_neg hlong, if_neg (by rw [length_append]; omega),
      take_append_of_le_length (by omega)]

theorem carried_append (tail : List UInt8) (h : carriedOpTotalLenIfKnown buf ≠ .ok none) :
    carriedOpTotalLenIfKnown (buf ++ tail) = carriedOpTotalLenIfKnown buf := by
  by_cases hlen : buf.length < 6
  · exact absurd (if_pos hlen) h
  obtain ⟨hlen', hzero, -, -, hdrop⟩ := opPrefix_append tail hlen
  simp only [carriedOpTotalLenIfKnown, if_neg hlen, if_neg hlen', hzero, hdrop] at h ⊢
  by_cases hcode : OpTag.ofCode (buf.getD 0 0) = none
  · rw [if_pos hcode, if_pos hcode]
  rw [if_neg hcode] at h
  have hvarint : readVarintPartial (buf.drop 6) ≠ .ok none := fun hnone => by
    rw [hnone] at h
    exact h rfl
  rw [show readVarintPartial (buf.drop 6 ++ tail) = readVarintPartial (buf.drop 6) from
    readVarintPartialFrom_append tail hvarint]

theorem tryParse_eq_ok {op : ParsedOp} {consumed : Nat}
    (h : tryParseOneOpFromBuf commitTs buf = .ok (op, consumed)) :
    carriedOpTotalLenIfKnown buf = .ok (some consumed) ∧ consumed ≤ buf.length := by
  rw [tryParseOneOpFromBuf] at h
  split at h
  · cases h
  rename_i hlen
  split at h <;> try cases h
  rename_i tag htag
  split at h <;> try cases h
  rename_i payloadLen varintBytes hok
  simp only at h
  split at h
  · cases h
  rename_i hfits
  split at h
  · cases h
  split at h <;> cases h
  have hcode : OpTag.ofCode (buf.getD 0 0) ≠ none := fun hnone => by
    rw [checkOpHeader, hnone] at htag
    cases htag
  simp only [carriedOpTotalLenIfKnown, if_neg hlen, if_neg hcode, hok, if_neg hfits]
  exact ⟨trivial, by omega⟩

theorem tryParse_of_carried {total : Nat} (h : carriedOpTotalLenIfKnown buf = .ok (some total)) :
    (tryParseOneOpFromBuf commitTs buf = .eof → buf.length < total) ∧
      tryParseOneOpFromBuf commitTs buf ≠ .panic := by
  rw [carriedOpTotalLenIfKnown] at h
  split at h
  · cases h
  rename_i hlen
  split at h
  · cases h
  split at h <;> try cases h
  rename_i payloadLen varintBytes hok
  simp only at h
  split at h <;> cases h
  rename_i hfits
  rw [tryParseOneOpFromBuf, if_neg hlen]
  split
  · exact ⟨nofun, nofun⟩
  · simp only [hok, if_neg hfits]
    split
    next hshort =>
      exact ⟨fun _ => hshort, nofun⟩
    · split <;> exact ⟨nofun, nofun⟩

theorem carried_none (h : carriedOpTotalLenIfKnown buf = .ok none) :
    buf.length < maxSerializedOpPrefixLen ∧ ∀ tail total,
      carriedOpTotalLenIfKnown (buf ++ tail) = .ok (some total) → buf.length < total := by
  have hdeclared {buf : List UInt8} {total : Nat}
      (h : carriedOpTotalLenIfKnown buf = .ok (some total)) : ∃ payloadLen varintBytes,
        readVarintPartial (buf.drop 6) = .ok (some (payloadLen, varintBytes)) ∧
          total = 6 + varintBytes + payloadLen := by
    rw [carriedOpTotalLenIfKnown] at h
    split at h
    · cases h
    split at h
    · cases h
    split at h <;> try cases h
    rename_i payloadLen varintBytes hok
    simp only at h
    split at h <;> cases h
    exact ⟨payloadLen, varintBytes, hok, rfl⟩
  unfold maxSerializedOpPrefixLen
  by_cases hlen : buf.length < 6
  · refine ⟨by omega, fun tail total hok => ?_⟩
    obtain ⟨payloadLen, varintBytes, -, rfl⟩ := hdeclared hok
    omega
  have hvarint : readVarintPartial (buf.drop 6) = .ok none := by
    rw [carriedOpTotalLenIfKnown, if_neg hlen] at h
    split at h
    · cases h
    split at h <;> try cases h
    · assumption
    · simp only at h
      split at h <;> cases h
  obtain ⟨hle, hlt⟩ := readVarintPartialFrom_none hvarint
  rw [length_drop] at hle hlt
  refine ⟨by omega, fun tail total hok => ?_⟩
  obtain ⟨payloadLen, varintBytes, hread, rfl⟩ := hdeclared hok
  rw [(opPrefix_append tail hlen).2.2.2.2] at hread
  have := hlt tail _ _ hread
  omega

def Pending (carry : List UInt8) : Prop :=
  ∀ total, carriedOpTotalLenIfKnown carry = .ok (some total) → carry.length < total

theorem tryResolveTotalLen_spec (carry rest : List UInt8)
    (hcarry : ∀ total, carriedOpTotalLenIfKnown carry = .ok (some total) → carry.length ≤ total) :
    match tryResolveTotalLen carry rest with
    | .ok (some total, carry', rest') => carry' ++ rest' = carry ++ rest ∧
        carriedOpTotalLenIfKnown carry' = .ok (some total) ∧ carry'.length ≤ total
    | .ok (none, carry', _) => carry' = carry ++ rest ∧ carriedOpTotalLenIfKnown carry' = .ok none
    | .error _ => ∀ tail total,
        carriedOpTotalLenIfKnown (carry ++ rest ++ tail) ≠ .ok (some total) := by
  have herror {e : PayloadError} (rest : List UInt8) {carry : List UInt8}
      (h : carriedOpTotalLenIfKnown carry = .error e) (tail : List UInt8) (total : Nat) :
      carriedOpTotalLenIfKnown (carry ++ rest ++ tail) ≠ .ok (some total) := by
    rw [append_assoc, carried_append _ (by rw [h]; nofun), h]
    nofun
  induction rest generalizing carry with
  | nil =>
    rw [tryResolveTotalLen]
    rcases h : carriedOpTotalLenIfKnown carry with e | _ | total
    · exact herror [] h
    · exact ⟨(append_nil _).symm, h⟩
    · exact ⟨rfl, h, hcarry total h⟩
  | cons b rest ih =>
    rw [tryResolveTotalLen]
    rcases h : carriedOpTotalLenIfKnown carry with e | _ | total
    · exact herror (b :: rest) h
    · obtain ⟨hshort, hlt⟩ := carried_none h
      simp only [if_neg (Nat.not_le.2 hshort)]
      have := ih (carry ++ [b]) fun total hok => by
        have := hlt [b] total hok
        rw [length_append, length_singleton]
        omega
      simpa using this
    · exact ⟨rfl, h, hcarry total h⟩

theorem tryFinishCarriedOp_spec (commitTs : Nat) (carry rest : List UInt8)
    (hcarry : Pending carry) :
    match tryFinishCarriedOp commitTs carry rest with
    | .ok (.inl op, rest') => ∃ consumed,
      tryParseOneOpFromBuf commitTs (carry ++ rest) = .ok (op, consumed) ∧
        (carry ++ rest).drop consumed = rest' ∧ consumed ≤ (carry ++ rest).length
    | .ok (.inr carry', _) => carry' = carry ++ rest ∧ Pending carry'
    | .corrupt _ => ∀ tail r, tryParseOneOpFromBuf commitTs (carry ++ rest ++ tail) ≠ .ok r
    | .eof | .panic => False := by
  have hspec := tryResolveTotalLen_spec carry rest fun total h => (hcarry total h).le
  rw [tryFinishCarriedOp]
  cases hresolve : tryResolveTotalLen carry rest with
  | error e =>
    rw [hresolve] at hspec
    exact fun tail r hok => hspec tail r.2 (tryParse_eq_ok hok).1
  | ok r =>
    obtain ⟨total | total, carry', rest'⟩ := r <;> rw [hresolve] at hspec
    · obtain ⟨rfl, hknown⟩ := hspec
      exact ⟨rfl, fun total htotal => by rw [hknown] at htotal; cases htotal⟩
    obtain ⟨happend, hknown, hle⟩ := hspec
    simp only [if_neg (Nat.not_lt.2 hle), ← happend]
    set held := carry' ++ rest'.take (min (total - carry'.length) rest'.length) with hheld
    have hsplit : held ++ rest'.drop (min (total - carry'.length) rest'.length) =
        carry' ++ rest' := by rw [hheld, append_assoc, take_append_drop]
    have hlength : held.length = carry'.length + min (total - carry'.length) rest'.length := by
      rw [hheld, length_append, length_take, min_assoc, min_self]
    have hheldKnown : carriedOpTotalLenIfKnown held = .ok (some total) := by
      rw [hheld, carried_append _ (by rw [hknown]; nofun), hknown]
    by_cases hshort : held.length < total
    · rw [if_pos hshort]
      have hall : min (total - carry'.length) rest'.length = rest'.length := by omega
      have heq : held = carry' ++ rest' := by rw [hheld, hall, take_length]
      refine ⟨heq, fun total' htotal => ?_⟩
      rw [hheldKnown] at htotal
      cases htotal
      exact hshort
    · have htotal : held.length = total := by omega
      rw [if_neg hshort, ← hsplit]
      cases hparse : tryParseOneOpFromBuf commitTs held with
      | eof => exact absurd ((tryParse_of_carried hheldKnown).1 hparse) (by omega)
      | panic => exact (tryParse_of_carried hheldKnown).2 hparse
      | corrupt e =>
        intro tail r
        rw [append_assoc, tryParse_append _ (by simp [hparse]), hparse]
        nofun
      | ok r =>
        obtain ⟨op, consumed⟩ := r
        obtain ⟨hconsumed, hle'⟩ := tryParse_eq_ok hparse
        rw [hheldKnown] at hconsumed
        cases hconsumed
        simp only [htotal]
        refine ⟨total, ?_, ?_, ?_⟩
        · rw [tryParse_append _ (by simp [hparse]), hparse]
        · rw [← htotal, drop_left]
        · rw [length_append]
          omega

theorem parseDecryptedChunkOps_spec (commitTs wanted : Nat) (ops : List ParsedOp)
    (rest : List UInt8) :
    match parseDecryptedChunkOps commitTs wanted ops rest with
    | .ok (ops', rest') => ∃ left, ops'.length + left = ops.length + wanted ∧
      (left = 0 ∨ Pending rest') ∧ ∀ tail cursor, ∃ cursor',
        parseOpsFrom commitTs wanted cursor ops (rest ++ tail) =
          parseOpsFrom commitTs left cursor' ops' (rest' ++ tail)
    | .corrupt _ => ∀ tail cursor r, parseOpsFrom commitTs wanted cursor ops (rest ++ tail) ≠ .ok r
    | .panic => ∀ tail cursor, parseOpsFrom commitTs wanted cursor ops (rest ++ tail) = .panic
    | .eof => False := by
  induction wanted generalizing ops rest with
  | zero => exact ⟨0, rfl, .inl rfl, fun tail cursor => ⟨cursor, rfl⟩⟩
  | succ wanted ih =>
    rw [parseDecryptedChunkOps]
    simp only [parseOpsFrom]
    cases hparse : tryParseOneOpFromBuf commitTs rest with
    | eof =>
      exact ⟨wanted + 1, rfl, .inr fun total h => (tryParse_of_carried h).1 hparse,
        fun tail cursor => ⟨cursor, rfl⟩⟩
    | corrupt e =>
      intro tail cursor r
      rw [tryParse_append _ (by simp [hparse]), hparse]
      nofun
    | panic =>
      intro tail cursor
      rw [tryParse_append _ (by simp [hparse]), hparse]
    | ok r =>
      obtain ⟨op, consumed⟩ := r
      have hwhole (tail : List UInt8) : tryParseOneOpFromBuf commitTs (rest ++ tail) =
          .ok (op, consumed) ∧ (rest ++ tail).drop consumed = rest.drop consumed ++ tail :=
        ⟨by rw [tryParse_append _ (by simp [hparse]), hparse],
          drop_append_of_le_length (tryParse_eq_ok hparse).2⟩
      have := ih (ops ++ [op]) (rest.drop consumed)
      simp only [fun tail => (hwhole tail).1, fun tail => (hwhole tail).2]
      split at this
      · obtain ⟨left, hlength, hleft, hsame⟩ := this
        refine ⟨left, ?_, hleft, fun tail cursor => hsame tail _⟩
        rw [hlength, length_append, length_singleton]
        omega
      · exact fun tail cursor r => this tail _ r
      · exact fun tail cursor => this tail _
      · exact this

def Agrees (chunked whole : Outcome PayloadError (List ParsedOp)) : Prop :=
  (∀ ops, chunked = .ok ops ↔ whole = .ok ops) ∧ (chunked = .panic → whole = .panic)

theorem not_ok_of_pending (hcarry : carry = [] ∨ Pending carry) (left cursor : Nat)
    (r : List ParsedOp) : parseOpsFrom commitTs (left + 1) cursor ops carry ≠ .ok r := by
  intro hok
  rw [parseOpsFrom] at hok
  split at hok <;> try cases hok
  rename_i op consumed hparse
  obtain ⟨hknown, hle⟩ := tryParse_eq_ok hparse
  rcases hcarry with rfl | hcarry
  · cases hknown
  · exact absurd (hcarry consumed hknown) (by omega)

theorem Agrees.rejected {chunked whole : Outcome PayloadError (List ParsedOp)}
    (hchunked : chunked ≠ .panic ∧ ∀ r, chunked ≠ .ok r) (hwhole : ∀ r, whole ≠ .ok r) :
    Agrees chunked whole :=
  ⟨fun r => iff_of_false (hchunked.2 r) (hwhole r), fun h => absurd h hchunked.1⟩

/-- The part of a turn that starts with an empty carry. -/
theorem Agrees.fresh {chunks : List (List UInt8)} {left : Nat}
    (ih : ∀ carry ops left, ops.length + left = opCount →
      carry = [] ∨ left = 0 ∨ Pending carry → ∀ cursor,
      Agrees (parseChunks commitTs opCount carry ops chunks)
        (parseOpsFrom commitTs left cursor ops (carry ++ chunks.flatten)))
    (hleft : ops.length + left = opCount) (rest : List UInt8) (cursor : Nat) :
    Agrees (match parseDecryptedChunkOps commitTs (opCount - ops.length) ops rest with
      | .ok (ops, rest) => parseChunks commitTs opCount rest ops chunks
      | .eof => .eof
      | .corrupt e => .corrupt e
      | .panic => .panic) (parseOpsFrom commitTs left cursor ops (rest ++ chunks.flatten)) := by
  have hspec := parseDecryptedChunkOps_spec commitTs left ops rest
  rw [show opCount - ops.length = left by omega]
  split <;> rename_i hparse <;> rw [hparse] at hspec
  · obtain ⟨left', hlength, hpending, hsame⟩ := hspec
    obtain ⟨cursor', hsame⟩ := hsame chunks.flatten cursor
    rw [hsame]
    exact ih _ _ left' (by omega) (.inr hpending) cursor'
  · exact hspec.elim
  · exact .rejected (by simp) (hspec _ _)
  · exact ⟨by simp [hspec], fun _ => hspec _ _⟩

theorem parseChunks_agrees (commitTs : Nat) (chunks : List (List UInt8)) (carry : List UInt8)
    (ops : List ParsedOp) (left : Nat) (hleft : ops.length + left = opCount)
    (hcarry : carry = [] ∨ left = 0 ∨ Pending carry) (cursor : Nat) :
    Agrees (parseChunks commitTs opCount carry ops chunks)
      (parseOpsFrom commitTs left cursor ops (carry ++ chunks.flatten)) := by
  induction chunks generalizing carry ops left cursor with
  | nil =>
    rw [flatten_nil, append_nil, parseChunks]
    cases left with
    | zero =>
      rw [if_neg (by omega), parseOpsFrom]
      by_cases hnil : carry = []
      · rw [if_neg (not_not.2 hnil), if_pos hnil]
        exact ⟨fun _ => Iff.rfl, id⟩
      · rw [if_pos hnil, if_neg hnil]
        exact .rejected (by simp) (by simp)
    | succ left =>
      rw [if_pos (by omega)]
      exact .rejected (by simp) (not_ok_of_pending (by simpa using hcarry) left cursor)
  | cons plaintext chunks ih =>
    rw [flatten_cons, parseChunks, if_neg (by omega)]
    by_cases hnil : carry = []
    · rw [if_pos hnil, hnil]
      exact .fresh ih hleft plaintext cursor
    rw [if_neg hnil]
    cases left with
    | zero =>
      rw [if_pos (by omega), parseOpsFrom, if_neg (by simp [hnil])]
      exact .rejected (by simp) (by simp)
    | succ left =>
      have hspec := tryFinishCarriedOp_spec commitTs carry plaintext
        ((hcarry.resolve_left hnil).resolve_left (by simp))
      rw [if_neg (by omega), ← append_assoc]
      split <;> rename_i hfinish <;> rw [hfinish] at hspec
      · obtain ⟨consumed, hparse, hdrop, hle⟩ := hspec
        rw [parseOpsFrom, tryParse_append _ (by simp [hparse]), hparse]
        simp only [drop_append_of_le_length hle, hdrop]
        exact .fresh ih (by rw [length_append, length_singleton]; omega) _ _
      · obtain ⟨rfl, hpending⟩ := hspec
        exact ih _ _ (left + 1) hleft (.inr (.inr hpending)) cursor
      · exact hspec.elim
      · refine .rejected (by simp) fun r hok => ?_
        rw [parseOpsFrom] at hok
        split at hok <;> try cases hok
        rename_i hparse
        exact (hspec _ _ hparse).elim
      · exact hspec.elim

theorem flatten_plaintextChunks {chunkSize : Nat} (hsize : 1 ≤ chunkSize)
    (plaintext : List UInt8) : (plaintextChunks chunkSize plaintext).flatten = plaintext := by
  have hprefix (count : Nat) : ((range count).map fun i =>
      (plaintext.drop (i * chunkSize)).take chunkSize).flatten =
        plaintext.take (count * chunkSize) := by
    induction count with
    | zero => simp
    | succ count ih =>
      rw [range_succ, map_append, flatten_append, ih, Nat.succ_mul, take_add]
      simp
  rw [plaintextChunks, hprefix, take_of_length_le]
  have := Nat.div_add_mod (plaintext.length + chunkSize - 1) chunkSize
  have := Nat.mod_lt (plaintext.length + chunkSize - 1) hsize
  rw [Nat.mul_comm]
  omega

/-- An op in good order up to its length, which with the bytes before the payload is no `usize`. -/
def LengthOverflows (buf : List UInt8) : Prop :=
  6 ≤ buf.length ∧
    (∃ tag, checkOpHeader (buf.getD 0 0) (buf.getD 1 0) (opTableId (buf.take 6)) = .ok tag) ∧
      ∃ payloadLen varintBytes, 2 ^ 64 ≤ 6 + varintBytes + payloadLen ∧
        readVarintPartial (buf.drop 6) = .ok (some (payloadLen, varintBytes))

def LengthsFit (commitTs : Nat) : Nat → List UInt8 → Prop
  | 0, _ => True
  | opCount + 1, buf => ¬ LengthOverflows buf ∧ ∀ op consumed,
      tryParseOneOpFromBuf commitTs buf = .ok (op, consumed) →
        LengthsFit commitTs opCount (buf.drop consumed)

theorem tryParse_eq_panic_iff (commitTs : Nat) (buf : List UInt8) :
    tryParseOneOpFromBuf commitTs buf = .panic ↔ LengthOverflows buf := by
  rw [tryParseOneOpFromBuf]
  constructor
  · intro h
    split at h
    · cases h
    split at h <;> try cases h
    rename_i tag htag
    split at h <;> try cases h
    rename_i payloadLen varintBytes hok
    simp only at h
    split at h
    next hlen _ hover =>
      exact ⟨by omega, ⟨tag, htag⟩, payloadLen, varintBytes, hover, hok⟩
    · split at h
      · cases h
      · split at h <;> cases h
  · rintro ⟨hlen, ⟨tag, htag⟩, payloadLen, varintBytes, hover, hok⟩
    simp only [if_neg (Nat.not_lt.2 hlen), htag, hok, if_pos hover]

theorem parseOpsFrom_ne_panic_iff (count cursor : Nat) (ops : List ParsedOp) (buf : List UInt8) :
    parseOpsFrom commitTs count cursor ops buf ≠ .panic ↔ LengthsFit commitTs count buf := by
  induction count generalizing cursor ops buf with
  | zero =>
    rw [parseOpsFrom]
    split <;> exact ⟨fun _ => trivial, fun _ => nofun⟩
  | succ count ih =>
    rw [parseOpsFrom, LengthsFit, ← tryParse_eq_panic_iff commitTs]
    cases tryParseOneOpFromBuf commitTs buf with
    | ok r =>
      rw [ih]
      constructor
      · rintro hfit
        exact ⟨nofun, fun op consumed heq => by cases heq; exact hfit⟩
      · exact fun h => h.2 r.1 r.2 rfl
    | eof => exact ⟨fun _ => ⟨nofun, nofun⟩, fun _ => nofun⟩
    | corrupt e => exact ⟨fun _ => ⟨nofun, nofun⟩, fun _ => nofun⟩
    | panic => exact ⟨fun h => absurd rfl h, fun h => absurd rfl h.1⟩

/-- Parsing by chunks accepts what parsing at once accepts, with the same ops, and neither panics,
as long as no op declares a length that overflows. -/
theorem parseEncryptedPayload_agrees_iff (commitTs opCount : Nat) {chunkSize : Nat}
    (hsize : 1 ≤ chunkSize) (plaintext : List UInt8) :
    ((∀ ops, parseEncryptedPayload commitTs opCount chunkSize plaintext = .ok ops ↔
        parseOpsFromPlaintext plaintext plaintext.length opCount commitTs = .ok ops) ∧
      parseEncryptedPayload commitTs opCount chunkSize plaintext ≠ .panic ∧
        parseOpsFromPlaintext plaintext plaintext.length opCount commitTs ≠ .panic) ↔
      LengthsFit commitTs opCount plaintext := by
  have hwhole : parseOpsFromPlaintext plaintext plaintext.length opCount commitTs =
      parseOpsFrom commitTs opCount 0 [] plaintext := if_neg (not_not.2 rfl)
  obtain ⟨haccept, hpanic⟩ := parseChunks_agrees commitTs
    (plaintextChunks chunkSize plaintext) [] [] opCount (Nat.zero_add opCount) (.inl rfl) 0
  rw [nil_append, flatten_plaintextChunks hsize] at haccept hpanic
  rw [← parseOpsFrom_ne_panic_iff opCount 0 [] plaintext, hwhole]
  exact ⟨fun h => h.2.2, fun h => ⟨haccept, fun hchunks => h (hpanic hchunks), h⟩⟩

/-- A row and the deletion of another: in chunks of 4 bytes each of the two ops lies in three. -/
def upsertAndDelete : List UInt8 :=
  [0, 0, 255, 255, 255, 255, 3, 5, 1, 2] ++ [1, 0, 255, 255, 255, 255, 1, 9]

theorem parseEncryptedPayload_agrees_iff_two : 1 ≤ 4 ∧
    parseEncryptedPayload 7 2 4 upsertAndDelete =
      .ok [.upsertTable (-1) 5 [1, 2] 7 false, .deleteTable (-1) 9 7 false] := by
  have hfit : LengthsFit 7 2 upsertAndDelete := (parseOpsFrom_ne_panic_iff 2 0 [] _).1 (by decide)
  have hagrees := (parseEncryptedPayload_agrees_iff 7 2 (show 1 ≤ 4 by decide) _).2 hfit
  exact ⟨by decide, (hagrees.1 _).2 (by decide)⟩

def hugeOp : List UInt8 := [2, 0, 255, 255, 255, 255] ++ replicate 9 255

/-- Whether the chunks panic with the whole depends on where they end. -/
theorem parseOpsFromPlaintext_panics :
    parseOpsFromPlaintext hugeOp hugeOp.length 1 7 = .panic ∧
      parseEncryptedPayload 7 1 16 hugeOp = .panic ∧
        parseEncryptedPayload 7 1 4 hugeOp = .corrupt (.carried .payloadLengthOverflow) := by
  decide

end PgMicro.PersistentStorage
