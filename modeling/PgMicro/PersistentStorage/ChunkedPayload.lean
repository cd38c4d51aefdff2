import PgMicro.PersistentStorage.LogReader

/-!
# Payloads that arrive in chunks

The two parsers of a decrypted payload in `core/mvcc/persistent_storage/logical_log.rs`:
`parse_ops_from_plaintext` over the whole of it, and the loop of `parse_encrypted_payload` over its
chunks, which carries an op that is cut. The outcome `eof` is `Ok(None)`: too few bytes yet.
-/

namespace PgMicro.PersistentStorage

open Codec Storage

inductive PayloadError where
  | op (e : CorruptError)
  | decryptedSize (size payloadSize : Nat)
  | incompleteOp
  | trailingBytes (consumed total : Nat)
  | payloadLengthOverflow
  | carriedPrefixUnresolved
  | carriedExceeded (held total : Nat)
  | carriedConsumed (consumed held : Nat)
  | carriedIncomplete
  | carried (e : PayloadError)
  | trailingCarriedBytes (opCount : Nat)
  | missingOps (parsed opCount : Nat)
  | trailingPlaintext (held : Nat)
  deriving DecidableEq, Repr

/-- The loop of `read_varint_partial`, as `readVarintFrom`. -/
def readVarintPartialFrom :
    Nat → Nat → Nat → List UInt8 → Except PayloadError (Option (Nat × Nat))
  | _, _, _, [] => .ok none
  | 0, v, i, c :: _ =>
    if v / 2 ^ 48 = 0 then .error (.op .invalidVarint) else .ok (some (v * 256 + c.toNat, i + 1))
  | n + 1, v, i, c :: buf =>
    let v := v * 128 + c.toNat % 128
    if c.toNat < 128 then .ok (some (v, i + 1)) else readVarintPartialFrom n v (i + 1) buf

def readVarintPartial (buf : List UInt8) : Except PayloadError (Option (Nat × Nat)) :=
  readVarintPartialFrom 8 0 0 buf

def tryParseOneOpFromBuf (commitTs : Nat) (buf : List UInt8) :
    Outcome PayloadError (ParsedOp × Nat) :=
  if buf.length < 6 then .eof
  else
    match checkOpHeader (buf.getD 0 0) (buf.getD 1 0) (opTableId (buf.take 6)) with
    | .error e => .corrupt (.op e)
    | .ok tag =>
      match readVarintPartial (buf.drop 6) with
      | .error e => .corrupt e
      | .ok none => .eof
      | .ok (some (payloadLen, varintBytes)) =>
        let total := 6 + varintBytes + payloadLen
        -- The sum is not checked; one that wraps lies before the payload it is to end.
        if 2 ^ 64 ≤ total then .panic
        else if buf.length < total then .eof
        else
          match decodeOp tag (opTableId (buf.take 6)) (opResident (buf.take 6)) commitTs
              ((buf.take total).drop (6 + varintBytes)) with
          | .error e => .corrupt (.op e)
          | .ok op => .ok (op, total)

def parseOpsFrom (commitTs : Nat) :
    Nat → Nat → List ParsedOp → List UInt8 → Outcome PayloadError (List ParsedOp)
  | 0, cursor, ops, rest =>
    if rest = [] then .ok ops else .corrupt (.trailingBytes cursor (cursor + rest.length))
  | opCount + 1, cursor, ops, rest =>
    match tryParseOneOpFromBuf commitTs rest with
    | .ok (op, consumed) =>
      parseOpsFrom commitTs opCount (cursor + consumed) (ops ++ [op]) (rest.drop consumed)
    | .eof => .corrupt .incompleteOp
    | .corrupt e => .corrupt e
    | .panic => .panic

def parseOpsFromPlaintext (plaintext : List UInt8) (payloadSize opCount commitTs : Nat) :
    Outcome PayloadError (List ParsedOp) :=
  if plaintext.length ≠ payloadSize then .corrupt (.decryptedSize plaintext.length payloadSize)
  else parseOpsFrom commitTs opCount 0 [] plaintext

section

variable (commitTs opCount : Nat)

/-- The loop of `parse_decrypted_chunk_ops`, with as many ops to come, over the bytes from the start
on: the ops and the bytes that are left. -/
def parseDecryptedChunkOps :
    Nat → List ParsedOp → List UInt8 → Outcome PayloadError (List ParsedOp × List UInt8)
  | 0, ops, rest => .ok (ops, rest)
  | wanted + 1, ops, rest =>
    match tryParseOneOpFromBuf commitTs rest with
    | .ok (op, consumed) => parseDecryptedChunkOps wanted (ops ++ [op]) (rest.drop consumed)
    | .eof => .ok (ops, rest)
    | .corrupt e => .corrupt e
    | .panic => .panic

def carriedOpTotalLenIfKnown (buf : List UInt8) : Except PayloadError (Option Nat) :=
  if buf.length < 6 then .ok none
  else if OpTag.ofCode (buf.getD 0 0) = none then .error (.op (.unknownOpTag (buf.getD 0 0)))
  else
    match readVarintPartial (buf.drop 6) with
    | .error e => .error e
    | .ok none => .ok none
    | .ok (some (payloadLen, varintBytes)) =>
      let total := 6 + varintBytes + payloadLen
      if 2 ^ 64 ≤ total then .error .payloadLengthOverflow else .ok (some total)

def maxSerializedOpPrefixLen : Nat := 15

/-- `try_resolve_carried_encrypted_op_total_len`: the length, the carry and what is left of the
chunk. -/
def tryResolveTotalLen (carry : List UInt8) :
    List UInt8 → Except PayloadError (Option Nat × List UInt8 × List UInt8)
  | [] => (carriedOpTotalLenIfKnown carry).map (·, carry, [])
  | b :: rest =>
    match carriedOpTotalLenIfKnown carry with
    | .error e => .error e
    | .ok (some total) => .ok (some total, carry, b :: rest)
    | .ok none =>
      if maxSerializedOpPrefixLen ≤ carry.length then .error .carriedPrefixUnresolved
      else tryResolveTotalLen (carry ++ [b]) rest

/-- `try_finish_carried_encrypted_op`: the op, once it is complete, or the carry, and what is left
of the chunk. -/
def tryFinishCarriedOp (carry rest : List UInt8) :
    Outcome PayloadError ((ParsedOp ⊕ List UInt8) × List UInt8) :=
  match tryResolveTotalLen carry rest with
  | .error e => .corrupt e
  | .ok (none, carry, rest) => .ok (.inr carry, rest)
  | .ok (some total, carry, rest) =>
    if total < carry.length then .corrupt (.carriedExceeded carry.length total)
    else
      let take := min (total - carry.length) rest.length
      let carry := carry ++ rest.take take
      let rest := rest.drop take
      if carry.length < total then .ok (.inr carry, rest)
      else
        match tryParseOneOpFromBuf commitTs carry with
        | .ok (op, consumed) =>
          if consumed = carry.length then .ok (.inl op, rest)
          else .corrupt (.carriedConsumed consumed carry.length)
        | .eof => .corrupt .carriedIncomplete
        | .corrupt e => .corrupt e
        | .panic => .panic

/-- The loop of `parse_encrypted_payload` over the decrypted chunks. -/
def parseChunks (carry : List UInt8) (ops : List ParsedOp) :
    List (List UInt8) → Outcome PayloadError (List ParsedOp)
  | [] =>
    if ops.length ≠ opCount then .corrupt (.missingOps ops.length opCount)
    else if carry ≠ [] then .corrupt (.trailingPlaintext carry.length)
    else .ok ops
  | plaintext :: chunks =>
    let fresh (ops : List ParsedOp) (rest : List UInt8) :=
      match parseDecryptedChunkOps commitTs (opCount - ops.length) ops rest with
      | .ok (ops, rest) => parseChunks rest ops chunks
      | .eof => .eof
      | .corrupt e => .corrupt e
      | .panic => .panic
    if opCount < ops.length then .panic
    else if carry = [] then fresh ops plaintext
    else if ops.length = opCount then .corrupt (.trailingCarriedBytes opCount)
    else
      match tryFinishCarriedOp commitTs carry plaintext with
      | .ok (.inl op, rest) => fresh (ops ++ [op]) rest
      | .ok (.inr carry, _) => parseChunks carry ops chunks
      | .eof => .eof
      | .corrupt e => .corrupt (.carried e)
      | .panic => .panic

/-- The plaintext of each chunk, by `encrypted_payload_chunk_count` and
`encrypted_chunk_plaintext_len`. -/
def plaintextChunks (chunkSize : Nat) (plaintext : List UInt8) : List (List UInt8) :=
  (List.range ((plaintext.length + chunkSize - 1) / chunkSize)).map fun i =>
    (plaintext.drop (i * chunkSize)).take chunkSize

/-- `parse_encrypted_payload`, where decryption returns the plaintext of each chunk. -/
def parseEncryptedPayload (chunkSize : Nat) (plaintext : List UInt8) :
    Outcome PayloadError (List ParsedOp) :=
  parseChunks commitTs opCount [] [] (plaintextChunks chunkSize plaintext)

end

end PgMicro.PersistentStorage
