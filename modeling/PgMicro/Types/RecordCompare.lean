import PgMicro.Types.RecordColumns

/-!
# Comparing a record with a key

`compare_immutable`, `find_compare` and the three comparators it chooses from, of
`core/types.rs`. Indexing a slice behind its end is a panic. Of an `IndexInfo` the comparators
read the columns and their number, of a `KeyInfo` the sort order and the collation.
-/

namespace PgMicro.Types

open Codec Storage

inductive SortOrder where
  | asc
  | desc
  deriving DecidableEq, Repr

structure KeyInfo where
  sortOrder : SortOrder
  collation : CollationSeq
  deriving DecidableEq, Repr

structure IndexInfo where
  keyInfo : List KeyInfo
  numCols : Nat
  deriving DecidableEq, Repr

def IndexInfo.default : IndexInfo := ⟨[], 1⟩

inductive Failure where
  | error (e : LimboError)
  | panic
  deriving DecidableEq, Repr

abbrev Outcome (α : Type) := Except Failure α

/-- The operator `?`. -/
def Result.lift {α : Type} : Result α → Outcome α
  | .ok a => .ok a
  | .error e => .error (.error e)

/-- `&payload[pos..]`. -/
def sliceFrom (payload : List UInt8) (pos : Nat) : Outcome (List UInt8) :=
  if pos ≤ payload.length then .ok (payload.drop pos) else .error .panic

/-- `key_info[i]`. -/
def keyAt (keyInfo : List KeyInfo) (i : Nat) : Outcome KeyInfo :=
  match keyInfo[i]? with
  | some key => .ok key
  | none => .error .panic

def SortOrder.apply : SortOrder → Ordering → Ordering
  | .asc, comparison => comparison
  | .desc, comparison => comparison.swap

variable [UncasedStr]

/-- `compare_immutable`; `none` where its assertions fail. -/
def compareImmutable (l r : List Value) (columnInfo : List KeyInfo) : Option Ordering :=
  if columnInfo.length ≤ l.length ∧ columnInfo.length ≤ r.length then some (go l r columnInfo)
  else none
where
  go : List Value → List Value → List KeyInfo → Ordering
    | l :: ls, r :: rs, key :: keys =>
      match compareImmutableSingle l r key.collation with
      | .eq => go ls rs keys
      | cmp => key.sortOrder.apply cmp
    | _, _, _ => .eq

def compareImmutableIter (l r : ValueIterator) : List KeyInfo → Result Ordering
  | [] => .ok .eq
  | key :: keys =>
    match l.next with
    | (none, _) => .ok .eq
    | (some lv, l) =>
      match r.next with
      | (none, _) => .ok .eq
      | (some rv, r) => do
        let lv ← lv
        let rv ← rv
        match compareImmutableSingle lv rv key.collation with
        | .eq => compareImmutableIter l r keys
        | cmp => .ok (key.sortOrder.apply cmp)

inductive RecordCompare where
  | int
  | string
  | generic
  deriving DecidableEq, Repr

/-- The first loop of `compare_records_generic`: the positions behind `skip` fields. -/
def skipFields (payload : List UInt8) (headerEnd : Nat) : Nat → Nat → Nat → Outcome (Nat × Nat)
  | 0, headerPos, dataPos => .ok (headerPos, dataPos)
  | skip + 1, headerPos, dataPos =>
    if headerPos ≥ headerEnd then .ok (headerPos, dataPos)
    else do
      let header ← sliceFrom payload headerPos
      let (serialTypeRaw, bytesRead) ← (readVarintOrCorrupt header).lift
      let serialType ← (SerialType.tryFrom serialTypeRaw).lift
      let dataPos :=
        match serialType.kind with
        | .constInt0 | .constInt1 | .null => dataPos
        | _ => dataPos + serialType.size
      skipFields payload headerEnd skip (headerPos + bytesRead) dataPos

def readField (payload : List UInt8) (dataPos : Nat) (serialType : SerialType) :
    Outcome (Value × Nat) :=
  match serialType.kind with
  | .constInt0 => .ok (.integer 0, 0)
  | .constInt1 => .ok (.integer 1, 0)
  | .null => .ok (.null, 0)
  | _ => do
    let data ← sliceFrom payload dataPos
    (readValue data serialType).lift

/-- The second loop, over the values of the key from `fieldIdx` on. -/
def compareFields (payload : List UInt8) (headerEnd fieldLimit : Nat) (keyInfo : List KeyInfo)
    (tieBreaker : Ordering) : List Value → Nat → Nat → Nat → Outcome Ordering
  | [], _, _, _ => .ok tieBreaker
  | rhsValue :: unpacked, fieldIdx, headerPos, dataPos =>
    if fieldIdx ≥ fieldLimit ∨ headerPos ≥ headerEnd then .ok tieBreaker
    else do
      let header ← sliceFrom payload headerPos
      let (serialTypeRaw, bytesRead) ← (readVarintOrCorrupt header).lift
      let serialType ← (SerialType.tryFrom serialTypeRaw).lift
      let (lhsValue, fieldSize) ← readField payload dataPos serialType
      let key ← keyAt keyInfo fieldIdx
      match key.sortOrder.apply (compareImmutableSingle lhsValue rhsValue key.collation) with
      | .eq =>
        compareFields payload headerEnd fieldLimit keyInfo tieBreaker unpacked (fieldIdx + 1)
          (headerPos + bytesRead) (dataPos + fieldSize)
      | finalComparison => .ok finalComparison

variable (payload : List UInt8) (unpacked : List Value) (indexInfo : IndexInfo)

def compareRecordsGeneric (skip : Nat) (tieBreaker : Ordering) : Outcome Ordering :=
  if payload = [] then .ok .lt
  else do
    let (headerSize, headerPos) ← (readVarintOrCorrupt payload).lift
    let (headerPos, dataPos) ← skipFields payload headerSize skip headerPos headerSize
    compareFields payload headerSize (min unpacked.length indexInfo.keyInfo.length)
      indexInfo.keyInfo tieBreaker (unpacked.drop skip) skip headerPos dataPos

def firstSerialType : Outcome (Nat × Nat) := do
  let (headerSize, offset1stSerialtype) ← (readVarintOrCorrupt payload).lift
  if payload.length < headerSize then
    .error (.error (.corrupt ("Record payload too short: claimed header size " ++
      toString headerSize ++ " but payload only " ++ toString payload.length ++ " bytes")))
  else do
    let header ← sliceFrom payload offset1stSerialtype
    let (serialType, _) ← (readVarintOrCorrupt header).lift
    .ok (headerSize, serialType)

def compareRecordsInt (tieBreaker : Ordering) : Outcome Ordering :=
  if payload.length < 2 then compareRecordsGeneric payload unpacked indexInfo 0 tieBreaker
  else do
    let (dataStart, serialType) ← firstSerialType payload
    if (1 ≤ serialType ∧ serialType ≤ 6) ∨ serialType = 8 ∨ serialType = 9 then do
      let data ← sliceFrom payload dataStart
      let lhsInt ← (readInteger data serialType).lift
      match unpacked with
      | [] => .error .panic
      | .integer rhsInt :: _ => do
        let key ← keyAt indexInfo.keyInfo 0
        match key.sortOrder.apply (compare lhsInt.toInt rhsInt.toInt) with
        | .eq =>
          if unpacked.length > 1 then
            compareRecordsGeneric payload unpacked indexInfo 1 tieBreaker
          else .ok tieBreaker
        | other => .ok other
      | _ => compareRecordsGeneric payload unpacked indexInfo 0 tieBreaker
    else compareRecordsGeneric payload unpacked indexInfo 0 tieBreaker

def compareRecordsString (tieBreaker : Ordering) : Outcome Ordering :=
  if payload.length < 2 then compareRecordsGeneric payload unpacked indexInfo 0 tieBreaker
  else do
    let (dataStart, firstSerialType) ← firstSerialType payload
    if 13 ≤ firstSerialType ∧ firstSerialType % 2 = 1 then
      match unpacked with
      | [] => .error .panic
      | .text rhsText :: _ => do
        let serialType ← (SerialType.tryFrom firstSerialType).lift
        let data ← sliceFrom payload dataStart
        let (lhsValue, _) ← (readValue data serialType).lift
        match lhsValue with
        | .text lhsText => do
          let key ← keyAt indexInfo.keyInfo 0
          match key.sortOrder.apply (key.collation.compareStrings lhsText rhsText) with
          | .eq =>
            match compare lhsText.length rhsText.length with
            | .eq =>
              if unpacked.length > 1 then
                compareRecordsGeneric payload unpacked indexInfo 1 tieBreaker
              else .ok tieBreaker
            | lenCmp => .ok (key.sortOrder.apply lenCmp)
          | other => .ok other
        | _ => compareRecordsGeneric payload unpacked indexInfo 0 tieBreaker
      | _ => compareRecordsGeneric payload unpacked indexInfo 0 tieBreaker
    else compareRecordsGeneric payload unpacked indexInfo 0 tieBreaker

def findCompare (unpacked : List Value) (indexInfo : IndexInfo) : Outcome RecordCompare :=
  if indexInfo.numCols ≤ 13 then
    match unpacked with
    | .integer _ :: _ => .ok .int
    | .text _ :: _ => do
      let key ← keyAt indexInfo.keyInfo 0
      .ok (if key.collation = .binary then .string else .generic)
    | _ => .ok .generic
  else .ok .generic

def RecordCompare.compare (comparer : RecordCompare) (payload : List UInt8)
    (unpacked : List Value) (indexInfo : IndexInfo) (skip : Nat) (tieBreaker : Ordering) :
    Outcome Ordering :=
  match comparer with
  | .int => compareRecordsInt payload unpacked indexInfo tieBreaker
  | .string => compareRecordsString payload unpacked indexInfo tieBreaker
  | .generic => compareRecordsGeneric payload unpacked indexInfo skip tieBreaker

end PgMicro.Types
