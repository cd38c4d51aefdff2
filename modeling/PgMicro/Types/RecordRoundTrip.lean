import Mathlib.Algebra.Order.BigOperators.Group.List
import PgMicro.Types.RecordColumns

/-!
# What `from_values` writes is read back

The header size counts its own varint; `calc_header_size` climbs to a fixed point. A value
becomes a column that decodes to it, and the columns of a record are read in order.
-/

namespace PgMicro.Types

open Codec Storage List Column SerialType

variable {headerSize : Nat}

def IsHeaderSize (sizeofSerialTypes headerSize : Nat) : Prop :=
  headerSize = sizeofSerialTypes + (writeVarint headerSize).length

instance (sizeofSerialTypes headerSize : Nat) :
    Decidable (IsHeaderSize sizeofSerialTypes headerSize) :=
  inferInstanceAs (Decidable (_ = _))

/-- The size after the first two rounds of `calc_header_size`. -/
def headerSizeOf (sizeofSerialTypes : Nat) : Nat :=
  sizeofSerialTypes +
    (writeVarint (sizeofSerialTypes + (writeVarint sizeofSerialTypes).length)).length

section

variable {S : Nat} (hsmall : S + 9 < 2 ^ 64)

include hsmall

theorem isHeaderSize_headerSizeOf : IsHeaderSize S (headerSizeOf S) := by
  have hpos : 0 < (writeVarint S).length := length_writeVarint_pos (by omega)
  have hnine : (writeVarint S).length ≤ 9 := length_writeVarint_le (by omega)
  rw [IsHeaderSize, headerSizeOf]
  generalize hk : (writeVarint (S + (writeVarint S).length)).length = k
  have hk9 : k ≤ 9 := hk ▸ length_writeVarint_le (by omega)
  have hle : (writeVarint S).length ≤ k := hk ▸ length_writeVarint_mono (by omega) (by omega)
  refine congrArg (S + ·) (Nat.le_antisymm ?_ ?_)
  · nth_rewrite 1 [← hk]
    exact length_writeVarint_mono (by omega) (by omega)
  rcases Nat.eq_or_lt_of_le hle with heq | hlt
  · rw [← heq, hk, heq]
  -- the varint has grown by a byte once, so the next byte is far away
  obtain ⟨i, rfl⟩ : ∃ i, k = i + 2 := ⟨k - 2, by omega⟩
  have hS := (length_writeVarint_le_iff (show S < 2 ^ 64 by omega) (show i < 8 by omega)).1
    (by omega)
  rcases Nat.eq_or_lt_of_le hk9 with hlast | hbelow
  · rw [hlast]
    exact length_writeVarint_le (by omega)
  · have hfar : 128 ≤ 128 ^ (i + 1) := Nat.le_self_pow (by omega) 128
    refine (length_writeVarint_le_iff (by omega) (show i + 1 < 8 by omega)).2 ?_
    rw [Nat.pow_succ]
    omega

/-- `calc_header_size` settles. -/
theorem calcHeaderSize_eq : calcHeaderSize S = some (headerSizeOf S) := by
  have hfixed : S + (writeVarint (headerSizeOf S)).length = headerSizeOf S :=
    (isHeaderSize_headerSizeOf hsmall).symm
  have hpos : 0 < (writeVarint S).length := length_writeVarint_pos (by omega)
  have hsecond : S + (writeVarint (S + (writeVarint S).length)).length = headerSizeOf S := rfl
  rw [calcHeaderSize]
  split
  next hshort =>
    have hone (n : Nat) (h : n ≤ 127) : (writeVarint n).length = 1 := by
      rw [writeVarint, if_pos h, length_singleton]
    rw [headerSizeOf, hone S (by omega), hone (S + 1) (by omega)]
  · rw [calcHeaderSizeLoop, if_neg (by omega), calcHeaderSizeLoop, hsecond]
    split
    next hsame => rw [hsame]
    · rw [calcHeaderSizeLoop, if_pos hfixed]

end

theorem integer_form (i : Int64) :
    (contentBytes (.integer i) = [] ∧ (ofInteger i).size = 0 ∧
      ∀ body, (ofInteger i).decode body = .integer i) ∨
    ∃ width, contentBytes (.integer i) = toSignedBE width i.toInt ∧
      (ofInteger i).size = width ∧
      (∀ body, (ofInteger i).decode body = .integer (Int64.ofInt (signedBE body))) ∧
      -(256 ^ width : Int) ≤ 2 * i.toInt ∧ 2 * i.toInt < 256 ^ width := by
  have hlow := i.le_toInt
  have hhigh := i.toInt_lt
  rw [contentBytes]
  generalize hs : ofInteger i = s
  rw [ofInteger] at hs
  split at hs
  · obtain rfl : i = 0 := Int64.toInt_inj.1 ‹_›
    exact hs ▸ .inl ⟨rfl, rfl, fun _ => rfl⟩
  split at hs
  · obtain rfl : i = 1 := Int64.toInt_inj.1 ‹_›
    exact hs ▸ .inl ⟨rfl, rfl, fun _ => rfl⟩
  split at hs
  · exact hs ▸ .inr ⟨1, rfl, rfl, fun _ => rfl, by omega, by omega⟩
  split at hs
  · exact hs ▸ .inr ⟨2, rfl, rfl, fun _ => rfl, by omega, by omega⟩
  split at hs
  · exact hs ▸ .inr ⟨3, drop_toSignedBE 1 3 _, rfl, fun _ => rfl, by omega, by omega⟩
  split at hs
  · exact hs ▸ .inr ⟨4, rfl, rfl, fun _ => rfl, by omega, by omega⟩
  split at hs
  · exact hs ▸ .inr ⟨6, drop_toSignedBE 2 6 _, rfl, fun _ => rfl, by omega, by omega⟩
  · exact hs ▸ .inr ⟨8, rfl, rfl, fun _ => rfl, by omega, by omega⟩

theorem SerialType.kind_text (size : Nat) : (text size).kind = .text := by
  rw [kind_of_le (show 12 ≤ 13 + size * 2 by omega)]
  exact if_neg (show (13 + size * 2) % 2 ≠ 0 by omega)

theorem SerialType.kind_blob (size : Nat) : (blob size).kind = .blob := by
  rw [kind_of_le (show 12 ≤ 12 + size * 2 by omega)]
  exact if_pos (show (12 + size * 2) % 2 = 0 by omega)

theorem length_contentBytes (v : Value) : (contentBytes v).length = (ofValue v).size := by
  cases v with
  | null => rfl
  | integer i =>
    rcases integer_form i with ⟨hbytes, hsize, -⟩ | ⟨width, hbytes, hsize, -⟩
    · rw [hbytes, ofValue, hsize, length_nil]
    · rw [hbytes, ofValue, hsize, length_toSignedBE]
  | float f => exact length_toBE ..
  | text t =>
    rw [ofValue, size, kind_text]
    simp only [contentBytes, text]
    omega
  | blob b =>
    rw [ofValue, size, kind_blob]
    simp only [contentBytes, blob]
    omega

theorem decode_contentBytes (v : Value) : (ofValue v).decode (contentBytes v) = v := by
  cases v with
  | null => rfl
  | integer i =>
    rw [ofValue]
    rcases integer_form i with ⟨-, -, hdecode⟩ | ⟨width, hbytes, -, hdecode, hlow, hhigh⟩
    · exact hdecode _
    · rw [hdecode, hbytes, signedBE_toSignedBE hlow hhigh, Int64.ofInt_toInt]
  | float f =>
    have hbits : UInt64.ofNat (ofBE (toBE 8 f.bits.toNat)) = f.bits := by
      rw [ofBE_toBE f.bits.toNat_lt, UInt64.ofNat_toNat]
    change Value.fromF64 (UInt64.ofNat (ofBE (toBE 8 f.bits.toNat))) = _
    rw [hbits, Value.fromF64_bits]
  | text t => rw [ofValue, decode, kind_text, contentBytes]
  | blob b => rw [ofValue, decode, kind_blob, contentBytes]

theorem SerialType.val_le (v : Value) : (ofValue v).val ≤ 2 * (ofValue v).size + 13 := by
  rw [← length_contentBytes]
  cases v with
  | integer i =>
    have hsmall : (ofInteger i).val ≤ 9 := by
      rw [ofInteger]
      repeat' split
      all_goals exact Nat.le_of_ble_eq_true rfl
    exact Nat.le_trans hsmall (by omega)
  | text t | blob b =>
    simp only [ofValue, text, blob, contentBytes]
    omega
  | null | float f => exact Nat.le_trans (Nat.le_of_ble_eq_true rfl) (Nat.le_add_left 13 _)

def sizeHeader (values : List Value) : Nat :=
  (values.map fun v => (writeVarint (ofValue v).val).length).sum

def sizeValues (values : List Value) : Nat :=
  (values.map fun v => (ofValue v).size).sum

/-- The record is no longer than an allocation may be. -/
def Fits (values : List Value) : Prop :=
  headerSizeOf (sizeHeader values) + sizeValues values ≤ isizeMax

instance (values : List Value) : Decidable (Fits values) := inferInstanceAs (Decidable (_ ≤ _))

section

variable {values : List Value}

theorem Fits.serial_lt (h : Fits values) {v : Value} (hv : v ∈ values) :
    (ofValue v).val < 2 ^ 64 := by
  rw [Fits, headerSizeOf, isizeMax] at h
  by_contra hlarge
  rw [Nat.not_lt] at hlarge
  have hvarint : 9 ≤ (writeVarint (ofValue v).val).length :=
    nine_le_length_writeVarint (Nat.le_trans (by decide) hlarge)
  have hheader : (writeVarint (ofValue v).val).length ≤ sizeHeader values :=
    single_le_sum (fun _ _ => Nat.zero_le _) _ (mem_map_of_mem hv)
  have hbody : (ofValue v).size ≤ sizeValues values :=
    single_le_sum (fun _ _ => Nat.zero_le _) _ (mem_map_of_mem hv)
  have hhalf := val_le v
  omega

def Column.ofValue (v : Value) (small : (ofValue v).val < 2 ^ 64) : Column :=
  ⟨SerialType.ofValue v, contentBytes v, small, length_contentBytes v⟩

def Column.ofValues (values : List Value)
    (small : ∀ v ∈ values, (SerialType.ofValue v).val < 2 ^ 64) : List Column :=
  values.pmap ofValue small

section

variable (small : ∀ v ∈ values, (SerialType.ofValue v).val < 2 ^ 64)

theorem Column.map_value_ofValues : (ofValues values small).map value = values := by
  rw [ofValues, map_pmap]
  simp [value, ofValue, decode_contentBytes, pmap_eq_map, map_id']

theorem Column.headerBytes_ofValues :
    headerBytes (ofValues values small) =
      values.flatMap fun v => writeVarint (SerialType.ofValue v).val := by
  rw [headerBytes, ofValues, flatMap_def, map_pmap, flatMap_def]
  simp [ofValue, pmap_eq_map]

theorem Column.dataBytes_ofValues :
    dataBytes (ofValues values small) = values.flatMap contentBytes := by
  rw [dataBytes, ofValues, flatMap_def, map_pmap, flatMap_def]
  simp [ofValue, pmap_eq_map]

end

theorem length_serials (values : List Value) :
    (values.flatMap fun v => writeVarint (SerialType.ofValue v).val).length = sizeHeader values :=
  length_flatMap ..

theorem length_contents (values : List Value) :
    (values.flatMap contentBytes).length = sizeValues values := by
  rw [length_flatMap, sizeValues]
  simp [length_contentBytes]

def recordBytes (headerSize : Nat) (values : List Value) : List UInt8 :=
  writeVarint headerSize ++ (values.flatMap fun v => writeVarint (SerialType.ofValue v).val) ++
    values.flatMap contentBytes

section

variable (hcalc : calcHeaderSize (sizeHeader values) = some headerSize)

include hcalc

theorem fromValues_eq (hsize : IsHeaderSize (sizeHeader values) headerSize)
    (hfits : headerSize + sizeValues values ≤ isizeMax) :
    fromValues values = some (recordBytes headerSize values) := by
  have hserials : ((values.map fun v => writeVarint (SerialType.ofValue v).val).map
      length).sum = sizeHeader values := by
    rw [map_map]
    rfl
  have hflatten : (writeVarint headerSize :: (values.map fun v =>
      writeVarint (SerialType.ofValue v).val) ++ values.map contentBytes).flatten =
        recordBytes headerSize values := by
    rw [flatten_append, flatten_cons, ← flatMap_def, ← flatMap_def, recordBytes]
  have hlength : (recordBytes headerSize values).length = headerSize + sizeValues values := by
    rw [recordBytes, length_append, length_append, length_serials, length_contents]
    rw [IsHeaderSize] at hsize
    omega
  have hvalues : (values.map fun v => (SerialType.ofValue v).size).sum = sizeValues values := rfl
  rw [fromValues]
  simp only [hserials, hvalues, hcalc, Option.bind_eq_bind, Option.bind_some]
  rw [if_pos hfits, appendWriter]
  simp only [hflatten, hlength, le_refl, if_true, Nat.sub_self, replicate_zero,
    append_nil]

theorem serialize_eq
    (buf : List UInt8) : serialize values buf = some (buf ++ recordBytes headerSize values) := by
  rw [serialize]
  simp only [length_append, length_serials, Nat.add_sub_cancel_left, hcalc,
    Option.bind_eq_bind, Option.bind_some, append_assoc, take_left, drop_left]
  rw [recordBytes, append_assoc]
  rfl

end

theorem Fits.isRecord (h : Fits values) :
    ∃ headerSize, calcHeaderSize (sizeHeader values) = some headerSize ∧ headerSize < 2 ^ 64 ∧
      IsHeaderSize (sizeHeader values) headerSize ∧
      fromValues values = some (recordBytes headerSize values) ∧
      ∃ cols, cols.map value = values ∧ IsRecord cols (recordBytes headerSize values) := by
  have hbytes : headerSizeOf (sizeHeader values) + sizeValues values < 2 ^ 63 :=
    Nat.lt_succ_of_le h
  have hsmall : sizeHeader values + 9 < 2 ^ 64 := by
    rw [headerSizeOf] at hbytes
    omega
  have hcalc := calcHeaderSize_eq hsmall
  have hsize := isHeaderSize_headerSizeOf hsmall
  refine ⟨_, hcalc, by omega, hsize, fromValues_eq hcalc hsize h,
    ofValues values fun v hv => h.serial_lt hv, map_value_ofValues _,
    ⟨headerSizeOf (sizeHeader values), by omega, ?_, ?_⟩⟩
  · rw [headerBytes_ofValues, length_serials, Nat.add_comm]
    exact hsize
  · rw [headerBytes_ofValues, dataBytes_ofValues, recordBytes]

end

inductive Call where
  | next
  | nth (n : Nat)

def ValueIterator.call (iter : ValueIterator) : Call → Option (Result Value) × ValueIterator
  | .next => iter.next
  | .nth n => iter.nth n

def ValueIterator.answers : List Call → ValueIterator → List (Option (Result Value))
  | [], _ => []
  | c :: calls, iter => (iter.call c).1 :: answers calls (iter.call c).2

/-- What a list of values answers: `next` takes the first one, `nth` the one behind `n` others.
An `nth` that would have to pass the end leaves the list as it is. -/
def answersOf : List Call → List Value → List (Option (Result Value))
  | [], _ => []
  | .next :: calls, values => values.head?.map .ok :: answersOf calls values.tail
  | .nth n :: calls, values =>
    values[n]?.map .ok ::
      answersOf calls (if n ≤ values.length then values.drop (n + 1) else values)

theorem ValueIterator.next_before (cols : List Column) :
    next (.before cols) = ((cols.map value).head?.map .ok, .before cols.tail) := by
  cases cols with
  | nil => rfl
  | cons c cols => rw [next_before_cons]; rfl

theorem ValueIterator.answers_before (calls : List Call) (cols : List Column) :
    answers calls (.before cols) = answersOf calls (cols.map value) := by
  induction calls generalizing cols with
  | nil => rfl
  | cons c calls ih =>
    cases c with
    | next =>
      rw [answers, call, next_before, answersOf, ih, map_tail]
    | nth n =>
      rw [answers, call, nth_before, answersOf, length_map]
      split
      · rw [next_before, ih, map_drop, head?_drop, tail_drop, map_drop]
      · rw [ih, getElem?_eq_none (by rw [length_map]; omega)]
        rfl

theorem record_round_trip (values : List Value) (hfits : Fits values) :
    ∃ payload headerSize, fromValues values = some payload ∧
      calcHeaderSize (sizeHeader values) = some headerSize ∧
      readVarintOrCorrupt payload = .ok (headerSize, (writeVarint headerSize).length) ∧
      headerSize = (writeVarint headerSize).length + sizeHeader values ∧
      (∃ iter, ValueIterator.new payload = .ok iter ∧
        ∀ calls, ValueIterator.answers calls iter = answersOf calls values) ∧
      getValues payload = .ok values ∧
      (∀ idx, getValue payload idx =
        match values[idx]? with
        | some v => .ok v
        | none => .error (.internalError "Index out of bounds")) ∧
      columnCount payload = values.length ∧
      ∀ buf, serialize values buf = some (buf ++ payload) := by
  obtain ⟨headerSize, hcalc, hsmall, hsize, hwritten, cols, hcols, hrecord⟩ := hfits.isRecord
  refine ⟨recordBytes headerSize values, headerSize, hwritten, hcalc, ?_, ?_,
    ⟨.before cols, hrecord.new, fun calls => ?_⟩, ?_, fun idx => ?_, ?_, serialize_eq hcalc⟩
  · rw [recordBytes, append_assoc, readVarintOrCorrupt_writeVarint hsmall]
  · rw [Nat.add_comm]
    exact hsize
  · rw [ValueIterator.answers_before, hcols]
  · rw [hrecord.getValues, hcols]
  · rw [hrecord.getValue, ← hcols, getElem?_map]
    cases cols[idx]? <;> rfl
  · rw [hrecord.columnCount, ← hcols, length_map]

def fiveKinds : List Value :=
  [.null, .integer (-70000), .float ⟨0x3ff8000000000000, by decide⟩, .text [104, 105],
    .blob [0, 255, 7]]

theorem record_round_trip_fiveKinds :
    Fits fiveKinds ∧ ∃ payload, fromValues fiveKinds = some payload ∧
      getValues payload = .ok fiveKinds := by
  have hfits : Fits fiveKinds := by decide
  obtain ⟨payload, -, hwritten, -, -, -, -, hvalues, -⟩ := record_round_trip fiveKinds hfits
  exact ⟨hfits, payload, hwritten, hvalues⟩

end PgMicro.Types
