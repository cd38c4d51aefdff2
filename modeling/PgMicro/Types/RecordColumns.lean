import PgMicro.Types.Record

/-!
# The columns of a record

A record is a header size, the serial types of its columns and then their bodies. Whatever
reads it goes from column to column, so each reader has a lemma for one column and an
induction over the columns.
-/

namespace PgMicro.Types

open Codec Storage List ValueIterator SerialType

variable {width size : Nat}

theorem SerialType.kind_of_le {s : SerialType} (h : 12 ≤ s.val) :
    s.kind = if s.val % 2 = 0 then .blob else .text := by
  obtain ⟨n, hn⟩ := s
  obtain ⟨n, rfl⟩ := Nat.exists_eq_add_of_le' h
  rfl

def SerialType.decode (s : SerialType) (body : List UInt8) : Value :=
  match s.kind with
  | .null => .null
  | .i8 | .i16 | .i24 | .i32 | .i48 | .i64 => .integer (Int64.ofInt (signedBE body))
  | .f64 => Value.fromF64 (UInt64.ofNat (ofBE body))
  | .constInt0 => .integer 0
  | .constInt1 => .integer 1
  | .text => .text body
  | .blob => .blob body

/-- A column: its serial type, a `u64`, and as many bytes as that says. -/
structure Column where
  serial : SerialType
  body : List UInt8
  small : serial.val < 2 ^ 64
  fits : body.length = serial.size

namespace Column

def value (c : Column) : Value := c.serial.decode c.body

def headerBytes (cols : List Column) : List UInt8 :=
  cols.flatMap fun c => writeVarint c.serial.val

def dataBytes (cols : List Column) : List UInt8 := cols.flatMap Column.body

@[simp]
theorem headerBytes_nil : headerBytes [] = [] := rfl

@[simp]
theorem headerBytes_cons (c : Column) (cols : List Column) :
    headerBytes (c :: cols) = writeVarint c.serial.val ++ headerBytes cols := rfl

@[simp]
theorem dataBytes_nil : dataBytes [] = [] := rfl

@[simp]
theorem dataBytes_cons (c : Column) (cols : List Column) :
    dataBytes (c :: cols) = c.body ++ dataBytes cols := rfl

end Column

open Column

structure IsRecord (cols : List Column) (payload : List UInt8) : Prop where
  intro ::
  format : ∃ headerSize, headerSize < 2 ^ 64 ∧
    headerSize = (writeVarint headerSize).length + (headerBytes cols).length ∧
    payload = writeVarint headerSize ++ headerBytes cols ++ dataBytes cols

theorem readVarintOrCorrupt_writeVarint {n : Nat} (h : n < 2 ^ 64) (tail : List UInt8) :
    readVarintOrCorrupt (writeVarint n ++ tail) = .ok (n, (writeVarint n).length) := by
  rw [readVarintOrCorrupt, readVarint_writeVarint h]

section

variable {body : List UInt8} (tail : List UInt8) (message : String)

theorem readInt_body (extension : Nat) (hwidth : 0 < width) (hlen : body.length = width) :
    readInt width extension message (body ++ tail) = .ok (Int64.ofInt (signedBE body)) := by
  cases body with
  | nil =>
    rw [length_nil] at hlen
    omega
  | cons first rest =>
    rw [cons_append, readInt, ← cons_append, if_neg (by simp [← hlen]),
      take_left' hlen, signedBE_replicate]

theorem readSigned_body (extension : Nat) (hwidth : 0 < width) (hlen : body.length = width) :
    readSigned width extension message (body ++ tail) =
      .ok (.integer (Int64.ofInt (signedBE body)), width) := by
  rw [readSigned, readInt_body tail message extension hwidth hlen]

theorem readF64_body (hlen : body.length = 8) :
    readF64 message (body ++ tail) = .ok (Value.fromF64 (UInt64.ofNat (ofBE body)), 8) := by
  rw [readF64, if_neg (by simp [hlen]), take_left' hlen]

theorem readBlob_body (hlen : body.length = size) :
    readBlob size (body ++ tail) = .ok (.blob body, size) := by
  rw [readBlob, if_pos (by simp [hlen]), take_left' hlen]

theorem readText_body (hlen : body.length = size) :
    readText size (body ++ tail) = .ok (.text body, size) := by
  rw [readText, if_pos (by simp [hlen]), take_left' hlen]

theorem readValue_column (c : Column) :
    readValue (c.body ++ tail) c.serial = .ok (c.value, c.serial.size) := by
  have hfits := c.fits
  rw [value, decode, readValue]
  cases hkind : c.serial.kind
  case text => exact readText_body tail hfits
  case blob => exact readBlob_body tail hfits
  all_goals
    simp only [size, hkind] at hfits ⊢
  case f64 => exact readF64_body tail _ hfits
  all_goals exact readSigned_body tail _ _ (by decide) hfits

/-- `read_value_serial_type` reads what `read_value` reads. -/
theorem readValueSerialType_column (c : Column) :
    readValueSerialType (c.body ++ tail) c.serial.val = .ok (c.value, c.serial.size) := by
  obtain ⟨⟨n, hn⟩, body, small, fits⟩ := c
  match n, hn with
  | 0, _ | 8, _ | 9, _ => rfl
  | 1, _ | 2, _ | 3, _ | 4, _ | 5, _ | 6, _ => exact readSigned_body tail _ _ (by decide) fits
  | 7, _ => exact readF64_body tail _ fits
  | 10, hn | 11, hn => simp at hn
  | n + 12, hn =>
    have hkind : kind ⟨n + 12, hn⟩ = if (n + 12) % 2 = 0 then .blob else .text :=
      kind_of_le (Nat.le_add_left 12 n)
    have hread : readValueSerialType (body ++ tail) (n + 12) =
        if (n + 12) % 2 = 0 then readBlob ((n + 12 - 12) / 2) (body ++ tail)
        else readText ((n + 12 - 13) / 2) (body ++ tail) := rfl
    simp only [value, decode, size, hkind, hread] at fits ⊢
    rcases Nat.mod_two_eq_zero_or_one (n + 12) with heven | hodd
    · simp only [heven] at fits ⊢
      exact readBlob_body tail fits
    · simp only [hodd, Nat.one_ne_zero] at fits ⊢
      exact readText_body tail fits

theorem getSerialTypeSize_eq (s : SerialType) : getSerialTypeSize s.val = .ok s.size := by
  obtain ⟨n, hn⟩ := s
  match n, hn with
  | 0, _ | 1, _ | 2, _ | 3, _ | 4, _ | 5, _ | 6, _ | 7, _ | 8, _ | 9, _ => rfl
  | 10, hn | 11, hn => simp at hn
  | n + 12, hn =>
    have hkind : kind ⟨n + 12, hn⟩ = if (n + 12) % 2 = 0 then .blob else .text :=
      kind_of_le (Nat.le_add_left 12 n)
    have hsize : getSerialTypeSize (n + 12) =
        if (n + 12) % 2 = 0 then .ok ((n + 12 - 12) / 2) else .ok ((n + 12 - 13) / 2) := rfl
    simp only [hsize, size, hkind]
    rcases Nat.mod_two_eq_zero_or_one (n + 12) with heven | hodd
    · simp [heven]
    · simp [hodd]

theorem readInteger_column (c : Column)
    (h : (1 ≤ c.serial.val ∧ c.serial.val ≤ 6) ∨ c.serial.val = 8 ∨ c.serial.val = 9) :
    ∃ i, c.value = .integer i ∧ readInteger (c.body ++ tail) c.serial.val = .ok i := by
  obtain ⟨⟨n, hn⟩, body, small, fits⟩ := c
  match n, hn with
  | 8, _ | 9, _ => exact ⟨_, rfl, rfl⟩
  | 1, _ | 2, _ | 3, _ | 4, _ | 5, _ | 6, _ =>
    exact ⟨_, rfl, readInt_body tail _ _ (by decide) fits⟩
  | 0, _ | 7, _ | 10, _ | 11, _ => simp at h
  | n + 12, _ =>
    dsimp only at h
    omega

end

section

variable (c : Column) (cols : List Column)

include c cols

theorem Column.headerBytes_ne_nil : headerBytes (c :: cols) ≠ [] := by
  have := length_writeVarint_pos c.small
  intro hnil
  rw [headerBytes_cons, append_eq_nil_iff] at hnil
  rw [hnil.1, length_nil] at this
  exact Nat.lt_irrefl _ this

theorem Column.readVarint_headerBytes :
    readVarintOrCorrupt (headerBytes (c :: cols)) =
      .ok (c.serial.val, (writeVarint c.serial.val).length) := by
  rw [headerBytes_cons, readVarintOrCorrupt_writeVarint c.small]

theorem Column.drop_headerBytes :
    (headerBytes (c :: cols)).drop (writeVarint c.serial.val).length = headerBytes cols :=
  drop_left

theorem Column.drop_dataBytes : (dataBytes (c :: cols)).drop c.serial.size = dataBytes cols :=
  drop_left' c.fits

end

namespace ValueIterator

def before (cols : List Column) : ValueIterator := ⟨headerBytes cols, dataBytes cols⟩

theorem next_before_cons (c : Column) (cols : List Column) :
    next (.before (c :: cols)) = (some (.ok c.value), .before cols) := by
  have hvalue : readValueSerialType (dataBytes (c :: cols)) c.serial.val =
      .ok (c.value, c.serial.size) := readValueSerialType_column _ c
  rw [next, before, if_neg (c.headerBytes_ne_nil cols), c.readVarint_headerBytes]
  simp only [hvalue, c.drop_headerBytes, c.drop_dataBytes]
  rfl

theorem skipColumns_before (n : Nat) (cols : List Column) (dataSum : Nat) :
    skipColumns n (headerBytes cols) dataSum =
      if n ≤ cols.length then
        .ok (headerBytes (cols.drop n), dataSum + (dataBytes (cols.take n)).length)
      else .error none := by
  induction n generalizing cols dataSum with
  | zero => rfl
  | succ n ih =>
    cases cols with
    | nil => rfl
    | cons c cols =>
      rw [skipColumns, if_neg (c.headerBytes_ne_nil cols), c.readVarint_headerBytes]
      simp [getSerialTypeSize_eq, ih, c.fits, Nat.add_assoc]

theorem nth_before (n : Nat) (cols : List Column) :
    nth (.before cols) n =
      if n ≤ cols.length then next (.before (cols.drop n)) else (none, .before cols) := by
  have hdata : dataBytes cols =
      dataBytes (cols.take n) ++ dataBytes (cols.drop n) := by
    rw [dataBytes, dataBytes, dataBytes, ← flatMap_append,
      take_append_drop]
  rw [nth, before, skipColumns_before]
  split
  next heq =>
    split at heq
    · cases heq
    · cases heq
      rename_i hlt
      rw [if_neg hlt]
  next heq =>
    split at heq
    · cases heq
      rename_i hle
      rw [if_pos hle, Nat.zero_add, hdata, if_neg (by simp), drop_left]
      rfl
    · cases heq

theorem countFrom_headerBytes (cols : List Column) :
    countFrom (headerBytes cols) = cols.length := by
  induction cols with
  | nil =>
    rw [countFrom]
    rfl
  | cons c cols ih =>
    rw [countFrom, if_neg (c.headerBytes_ne_nil cols)]
    split
    next heq =>
      rw [c.readVarint_headerBytes] at heq
      cases heq
      rw [c.drop_headerBytes, ih, length_cons]
    next heq =>
      rw [c.readVarint_headerBytes] at heq
      cases heq

theorem collect_before (cols : List Column) : collect (.before cols) = .ok (cols.map value) := by
  induction cols with
  | nil =>
    rw [collect]
    rfl
  | cons c cols ih =>
    rw [collect]
    split
    all_goals
      rename_i heq
      rw [next_before_cons] at heq
      cases heq
    rw [ih]
    rfl

end ValueIterator

namespace IsRecord

variable {cols : List Column} {payload : List UInt8}

section

variable (h : IsRecord cols payload)

include h

theorem new : new payload = .ok (.before cols) := by
  obtain ⟨headerSize, hsmall, hsize, rfl⟩ := h.format
  have htake : (writeVarint headerSize ++ headerBytes cols ++ dataBytes cols).take
      headerSize = writeVarint headerSize ++ headerBytes cols :=
    take_left' (by rw [length_append, ← hsize])
  have hdrop : (writeVarint headerSize ++ headerBytes cols ++ dataBytes cols).drop
      headerSize = dataBytes cols :=
    drop_left' (by rw [length_append, ← hsize])
  have hread : readVarintOrCorrupt
      (writeVarint headerSize ++ headerBytes cols ++ dataBytes cols) =
        .ok (headerSize, (writeVarint headerSize).length) := by
    rw [append_assoc, readVarintOrCorrupt_writeVarint hsmall]
  rw [new, hread]
  change (if _ then _ else _) = _
  rw [if_neg (by simp only [length_append]; omega), htake, hdrop, drop_left]
  rfl

theorem ne_nil : payload ≠ [] := by
  obtain ⟨headerSize, hsmall, -, rfl⟩ := h.format
  have := length_writeVarint_pos hsmall
  intro hnil
  simp only [append_eq_nil_iff] at hnil
  rw [hnil.1.1, length_nil] at this
  exact Nat.lt_irrefl _ this

theorem getValues : getValues payload = .ok (cols.map value) := by
  rw [Types.getValues, h.new]
  exact collect_before cols

theorem getValue (idx : Nat) :
    getValue payload idx =
      match cols[idx]? with
      | some c => .ok c.value
      | none => .error (.internalError "Index out of bounds") := by
  have hnth : (nth (.before cols) idx).1 = cols[idx]?.map fun c => .ok c.value := by
    rw [nth_before]
    split
    · rw [← head?_drop]
      cases cols.drop idx with
      | nil => rfl
      | cons c rest =>
        rw [next_before_cons]
        rfl
    · rw [getElem?_eq_none (by omega)]
      rfl
  rw [Types.getValue, if_neg h.ne_nil, h.new]
  dsimp only [bind, Except.bind]
  rw [hnth]
  cases cols[idx]? <;> rfl

theorem columnCount : columnCount payload = cols.length := by
  rw [Types.columnCount, h.new]
  exact countFrom_headerBytes cols

end

end IsRecord

end PgMicro.Types
