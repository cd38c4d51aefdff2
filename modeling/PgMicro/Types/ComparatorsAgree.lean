import PgMicro.Types.RecordCompare

/-!
# The comparators agree

A comparator reads a record column by column: `Split` gives the positions and slices between what it
has read and what is left. The loop of the generic comparator is then the lexicographic comparison,
and each fast path is the generic one with its first column done by hand.
-/

namespace PgMicro.Types

open Codec Storage Column List SerialType Except ValueIterator

section

variable [UncasedStr]

def lexCompare (tieBreaker : Ordering) : List Value → List Value → List KeyInfo → Ordering
  | l :: ls, r :: rs, key :: keys =>
    match key.sortOrder.apply (compareImmutableSingle l r key.collation) with
    | .eq => lexCompare tieBreaker ls rs keys
    | other => other
  | _, _, _ => tieBreaker

@[simp]
theorem lexCompare_nil_left (tie : Ordering) (rs : List Value) (keys : List KeyInfo) :
    lexCompare tie [] rs keys = tie := rfl

@[simp]
theorem lexCompare_nil_right (tie : Ordering) (ls : List Value) (keys : List KeyInfo) :
    lexCompare tie ls [] keys = tie := by
  cases ls <;> rfl

@[simp]
theorem lexCompare_nil_keys (tie : Ordering) (ls rs : List Value) :
    lexCompare tie ls rs [] = tie := by
  cases ls with
  | nil => rfl
  | cons l ls => cases rs <;> rfl

end

@[simp]
theorem SortOrder.apply_eq_eq (order : SortOrder) (comparison : Ordering) :
    order.apply comparison = .eq ↔ comparison = .eq := by
  cases order <;> cases comparison <;> decide

/-- The record of `passed ++ left` under a header size. -/
structure Split (payload : List UInt8) (headerSize : Nat) (passed left : List Column) : Prop where
  small : headerSize < 2 ^ 64
  size : headerSize = (writeVarint headerSize).length + (headerBytes (passed ++ left)).length
  bytes : payload = writeVarint headerSize ++ headerBytes (passed ++ left) ++
    dataBytes (passed ++ left)

theorem Column.headerBytes_append (cols cols' : List Column) :
    headerBytes (cols ++ cols') = headerBytes cols ++ headerBytes cols' :=
  flatMap_append

theorem Column.dataBytes_append (cols cols' : List Column) :
    dataBytes (cols ++ cols') = dataBytes cols ++ dataBytes cols' :=
  flatMap_append

theorem SerialType.tryFrom_val (s : SerialType) : tryFrom s.val = .ok s := dif_pos s.valid

open Split

namespace Split

variable {payload : List UInt8} {headerSize : Nat} {passed left : List Column} {c : Column}

def headerPos (headerSize : Nat) (passed : List Column) : Nat :=
  (writeVarint headerSize).length + (headerBytes passed).length

def dataPos (headerSize : Nat) (passed : List Column) : Nat :=
  headerSize + (dataBytes passed).length

theorem snoc (h : Split payload headerSize passed (c :: left)) :
    Split payload headerSize (passed ++ [c]) left := by
  obtain ⟨small, size, bytes⟩ := h
  rw [← singleton_append, ← append_assoc] at size bytes
  exact ⟨small, size, bytes⟩

section

variable (h : Split payload headerSize passed left)

include h

theorem readHeader : readVarintOrCorrupt payload =
    .ok (headerSize, (writeVarint headerSize).length) := by
  rw [h.bytes, append_assoc, readVarintOrCorrupt_writeVarint h.small]

theorem le_length : headerSize ≤ payload.length := by
  have hsize := h.size
  rw [h.bytes, length_append, length_append]
  omega

theorem headerPos_le : headerPos headerSize passed ≤ headerSize := by
  have hsize := h.size
  rw [headerBytes_append, length_append] at hsize
  rw [headerPos]
  omega

theorem headerPos_eq_iff : headerSize ≤ headerPos headerSize passed ↔ left = [] := by
  have hsize := h.size
  rw [headerBytes_append, length_append] at hsize
  rw [headerPos]
  cases left with
  | nil =>
    rw [headerBytes_nil, length_nil] at hsize
    simp only [iff_true]
    omega
  | cons c left =>
    have hpos := length_pos_iff.2 (c.headerBytes_ne_nil left)
    simp only [reduceCtorEq, iff_false]
    omega

end

theorem headerPos_snoc (headerSize : Nat) (passed : List Column) (c : Column) :
    headerPos headerSize (passed ++ [c]) =
      headerPos headerSize passed + (writeVarint c.serial.val).length := by
  rw [headerPos, headerPos, headerBytes_append, length_append,
    headerBytes_cons, headerBytes_nil, append_nil, Nat.add_assoc]

theorem dataPos_snoc (headerSize : Nat) (passed : List Column) (c : Column) :
    dataPos headerSize (passed ++ [c]) = dataPos headerSize passed + c.serial.size := by
  rw [dataPos, dataPos, dataBytes_append, length_append, dataBytes_cons,
    dataBytes_nil, append_nil, c.fits, Nat.add_assoc]

section

variable (h : Split payload headerSize passed (c :: left))

include h

theorem slice_header :
    ∃ header, sliceFrom payload (headerPos headerSize passed) = .ok header ∧
      (readVarintOrCorrupt header).lift =
        .ok (c.serial.val, (writeVarint c.serial.val).length) := by
  have hpos : headerPos headerSize passed ≤ payload.length :=
    Nat.le_trans h.headerPos_le h.le_length
  have hdrop : payload.drop (headerPos headerSize passed) =
      writeVarint c.serial.val ++ (headerBytes left ++
        dataBytes (passed ++ c :: left)) := by
    rw [h.bytes, headerBytes_append, headerBytes_cons, headerPos,
      ← append_assoc (writeVarint headerSize), append_assoc _ _ (dataBytes _),
      drop_left' (length_append ..), append_assoc]
  refine ⟨_, if_pos hpos, ?_⟩
  rw [hdrop, readVarintOrCorrupt_writeVarint c.small]
  rfl

theorem slice_data :
    sliceFrom payload (dataPos headerSize passed) = .ok (c.body ++ dataBytes left) := by
  have hsize := h.size
  have hdrop : payload.drop (dataPos headerSize passed) = c.body ++ dataBytes left := by
    rw [h.bytes, dataBytes_append, dataBytes_cons, ← append_assoc,
      drop_left']
    rw [length_append, length_append, ← hsize, dataPos]
  have hpos : dataPos headerSize passed ≤ payload.length := by
    rw [h.bytes, dataBytes_append, ← append_assoc, length_append,
      length_append, length_append, ← hsize, dataPos]
    omega
  rw [sliceFrom, if_pos hpos, hdrop]

theorem readField_eq :
    readField payload (dataPos headerSize passed) c.serial = .ok (c.value, c.serial.size) := by
  have hread : (do
      let data ← sliceFrom payload (dataPos headerSize passed)
      (readValue data c.serial).lift : Outcome (Value × Nat)) = .ok (c.value, c.serial.size) := by
    rw [h.slice_data]
    change (readValue _ _).lift = _
    rw [readValue_column]
    rfl
  rw [readField, hread, value, SerialType.decode, SerialType.size]
  cases c.serial.kind <;> rfl

theorem compareFields_cons [UncasedStr] {fieldLimit fieldIdx : Nat} {keyInfo : List KeyInfo}
    {key : KeyInfo} (hkey : keyInfo[fieldIdx]? = some key) (hlimit : fieldIdx < fieldLimit)
    (tie : Ordering) (rhs : Value) (unpacked : List Value) :
    compareFields payload headerSize fieldLimit keyInfo tie (rhs :: unpacked) fieldIdx
        (headerPos headerSize passed) (dataPos headerSize passed) =
      match key.sortOrder.apply (compareImmutableSingle c.value rhs key.collation) with
      | .eq =>
        compareFields payload headerSize fieldLimit keyInfo tie unpacked (fieldIdx + 1)
          (headerPos headerSize (passed ++ [c])) (dataPos headerSize (passed ++ [c]))
      | other => .ok other := by
  obtain ⟨header, hslice, hvarint⟩ := h.slice_header
  have hleft : ¬ headerSize ≤ headerPos headerSize passed := by
    rw [h.headerPos_eq_iff]
    exact cons_ne_nil c left
  rw [compareFields, if_neg (by omega), hslice, headerPos_snoc, dataPos_snoc]
  change (bind (readVarintOrCorrupt header).lift _) = _
  rw [hvarint]
  change (bind (tryFrom c.serial.val).lift _) = _
  rw [tryFrom_val]
  change (bind (readField payload _ c.serial) _) = _
  rw [h.readField_eq]
  change (bind (keyAt keyInfo fieldIdx) _) = _
  rw [keyAt, hkey]
  rfl

end

theorem compareFields_eq [UncasedStr] (h : Split payload headerSize passed left) (fieldIdx : Nat)
    (keyInfo : List KeyInfo) (tie : Ordering) (unpacked : List Value) :
    compareFields payload headerSize (min (fieldIdx + unpacked.length) keyInfo.length) keyInfo tie
        unpacked fieldIdx (headerPos headerSize passed) (dataPos headerSize passed) =
      .ok (lexCompare tie (left.map value) unpacked (keyInfo.drop fieldIdx)) := by
  induction unpacked generalizing passed left fieldIdx with
  | nil => rw [compareFields, lexCompare_nil_right]
  | cons rhs unpacked ih =>
    cases left with
    | nil =>
      rw [compareFields, if_pos (.inr (h.headerPos_eq_iff.2 rfl)), map_nil,
        lexCompare_nil_left]
    | cons c left =>
      cases hkey : keyInfo[fieldIdx]? with
      | none =>
        have hlen := getElem?_eq_none_iff.1 hkey
        rw [compareFields, if_pos (.inl (Nat.le_trans (Nat.min_le_right ..) hlen)),
          drop_eq_nil_of_le hlen, lexCompare_nil_keys]
      | some key =>
        obtain ⟨hlt, heq⟩ := List.getElem?_eq_some_iff.1 hkey
        have hcount : fieldIdx + (rhs :: unpacked).length = fieldIdx + 1 + unpacked.length := by
          rw [length_cons]
          omega
        rw [h.compareFields_cons hkey (by rw [length_cons]; omega), hcount, ih h.snoc,
          drop_eq_getElem_cons hlt, heq, map_cons, lexCompare]
        cases key.sortOrder.apply (compareImmutableSingle c.value rhs key.collation) <;> rfl

theorem skipFields_one (h : Split payload headerSize [] (c :: left)) :
    skipFields payload headerSize 1 (headerPos headerSize []) (dataPos headerSize []) =
      .ok (headerPos headerSize [c], dataPos headerSize [c]) := by
  obtain ⟨header, hslice, hvarint⟩ := h.slice_header
  have hleft : ¬ headerSize ≤ headerPos headerSize [] := by
    rw [h.headerPos_eq_iff]
    exact cons_ne_nil c left
  rw [skipFields, if_neg hleft, hslice]
  change (bind (readVarintOrCorrupt header).lift _) = _
  rw [hvarint]
  change (bind (tryFrom c.serial.val).lift _) = _
  rw [tryFrom_val]
  change ok (_, _) = _
  have hpos := headerPos_snoc headerSize [] c
  have hdata := dataPos_snoc headerSize [] c
  rw [nil_append] at hpos hdata
  rw [hpos, hdata, SerialType.size]
  cases c.serial.kind <;> rfl

theorem of_isRecord {cols : List Column} (h : IsRecord cols payload) :
    ∃ headerSize, Split payload headerSize [] cols := by
  obtain ⟨headerSize, small, size, bytes⟩ := h.format
  exact ⟨headerSize, small, size, bytes⟩

end Split

section

variable {cols : List Column} {payload : List UInt8} (unpacked : List Value)
  (indexInfo : IndexInfo) (tie : Ordering) [UncasedStr]

theorem compareRecordsGeneric_eq (h : IsRecord cols payload) :
    compareRecordsGeneric payload unpacked indexInfo 0 tie =
      .ok (lexCompare tie (cols.map value) unpacked indexInfo.keyInfo) := by
  obtain ⟨headerSize, hsplit⟩ := of_isRecord h
  rw [compareRecordsGeneric, if_neg h.ne_nil, hsplit.readHeader]
  have := hsplit.compareFields_eq 0 indexInfo.keyInfo tie unpacked
  rw [Nat.zero_add, drop_zero] at this
  exact this

variable {c : Column} {key : KeyInfo} {keys : List KeyInfo}

theorem compareRecordsGeneric_one {rhs : Value} (h : IsRecord (c :: cols) payload)
    (hkeys : indexInfo.keyInfo = key :: keys) :
    compareRecordsGeneric payload (rhs :: unpacked) indexInfo 1 tie =
      .ok (lexCompare tie (cols.map value) unpacked keys) := by
  obtain ⟨headerSize, hsplit⟩ := of_isRecord h
  rw [compareRecordsGeneric, if_neg h.ne_nil, hsplit.readHeader]
  change (bind (skipFields payload headerSize 1 (headerPos headerSize [])
    (dataPos headerSize [])) _) = _
  rw [hsplit.skipFields_one]
  have := hsplit.snoc.compareFields_eq 1 indexInfo.keyInfo tie unpacked
  rw [Nat.add_comm 1, ← length_cons, hkeys] at this
  rw [hkeys]
  exact this

theorem compareRest_eq (rhs : Value) (h : IsRecord (c :: cols) payload)
    (hkeys : indexInfo.keyInfo = key :: keys) :
    (if (rhs :: unpacked).length > 1 then
      compareRecordsGeneric payload (rhs :: unpacked) indexInfo 1 tie
    else .ok tie) = .ok (lexCompare tie (cols.map value) unpacked keys) := by
  split
  · exact compareRecordsGeneric_one unpacked indexInfo tie h hkeys
  next hone =>
    obtain rfl : unpacked = [] := by
      rw [length_cons] at hone
      exact length_eq_zero_iff.1 (by omega)
    rw [lexCompare_nil_right]

omit [UncasedStr] in
theorem IsRecord.length_lt_two (h : IsRecord [] payload) : payload.length < 2 := by
  obtain ⟨headerSize, hsmall, hsize, rfl⟩ := h.format
  have hnine := length_writeVarint_le hsmall
  rw [headerBytes_nil, length_nil, Nat.add_zero] at hsize
  have hone : (writeVarint headerSize).length = 1 := by
    rw [writeVarint, if_pos (by omega), length_singleton]
  simp [hone]

omit [UncasedStr] in
theorem Split.firstSerialType {headerSize : Nat} (h : Split payload headerSize [] (c :: cols)) :
    firstSerialType payload = .ok (headerSize, c.serial.val) := by
  obtain ⟨header, hslice, hvarint⟩ := h.slice_header
  rw [Types.firstSerialType, h.readHeader]
  change (if _ then _ else bind (sliceFrom payload (headerPos headerSize [])) _) = _
  rw [if_neg (Nat.not_lt.2 h.le_length), hslice]
  change bind (readVarintOrCorrupt header).lift _ = _
  rw [hvarint]
  rfl

theorem compareRecordsInt_eq (h : IsRecord cols payload) (hunpacked : unpacked ≠ [])
    (hkeys : indexInfo.keyInfo ≠ []) :
    compareRecordsInt payload unpacked indexInfo tie =
      .ok (lexCompare tie (cols.map value) unpacked indexInfo.keyInfo) := by
  rw [compareRecordsInt]
  split
  · exact compareRecordsGeneric_eq unpacked indexInfo tie h
  cases cols with
  | nil => exact absurd h.length_lt_two ‹_›
  | cons c cols =>
    obtain ⟨headerSize, hsplit⟩ := of_isRecord h
    rw [hsplit.firstSerialType]
    change (if _ then _ else _) = _
    split
    next hinteger =>
      obtain ⟨lhs, hvalue, hread⟩ := readInteger_column (dataBytes cols) c hinteger
      change (bind (sliceFrom payload (dataPos headerSize [])) _) = _
      rw [hsplit.slice_data]
      change (bind (readInteger _ _).lift _) = _
      rw [hread]
      obtain ⟨key, keys, hkeyInfo⟩ := exists_cons_of_ne_nil hkeys
      obtain ⟨rhs, rest, rfl⟩ := exists_cons_of_ne_nil hunpacked
      cases rhs with
      | integer rhs =>
        have hkey : keyAt indexInfo.keyInfo 0 = .ok key := by
          rw [hkeyInfo]
          rfl
        have hrest := compareRest_eq rest indexInfo tie (.integer rhs) h hkeyInfo
        change (bind (keyAt indexInfo.keyInfo 0) _) = _
        rw [hkey, hkeyInfo, map_cons, lexCompare, hvalue]
        change (match key.sortOrder.apply (compare lhs.toInt rhs.toInt) with
          | .eq => _
          | other => _) = ok (match key.sortOrder.apply (compare lhs.toInt rhs.toInt) with
          | .eq => _
          | other => _)
        cases key.sortOrder.apply (compare lhs.toInt rhs.toInt) with
        | eq => exact hrest
        | lt | gt => rfl
      | _ => exact compareRecordsGeneric_eq _ indexInfo tie h
    · exact compareRecordsGeneric_eq unpacked indexInfo tie h

theorem compareRecordsString_eq (h : IsRecord cols payload) (hunpacked : unpacked ≠ [])
    (hkeys : indexInfo.keyInfo = key :: keys) (hbinary : key.collation = .binary) :
    compareRecordsString payload unpacked indexInfo tie =
      .ok (lexCompare tie (cols.map value) unpacked indexInfo.keyInfo) := by
  rw [compareRecordsString]
  split
  · exact compareRecordsGeneric_eq unpacked indexInfo tie h
  cases cols with
  | nil => exact absurd h.length_lt_two ‹_›
  | cons c cols =>
    obtain ⟨headerSize, hsplit⟩ := of_isRecord h
    obtain ⟨rhs, rest, rfl⟩ := exists_cons_of_ne_nil hunpacked
    rw [hsplit.firstSerialType]
    change (if _ then _ else _) = _
    split
    next hstring =>
      have hkind : c.serial.kind = .text := by
        rw [kind_of_le (by omega), if_neg (by omega)]
      have hvalue : c.value = .text c.body := by rw [value, decode, hkind]
      cases rhs with
      | text rhs =>
        have hkey : keyAt indexInfo.keyInfo 0 = .ok key := by
          rw [hkeys]
          rfl
        have hrest := compareRest_eq rest indexInfo tie (.text rhs) h hkeys
        change (bind (tryFrom c.serial.val).lift _) = _
        rw [tryFrom_val]
        change (bind (sliceFrom payload (dataPos headerSize [])) _) = _
        rw [hsplit.slice_data]
        change (bind (readValue _ _).lift _) = _
        rw [readValue_column, hvalue]
        change (bind (keyAt indexInfo.keyInfo 0) _) = _
        rw [hkey, hkeys, map_cons, lexCompare, hvalue]
        change (match key.sortOrder.apply (key.collation.compareStrings c.body rhs) with
          | .eq => _
          | other => _) =
            ok (match key.sortOrder.apply (key.collation.compareStrings c.body rhs) with
              | .eq => _
              | other => _)
        cases hcmp : key.sortOrder.apply (key.collation.compareStrings c.body rhs) with
        | eq =>
          rw [SortOrder.apply_eq_eq, hbinary] at hcmp
          have hequal : compareBytes c.body rhs = .eq := hcmp
          rw [Std.LawfulEqCmp.eq_of_compare hequal, Nat.compare_eq_eq.2 rfl]
          exact hrest
        | lt | gt => rfl
      | _ => exact compareRecordsGeneric_eq _ indexInfo tie h
    · exact compareRecordsGeneric_eq _ indexInfo tie h

theorem findCompare_eq (h : IsRecord cols payload) (hunpacked : unpacked ≠ [])
    (hkeys : indexInfo.keyInfo ≠ []) :
    ∃ comparer, findCompare unpacked indexInfo = .ok comparer ∧
      comparer.compare payload unpacked indexInfo 0 tie =
        .ok (lexCompare tie (cols.map value) unpacked indexInfo.keyInfo) := by
  have hgeneric := compareRecordsGeneric_eq unpacked indexInfo tie h
  obtain ⟨key, keys, hkeyInfo⟩ := exists_cons_of_ne_nil hkeys
  obtain ⟨rhs, rest, rfl⟩ := exists_cons_of_ne_nil hunpacked
  unfold findCompare
  split
  · cases rhs with
    | integer i => exact ⟨.int, rfl, compareRecordsInt_eq _ indexInfo tie h hunpacked hkeys⟩
    | text t =>
      have hkey : keyAt indexInfo.keyInfo 0 = .ok key := by
        rw [hkeyInfo]
        rfl
      dsimp only
      rw [hkey]
      by_cases hbinary : key.collation = .binary
      · refine ⟨.string, ?_, compareRecordsString_eq _ indexInfo tie h hunpacked hkeyInfo hbinary⟩
        change ok (if key.collation = .binary then RecordCompare.string else .generic) = _
        rw [if_pos hbinary]
      · refine ⟨.generic, ?_, hgeneric⟩
        change ok (if key.collation = .binary then RecordCompare.string else .generic) = _
        rw [if_neg hbinary]
    | null | float f | blob b => exact ⟨.generic, rfl, hgeneric⟩
  · exact ⟨.generic, rfl, hgeneric⟩

end

section

variable [UncasedStr]

theorem lexCompare_eq_then (tie : Ordering) (ls rs : List Value) (keys : List KeyInfo) :
    lexCompare tie ls rs keys = (compareImmutable.go ls rs keys).then tie := by
  induction keys generalizing ls rs with
  | nil =>
    rw [lexCompare_nil_keys]
    cases ls with
    | nil => rfl
    | cons l ls => cases rs <;> rfl
  | cons key keys ih =>
    cases ls with
    | nil => rfl
    | cons l ls =>
      cases rs with
      | nil => rfl
      | cons r rs =>
        rw [lexCompare, compareImmutable.go, ih]
        cases compareImmutableSingle l r key.collation <;> cases key.sortOrder <;> rfl

theorem compareImmutableIter_before (cols cols' : List Column) (keys : List KeyInfo) :
    compareImmutableIter (.before cols) (.before cols') keys =
      .ok (compareImmutable.go (cols.map value) (cols'.map value) keys) := by
  induction keys generalizing cols cols' with
  | nil =>
    rw [compareImmutableIter]
    cases cols with
    | nil => rfl
    | cons c cols => cases cols' <;> rfl
  | cons key keys ih =>
    rw [compareImmutableIter]
    cases cols with
    | nil => rfl
    | cons c cols =>
      rw [next_before_cons]
      cases cols' with
      | nil => rfl
      | cons c' cols' =>
        rw [next_before_cons, map_cons, map_cons, compareImmutable.go]
        change (match compareImmutableSingle c.value c'.value key.collation with
          | .eq => _
          | cmp => _) = _
        cases compareImmutableSingle c.value c'.value key.collation with
        | eq => exact ih cols cols'
        | lt | gt => rfl

/-- Every comparator that can be chosen for an index with columns gives the lexicographic order of
the decoded values, with the tie breaker behind it. -/
theorem comparators_agree {cols : List Column} {payload : List UInt8}
    (hrecord : IsRecord cols payload) (unpacked : List Value) (hunpacked : unpacked ≠ [])
    (indexInfo : IndexInfo) (hkeys : indexInfo.keyInfo ≠ []) (tie : Ordering) :
    ∃ values, getValues payload = .ok values ∧
      (∃ comparer, findCompare unpacked indexInfo = .ok comparer ∧
        comparer.compare payload unpacked indexInfo 0 tie =
          .ok (lexCompare tie values unpacked indexInfo.keyInfo)) ∧
      compareRecordsGeneric payload unpacked indexInfo 0 tie =
        .ok (lexCompare tie values unpacked indexInfo.keyInfo) ∧
      (indexInfo.keyInfo.length ≤ values.length → indexInfo.keyInfo.length ≤ unpacked.length →
        ∃ o, compareImmutable values unpacked indexInfo.keyInfo = some o ∧
          lexCompare tie values unpacked indexInfo.keyInfo = o.then tie) ∧
      ∀ keyCols keyPayload, IsRecord keyCols keyPayload → getValues keyPayload = .ok unpacked →
        ∃ l r o, new payload = .ok l ∧ new keyPayload = .ok r ∧
          compareImmutableIter l r indexInfo.keyInfo = .ok o ∧
          lexCompare tie values unpacked indexInfo.keyInfo = o.then tie := by
  refine ⟨cols.map value, hrecord.getValues,
    findCompare_eq unpacked indexInfo tie hrecord hunpacked hkeys,
    compareRecordsGeneric_eq unpacked indexInfo tie hrecord, ?_, ?_⟩
  · intro hl hr
    exact ⟨_, if_pos ⟨hl, hr⟩, lexCompare_eq_then ..⟩
  · intro keyCols keyPayload hkey hvalues
    rw [hkey.getValues] at hvalues
    cases hvalues
    exact ⟨_, _, _, hrecord.new, hkey.new, compareImmutableIter_before .., lexCompare_eq_then ..⟩

end

local instance : UncasedStr := .lowercase

def letterColumn : Column := ⟨.text 1, [97], by decide, rfl⟩

def fiveColumn : Column := ⟨.ofInteger 5, [5], by decide, rfl⟩

theorem isRecord_five : IsRecord [fiveColumn] [2, 1, 5] :=
  ⟨2, by decide, by decide, by decide⟩

theorem isRecord_letterFive : IsRecord [letterColumn, fiveColumn] [3, 15, 1, 97, 5] :=
  ⟨3, by decide, by decide, by decide⟩

def letterThenNumber : IndexInfo := ⟨[⟨.asc, .binary⟩, ⟨.desc, .noCase⟩], 2⟩

/-- The text path finds equal texts and leaves the second column to the generic one. -/
theorem comparators_agree_letterFive :
    let key := [.text [97], .integer 7]
    findCompare key letterThenNumber = .ok .string ∧
      RecordCompare.string.compare [3, 15, 1, 97, 5] key letterThenNumber 0 .eq = .ok .gt ∧
        compareRecordsGeneric [3, 15, 1, 97, 5] key letterThenNumber 0 .eq = .ok .gt := by
  obtain ⟨values, hvalues, ⟨comparer, hfind, hcompare⟩, hgeneric, -⟩ :=
    comparators_agree isRecord_letterFive [.text [97], .integer 7] (cons_ne_nil _ _)
      letterThenNumber (cons_ne_nil _ _) .eq
  obtain rfl := ok.inj (hvalues.symm.trans isRecord_letterFive.getValues)
  cases hfind
  exact ⟨rfl, hcompare, hgeneric⟩

/-- Under the default index description the integer path looks up a column that is not there. -/
theorem default_indexInfo_panics :
    IsRecord [fiveColumn] [2, 1, 5] ∧
      findCompare [.integer 5] .default = .ok .int ∧
      RecordCompare.int.compare [2, 1, 5] [.integer 5] .default 0 .eq = .error .panic ∧
      compareRecordsGeneric [2, 1, 5] [.integer 5] .default 0 .eq = .ok .eq :=
  ⟨isRecord_five, by decide, by decide, by decide⟩

end PgMicro.Types
