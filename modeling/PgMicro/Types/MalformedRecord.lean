import PgMicro.Loop
import PgMicro.Types.RecordCompare

/-!
# Payloads that are not records

`contains_null`, `last_value`, `get_value` and the iterator on any bytes, with the slice that can
panic, the sum that can overflow and the loop that need not end.
-/

namespace PgMicro.Types

open Codec Storage Loop ValueIterator

variable {iter : ValueIterator} {dataSum size : Nat}

def slice (payload : List UInt8) (start stop : Nat) : Outcome (List UInt8) :=
  if start ≤ stop ∧ stop ≤ payload.length then .ok ((payload.take stop).drop start)
  else .error .panic

def containsNullFrom (header : List UInt8) : Result Bool :=
  if header = [] then .ok false
  else
    match _h : readVarintOrCorrupt header with
    | .error e => .error e
    | .ok (serialType, bytesRead) =>
      if serialType = 0 then .ok true else containsNullFrom (header.drop bytesRead)
termination_by header.length
decreasing_by exact length_drop_lt ‹_›

/-- `contains_null`, which does not compare the length of the varint with the header size. -/
def containsNull (payload : List UInt8) : Outcome Bool := do
  let (headerSize, headerVarintLen) ← (readVarintOrCorrupt payload).lift
  if headerSize > payload.length ∨ headerVarintLen > payload.length then
    .error (.error (.corrupt "Payload too small for indicated header size"))
  else do
    let header ← slice payload headerVarintLen headerSize
    (containsNullFrom header).lift

namespace ValueIterator

def lastRound (s : ValueIterator × Option (Result Value)) :
    Option (ControlFlow (ValueIterator × Option (Result Value)) (Option (Result Value))) :=
  match s.1.next with
  | (none, _) => some (.stop s.2)
  | (some item, iter) => some (.goOn (iter, some item))

/-- `nth` with the sum in a `usize`: the answer, or `none` where the sum overflows. -/
def nthFrom (data : List UInt8) : Nat → List UInt8 → Nat → Option (Option (Result Value))
  | 0, header, dataSum =>
    if dataSum > data.length then
      some (some (.error (.corrupt "Data section too small for indicated serial type size")))
    else some (next ⟨header, data.drop dataSum⟩).1
  | n + 1, header, dataSum =>
    if header = [] then some none
    else
      match readVarintOrCorrupt header with
      | .error e => some (some (.error e))
      | .ok (serialType, bytesRead) =>
        match getSerialTypeSize serialType with
        | .error e => some (some (.error e))
        | .ok size =>
          if dataSum + size < 2 ^ 64 then nthFrom data n (header.drop bytesRead) (dataSum + size)
          else none

def nthChecked (iter : ValueIterator) (n : Nat) : Option (Option (Result Value)) :=
  nthFrom iter.dataSection n iter.headerSection 0

def lastNext : Nat → ValueIterator → Option (Result Value)
  | 0, iter => iter.next.1
  | n + 1, iter => lastNext n iter.next.2

end ValueIterator

def lastValue (fuel : Nat) (payload : List UInt8) : Option (Option (Result Value)) :=
  if payload = [] then some (some (.error (.internalError "Record is invalidated")))
  else
    match new payload with
    | .error e => some (some (.error e))
    | .ok iter => loop lastRound fuel (iter, none)

def getValueChecked (payload : List UInt8) (idx : Nat) : Option (Result Value) :=
  if payload = [] then some (.error (.internalError "Record is invalidated"))
  else
    match new payload with
    | .error e => some (.error e)
    | .ok iter =>
      (iter.nthChecked idx).map fun item =>
        item.getD (.error (.internalError "Index out of bounds"))

section

variable (buf : List UInt8)

def ReadsOr (size : Nat) (read : Result (Value × Nat)) : Prop :=
  (size ≤ buf.length ∧ ∃ v, read = .ok (v, size)) ∨ (buf.length < size ∧ ∃ e, read = .error e)

theorem readSigned_readsOr {width : Nat} (extension : Nat) (message : String) (hwidth : 0 < width) :
    ReadsOr buf width (readSigned width extension message buf) := by
  cases buf with
  | nil => exact .inr ⟨hwidth, _, rfl⟩
  | cons first rest =>
    by_cases hlt : (first :: rest).length < width
    · exact .inr ⟨hlt, _, by rw [readSigned, readInt, if_pos hlt]⟩
    · exact .inl ⟨Nat.not_lt.1 hlt, _, by rw [readSigned, readInt, if_neg hlt]⟩

variable (value : Value) (e : LimboError)

theorem readsOr_ite_le :
    ReadsOr buf size (if size ≤ buf.length then .ok (value, size) else .error e) := by
  split
  · next hle => exact .inl ⟨hle, _, rfl⟩
  · next hlt => exact .inr ⟨Nat.not_le.1 hlt, _, rfl⟩

theorem readsOr_ite_lt :
    ReadsOr buf size (if buf.length < size then .error e else .ok (value, size)) := by
  split
  · next hlt => exact .inr ⟨hlt, _, rfl⟩
  · next hge => exact .inl ⟨Nat.not_lt.1 hge, _, rfl⟩

theorem readValueSerialType_cases (serialType : Nat) :
    (∃ size, getSerialTypeSize serialType = .ok size ∧
      ReadsOr buf size (readValueSerialType buf serialType)) ∨
    ∃ e e', getSerialTypeSize serialType = .error e ∧
      readValueSerialType buf serialType = .error e' := by
  match serialType with
  | 0 | 8 | 9 => exact .inl ⟨0, rfl, .inl ⟨Nat.zero_le _, _, rfl⟩⟩
  | 1 => exact .inl ⟨1, rfl, readSigned_readsOr buf 0 _ (by decide)⟩
  | 2 => exact .inl ⟨2, rfl, readSigned_readsOr buf 0 _ (by decide)⟩
  | 3 => exact .inl ⟨3, rfl, readSigned_readsOr buf 1 _ (by decide)⟩
  | 4 => exact .inl ⟨4, rfl, readSigned_readsOr buf 0 _ (by decide)⟩
  | 5 => exact .inl ⟨6, rfl, readSigned_readsOr buf 2 _ (by decide)⟩
  | 6 => exact .inl ⟨8, rfl, readSigned_readsOr buf 0 _ (by decide)⟩
  | 7 => exact .inl ⟨8, rfl, readsOr_ite_lt buf _ _⟩
  | 10 | 11 => exact .inr ⟨_, _, rfl, rfl⟩
  | n + 12 =>
    have hle : 12 ≤ n + 12 := Nat.le_add_left ..
    simp only [getSerialTypeSize, readValueSerialType, if_pos hle]
    by_cases heven : (n + 12) % 2 = 0
    · simp only [if_pos heven]
      exact .inl ⟨_, rfl, readsOr_ite_le buf _ _⟩
    · simp only [if_neg heven]
      exact .inl ⟨_, rfl, readsOr_ite_le buf _ _⟩

theorem column_cases (serialType : Nat) :
    (∃ size value, getSerialTypeSize serialType = .ok size ∧ size ≤ buf.length ∧
      readValueSerialType buf serialType = .ok (value, size)) ∨
    (∀ size, getSerialTypeSize serialType = .ok size → buf.length < size) ∧
      ∃ e, readValueSerialType buf serialType = .error e := by
  rcases readValueSerialType_cases buf serialType with
    ⟨size, hsize, ⟨hle, value, hvalue⟩ | ⟨hlt, hvalue⟩⟩ | ⟨e, e', hsize, hvalue⟩
  · exact .inl ⟨size, value, hsize, hle, hvalue⟩
  · exact .inr ⟨fun size' hsize' => by cases hsize.symm.trans hsize'; exact hlt, hvalue⟩
  · exact .inr ⟨fun size' hsize' => (nomatch hsize.symm.trans hsize'), e', hvalue⟩

end

namespace ValueIterator

variable {header data : List UInt8} {serialType bytesRead : Nat}

theorem lastNext_nil (n : Nat) : lastNext n ⟨[], data⟩ = none := by
  induction n with
  | zero => rfl
  | succ n ih => exact ih

variable {e : LimboError} {iter' : ValueIterator} {last r : Option (Result Value)}

theorem next_corrupt (hne : header ≠ []) (hread : readVarintOrCorrupt header = .error e) :
    next ⟨header, data⟩ = (some (.error e), ⟨header, data⟩) := by
  rw [next, if_neg hne, hread]

theorem next_header (data : List UInt8) (hne : header ≠ [])
    (hread : readVarintOrCorrupt header = .ok (serialType, bytesRead)) :
    ∃ item data', next ⟨header, data⟩ = (some item, ⟨header.drop bytesRead, data'⟩) := by
  rw [next, if_neg hne, hread]
  dsimp only
  split
  · exact ⟨_, _, rfl⟩
  · exact ⟨_, _, rfl⟩

theorem lastRound_next {item : Result Value} (h : iter.next = (some item, iter'))
    (last : Option (Result Value)) : lastRound (iter, last) = some (.goOn (iter', some item)) := by
  rw [lastRound, h]

/-- A varint that cannot be read is read again in every round. -/
theorem last_diverges (hne : header ≠ []) (hread : readVarintOrCorrupt header = .error e)
    (fuel : Nat) : ∀ last, loop lastRound fuel (⟨header, data⟩, last) = none := by
  induction fuel with
  | zero => exact fun _ => rfl
  | succ fuel ih =>
    intro last
    rw [loop, lastRound_next (next_corrupt hne hread)]
    exact ih _

theorem not_ends_of_corrupt (hne : header ≠ []) (hread : readVarintOrCorrupt header = .error e) :
    ¬Ends lastRound (⟨header, data⟩, last) r := by
  rintro ⟨rounds, hrounds⟩
  have hloop := hrounds rounds le_rfl
  rw [last_diverges hne hread] at hloop
  cases hloop

theorem nthFrom_succ (data : List UInt8) (hne : header ≠ [])
    (hread : readVarintOrCorrupt header = .ok (serialType, bytesRead)) (dataSum : Nat)
    (hsize : getSerialTypeSize serialType = .ok size) (n : Nat) :
    nthFrom data (n + 1) header dataSum =
      if dataSum + size < 2 ^ 64 then nthFrom data n (header.drop bytesRead) (dataSum + size)
      else none := by
  rw [nthFrom, if_neg hne, hread]
  dsimp only
  rw [hsize]

/-- Once the sum has passed the data, `nth` does not find the end where `next` does. -/
theorem exists_nth_ne_none (hends : Ends lastRound (⟨header, data⟩, last) r) :
    ∃ n, lastNext n ⟨header, data⟩ = none ∧
      ∀ (all : List UInt8) dataSum, all.length < dataSum →
        nthFrom all n header dataSum ≠ some none := by
  induction hlen : header.length using Nat.strong_induction_on generalizing header data last with
  | _ len ih =>
    subst hlen
    by_cases hne : header = []
    · subst hne
      refine ⟨0, rfl, fun all dataSum hlt => ?_⟩
      rw [nthFrom, if_pos hlt]
      simp
    cases hread : readVarintOrCorrupt header with
    | error e => exact absurd hends (not_ends_of_corrupt hne hread)
    | ok read =>
      obtain ⟨serialType, bytesRead⟩ := read
      obtain ⟨item, data', hnext⟩ := next_header data hne hread
      obtain ⟨n, hnone, hsum⟩ := ih _ (length_drop_lt hread)
        (hends.of_goOn (lastRound_next hnext last)) rfl
      refine ⟨n + 1, by rw [lastNext, hnext]; exact hnone, fun all dataSum hlt => ?_⟩
      cases hsize : getSerialTypeSize serialType with
      | error e =>
        rw [nthFrom, if_neg hne, hread]
        dsimp only
        rw [hsize]
        simp
      | ok size =>
        rw [nthFrom_succ _ hne hread _ hsize]
        split
        · exact hsum all _ (by omega)
        · simp

/-- Whether `last` ends does not depend on the item it holds. -/
theorem exists_ends (h : Ends lastRound (iter, last) r) (last' : Option (Result Value)) :
    ∃ r, Ends lastRound (iter, last') r := by
  match hnext : iter.next with
  | (none, _) => exact ⟨last', Ends.stop (by rw [lastRound, hnext])⟩
  | (some item, iter') =>
    exact ⟨r, (h.of_goOn (lastRound_next hnext last)).goOn (lastRound_next hnext last')⟩

/-- What `next`, `last` and `nth` make of an iterator that is `dataSum` bytes into the data. -/
def Agrees (data header : List UInt8) (dataSum : Nat) : Prop :=
  (∃ last r, Ends lastRound (⟨header, data.drop dataSum⟩, last) r) ∧
    ∀ n, nthFrom data n header dataSum = some (lastNext n ⟨header, data.drop dataSum⟩)

/-- The serial types that the varints of a header stand for. -/
inductive SerialTypes : List UInt8 → List SerialType → Prop
  | nil : SerialTypes [] []
  | cons {header : List UInt8} {serial : SerialType} {bytesRead : Nat} {serials : List SerialType}
      (hread : readVarintOrCorrupt header = .ok (serial.val, bytesRead))
      (hrest : SerialTypes (header.drop bytesRead) serials) : SerialTypes header (serial :: serials)

/-- The header consists of serial types that are not reserved, and the data is as long as they
say. -/
def Readable (header data : List UInt8) : Prop :=
  ∃ serials, SerialTypes header serials ∧ (serials.map SerialType.size).sum ≤ data.length

theorem readable_nil (data : List UInt8) : Readable [] data := ⟨[], .nil, Nat.zero_le _⟩

theorem not_readable_of_corrupt (hne : header ≠ [])
    (hread : readVarintOrCorrupt header = .error e) :
    ¬Readable header data := by
  rintro ⟨serials, hserials, -⟩
  cases hserials with
  | nil => exact hne rfl
  | cons hread' => cases hread.symm.trans hread'

theorem readable_iff (hne : header ≠ [])
    (hread : readVarintOrCorrupt header = .ok (serialType, bytesRead)) :
    Readable header data ↔ ∃ size, getSerialTypeSize serialType = .ok size ∧ size ≤ data.length ∧
      Readable (header.drop bytesRead) (data.drop size) := by
  constructor
  · rintro ⟨serials, hserials, hsum⟩
    cases hserials with
    | nil => exact absurd rfl hne
    | cons hread' hrest =>
      cases hread.symm.trans hread'
      rw [List.map_cons, List.sum_cons] at hsum
      exact ⟨_, getSerialTypeSize_eq _, by omega, _, hrest, by rw [List.length_drop]; omega⟩
  · rintro ⟨size, hsize, hle, serials, hrest, hsum⟩
    have hvalid : serialType ≠ 10 ∧ serialType ≠ 11 := by
      constructor <;> rintro rfl <;> cases hsize
    rw [getSerialTypeSize_eq ⟨serialType, hvalid⟩] at hsize
    cases hsize
    refine ⟨⟨serialType, hvalid⟩ :: serials, .cons hread hrest, ?_⟩
    rw [List.length_drop] at hsum
    rw [List.map_cons, List.sum_cons]
    omega

theorem agrees_nil (hsum : dataSum ≤ data.length) : Agrees data [] dataSum := by
  constructor
  · exact ⟨none, none, Ends.stop rfl⟩
  · intro n
    rw [lastNext_nil]
    cases n with
    | zero =>
      rw [nthFrom, if_neg (Nat.not_lt.2 hsum)]
      rfl
    | succ n => rfl

/-- The two stay together over a column that can be read. -/
theorem agrees_ok {value : Value} (hne : header ≠ [])
    (hread : readVarintOrCorrupt header = .ok (serialType, bytesRead))
    (hsize : getSerialTypeSize serialType = .ok size) (hsum : dataSum + size ≤ data.length)
    (hdata : data.length < 2 ^ 64) (hnext : next ⟨header, data.drop dataSum⟩ =
      (some (.ok value), ⟨header.drop bytesRead, data.drop (dataSum + size)⟩)) :
    Agrees data header dataSum ↔ Agrees data (header.drop bytesRead) (dataSum + size) := by
  have hsucc (n : Nat) := nthFrom_succ data hne hread dataSum hsize n
  simp only [if_pos (hsum.trans_lt hdata)] at hsucc
  have hlast (n : Nat) : lastNext (n + 1) ⟨header, data.drop dataSum⟩ =
      lastNext n ⟨header.drop bytesRead, data.drop (dataSum + size)⟩ := by
    rw [lastNext, hnext]
  constructor
  · rintro ⟨hends, hnth⟩
    refine ⟨?_, fun n => ?_⟩
    · obtain ⟨last, r, hr⟩ := hends
      exact ⟨_, r, hr.of_goOn (lastRound_next hnext last)⟩
    · rw [← hsucc, ← hlast]
      exact hnth (n + 1)
  · rintro ⟨hends, hnth⟩
    refine ⟨?_, fun n => ?_⟩
    · obtain ⟨last, r, hr⟩ := hends
      obtain ⟨r, hr⟩ := exists_ends hr (some (.ok value))
      exact ⟨none, r, hr.goOn (lastRound_next hnext none)⟩
    · cases n with
      | zero => rw [nthFrom, if_neg (by omega), lastNext]
      | succ n =>
        rw [hsucc, hlast]
        exact hnth n

/-- A column that cannot be read: `nth` fails there, `next` goes on to the end. -/
theorem not_agrees_error (hne : header ≠ [])
    (hread : readVarintOrCorrupt header = .ok (serialType, bytesRead))
    (hshort : ∀ size, getSerialTypeSize serialType = .ok size → data.length < dataSum + size)
    (hnext : next ⟨header, data.drop dataSum⟩ =
      (some (.error e), ⟨header.drop bytesRead, data.drop dataSum⟩)) :
    ¬Agrees data header dataSum := by
  rintro ⟨hends, hnth⟩
  obtain ⟨last, r, hr⟩ := hends
  obtain ⟨n, hnone, hne_none⟩ := exists_nth_ne_none (hr.of_goOn (lastRound_next hnext last))
  have hend := hnth (n + 1)
  rw [lastNext, hnext, hnone] at hend
  cases hsize : getSerialTypeSize serialType with
  | error e =>
    rw [nthFrom, if_neg hne, hread] at hend
    dsimp only at hend
    rw [hsize] at hend
    cases hend
  | ok size =>
    rw [nthFrom_succ _ hne hread _ hsize] at hend
    split at hend
    · exact hne_none data _ (hshort size hsize) hend
    · cases hend

theorem agrees_iff (hdata : data.length < 2 ^ 64) (hsum : dataSum ≤ data.length) :
    Agrees data header dataSum ↔ Readable header (data.drop dataSum) := by
  induction hlen : header.length using Nat.strong_induction_on generalizing header dataSum with
  | _ len ih =>
    subst hlen
    by_cases hne : header = []
    · subst hne
      exact iff_of_true (agrees_nil hsum) (readable_nil _)
    cases hread : readVarintOrCorrupt header with
    | error e =>
      refine iff_of_false (fun h => ?_) (not_readable_of_corrupt hne hread)
      obtain ⟨last, r, hr⟩ := h.1
      exact not_ends_of_corrupt hne hread hr
    | ok read =>
      obtain ⟨serialType, bytesRead⟩ := read
      rw [readable_iff hne hread]
      rcases column_cases (data.drop dataSum) serialType with
        ⟨size, value, hsize, hle, hvalue⟩ | ⟨hshort, e, hvalue⟩
      · have hnext : next ⟨header, data.drop dataSum⟩ =
            (some (.ok value), ⟨header.drop bytesRead, data.drop (dataSum + size)⟩) := by
          rw [next, if_neg hne, hread]
          dsimp only
          rw [hvalue]
          dsimp only
          rw [List.drop_drop]
        rw [List.length_drop] at hle
        rw [agrees_ok hne hread hsize (by omega) hdata hnext,
          ih _ (length_drop_lt hread) (by omega) rfl]
        simp [hsize, hle]
      · have hnext : next ⟨header, data.drop dataSum⟩ =
            (some (.error e), ⟨header.drop bytesRead, data.drop dataSum⟩) := by
          rw [next, if_neg hne, hread]
          dsimp only
          rw [hvalue]
        refine iff_of_false (not_agrees_error hne hread (fun size hsize => ?_) hnext) ?_
        · have := hshort size hsize
          rw [List.length_drop] at this
          omega
        · rintro ⟨size, hsize, hle, -⟩
          exact absurd (hshort size hsize) (Nat.not_lt.2 hle)

end ValueIterator

/-- A payload that is no record is reported, and `nth` is `next` again and again. -/
structure Handled (payload : List UInt8) : Prop where
  containsNull : containsNull payload ≠ .error .panic
  lastValue : ∃ r rounds, ∀ fuel, rounds ≤ fuel → lastValue fuel payload = some r
  getValue : ∀ idx, (getValueChecked payload idx).isSome
  nth : ∀ iter, new payload = .ok iter →
    ∀ n, iter.nthChecked n = some (iter.lastNext n)

section

variable {payload : List UInt8}

theorem lift_ne_panic {α : Type} (r : Result α) : r.lift ≠ .error .panic := by
  cases r <;> rintro ⟨⟩

theorem handled_of_new_error {e : LimboError} (hnew : new payload = .error e)
    (hnull : containsNull payload ≠ .error .panic) : Handled payload := by
  refine ⟨hnull, ?_, fun idx => ?_, fun iter hiter => (nomatch hnew.symm.trans hiter)⟩
  · simp only [lastValue, hnew]
    split
    · exact ⟨_, 0, fun _ _ => rfl⟩
    · exact ⟨_, 0, fun _ _ => rfl⟩
  · rw [getValueChecked, hnew]
    split
    · rfl
    · rfl

theorem handled_iff_agrees (hnew : new payload = .ok iter)
    (hnull : containsNull payload ≠ .error .panic) :
    Handled payload ↔ ValueIterator.Agrees iter.dataSection iter.headerSection 0 := by
  have hne : payload ≠ [] := by
    rintro rfl
    cases hnew
  have hlast (fuel : Nat) :
      lastValue fuel payload = loop lastRound fuel (iter, none) := by
    rw [lastValue, if_neg hne, hnew]
  constructor
  · intro h
    obtain ⟨r, rounds, hr⟩ := h.lastValue
    exact ⟨⟨none, r, rounds, fun fuel hfuel => hlast fuel ▸ hr fuel hfuel⟩, h.nth iter hnew⟩
  · rintro ⟨⟨last, r, hr⟩, hnth⟩
    obtain ⟨r, rounds, hr⟩ := exists_ends hr none
    refine ⟨hnull, ⟨r, rounds, fun fuel hfuel => (hlast fuel).trans (hr fuel hfuel)⟩,
      fun idx => ?_, fun iter' hiter => ?_⟩
    · rw [getValueChecked, if_neg hne, hnew]
      dsimp only
      rw [nthChecked, hnth]
      rfl
    · cases hnew.symm.trans hiter
      exact hnth

section

variable {headerSize varintLen : Nat}
  (hread : readVarintOrCorrupt payload = .ok (headerSize, varintLen))

include hread in
theorem new_of_read :
    new payload =
      if headerSize > payload.length ∨ varintLen > payload.length ∨
          varintLen > headerSize then
        .error (.corrupt "Payload too small for indicated header size")
      else .ok ⟨(payload.take headerSize).drop varintLen, payload.drop headerSize⟩ := by
  rw [new, hread]
  rfl

include hread in
theorem containsNull_of_read :
    containsNull payload =
      if headerSize > payload.length ∨ varintLen > payload.length then
        .error (.error (.corrupt "Payload too small for indicated header size"))
      else slice payload varintLen headerSize >>= fun header => (containsNullFrom header).lift := by
  rw [containsNull, hread]
  rfl

end

/-- The five operations deal with a payload where its header does not fit, and else exactly where
the header holds valid serial types and the data is as long as they say. -/
theorem handled_iff_readable (hsize : payload.length < 2 ^ 64) :
    Handled payload ↔
      ∀ headerSize headerVarintLen,
        readVarintOrCorrupt payload = .ok (headerSize, headerVarintLen) →
        headerSize ≤ payload.length → headerVarintLen ≤ headerSize ∧
          Readable ((payload.take headerSize).drop headerVarintLen) (payload.drop headerSize) := by
  cases hread : readVarintOrCorrupt payload with
  | error e =>
    have hnew : new payload = .error e := by
      rw [new, hread]
      rfl
    have hnull : containsNull payload = .error (.error e) := by
      rw [containsNull, hread]
      rfl
    exact iff_of_true (handled_of_new_error hnew (by rw [hnull]; rintro ⟨⟩))
      (by simp)
  | ok read =>
    obtain ⟨headerSize, headerVarintLen⟩ := read
    have hvarint := readVarint_bounds (readVarintOrCorrupt_eq_ok hread)
    have hnew := new_of_read hread
    have hnull := containsNull_of_read hread
    by_cases hlen : headerSize ≤ payload.length
    · rw [if_neg (by omega)] at hnull
      by_cases hle : headerVarintLen ≤ headerSize
      · rw [if_neg (by omega)] at hnew
        rw [slice, if_pos ⟨hle, hlen⟩] at hnull
        rw [handled_iff_agrees hnew (hnull ▸ lift_ne_panic _),
          agrees_iff (by simp; omega) (Nat.zero_le _)]
        constructor
        · rintro hreadable _ _ ⟨⟩ _
          exact ⟨hle, hreadable⟩
        · exact fun h => (h _ _ rfl hlen).2
      · rw [slice, if_neg (by omega)] at hnull
        exact iff_of_false (fun h => h.containsNull hnull) fun h => hle (h _ _ rfl hlen).1
    · rw [if_pos (by omega)] at hnull hnew
      refine iff_of_true (handled_of_new_error hnew (by rw [hnull]; rintro ⟨⟩)) ?_
      rintro _ _ ⟨⟩ hle
      exact absurd hle hlen

theorem handled_iff_readable_two : Handled [3, 1, 9, 7] := by
  refine (handled_iff_readable (by decide)).2 fun headerSize headerVarintLen hread _ => ?_
  cases hread
  exact ⟨by decide, [⟨1, by decide⟩, ⟨9, by decide⟩], .cons rfl (.cons rfl .nil), by decide⟩

/-- A header size below the length of its varint panics, a cut varint is read for ever, three blobs
of `2 ^ 62` bytes and more overflow the sum, and `nth` fails at a reserved serial type that `next`
passes. -/
theorem not_handled :
    containsNull [0] = .error .panic ∧ (∀ fuel, lastValue fuel [2, 0x80] = none) ∧
      getValueChecked (28 :: List.replicate 27 0xff) 3 = none ∧
      ∃ iter, new [2, 10] = .ok iter ∧ iter.lastNext 1 = none ∧
        iter.nthChecked 1 = some (some (.error (.corrupt "Invalid serial type: 10"))) := by
  refine ⟨by decide +kernel, fun fuel => ?_, by decide +kernel, _, rfl, rfl, by decide +kernel⟩
  exact last_diverges (e := .corrupt "Invalid varint") (by simp) (by decide +kernel)
    fuel none

end

end PgMicro.Types
