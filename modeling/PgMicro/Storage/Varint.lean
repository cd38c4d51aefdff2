import Mathlib.Data.Nat.Log
import Mathlib.Data.UInt

/-!
# SQLite varints

`write_varint`, `varint_len` and `read_varint` of `core/storage/sqlite3_ondisk.rs`: up to
eight groups of seven bits, highest first, each but the last marked; a ninth byte carries
eight bits.
-/

namespace PgMicro.Storage

open List Nat

def varintGroups : Nat → Nat → List UInt8
  | 0, _ => []
  | k + 1, value => varintGroups k (value / 128) ++ [UInt8.ofNat (value % 128 + 128)]

def varintLoop (bytes : Nat) : List UInt8 :=
  if bytes = 0 then [] else UInt8.ofNat (bytes % 128 + 128) :: varintLoop (bytes / 128)
termination_by bytes
decreasing_by omega

def writeVarint (value : Nat) : List UInt8 :=
  if value ≤ 0x7f then [UInt8.ofNat value]
  else if value ≤ 0x3fff then
    [UInt8.ofNat (value / 128 % 128 + 128), UInt8.ofNat (value % 128)]
  else if value / 2 ^ 56 % 256 ≠ 0 then varintGroups 8 (value / 256) ++ [UInt8.ofNat value]
  else
    match varintLoop value with
    | [] => []
    | first :: encoded => (UInt8.ofNat (first.toNat % 128) :: encoded).reverse

def varintLen (value : Nat) : Nat :=
  if value ≤ 0x7f then 1
  else if value > 2 ^ 56 - 1 then 9
  else (log 2 value + 1 + 6) / 7

/-- `read_varint` after `i` bytes with the value so far, with this many groups to come before
the ninth byte; `none` is a corrupt varint. -/
def readVarintFrom : Nat → Nat → Nat → List UInt8 → Option (Nat × Nat)
  | _, _, _, [] => none
  | 0, v, i, c :: _ => if v / 2 ^ 48 = 0 then none else some (v * 256 + c.toNat, i + 1)
  | n + 1, v, i, c :: buf =>
    let v := v * 128 + c.toNat % 128
    if c.toNat < 128 then some (v, i + 1) else readVarintFrom n v (i + 1) buf

def readVarint (buf : List UInt8) : Option (Nat × Nat) := readVarintFrom 8 0 0 buf

section

variable {n k v w i : Nat} {tail : List UInt8}

theorem readVarintFrom_last {b : Nat} (hb : b < 128) :
    readVarintFrom (n + 1) v i (UInt8.ofNat b :: tail) = some (v * 128 + b, i + 1) := by
  have hbyte : (UInt8.ofNat b).toNat = b := by
    rw [UInt8.toNat_ofNat']
    omega
  rw [readVarintFrom, hbyte, if_pos hb, mod_eq_of_lt hb]

theorem readVarintFrom_marked {b : Nat} (hb : b < 128) :
    readVarintFrom (n + 1) v i (UInt8.ofNat (b + 128) :: tail) =
      readVarintFrom n (v * 128 + b) (i + 1) tail := by
  have hbyte : (UInt8.ofNat (b + 128)).toNat = b + 128 := by
    rw [UInt8.toNat_ofNat']
    omega
  rw [readVarintFrom, hbyte, if_neg (by omega), show (b + 128) % 128 = b by omega]

theorem readVarintFrom_groups (hk : k ≤ n) (hw : w < 128 ^ k) :
    readVarintFrom n v i (varintGroups k w ++ tail) =
      readVarintFrom (n - k) (v * 128 ^ k + w) (i + k) tail := by
  induction k generalizing w tail with
  | zero =>
    rw [pow_zero, lt_one_iff] at hw
    rw [hw]
    simp [varintGroups]
  | succ k ih =>
    have hdiv : w / 128 < 128 ^ k :=
      Nat.div_lt_of_lt_mul (by rwa [Nat.pow_succ, Nat.mul_comm] at hw)
    have hvalue : (v * 128 ^ k + w / 128) * 128 + w % 128 = v * 128 ^ (k + 1) + w := by
      rw [pow_succ, add_mul, mul_assoc]
      omega
    rw [varintGroups, append_assoc, singleton_append, ih (by omega) hdiv,
      show n - k = (n - (k + 1)) + 1 by omega, readVarintFrom_marked (mod_lt _ (by decide)),
      hvalue, add_assoc]

@[simp]
theorem length_varintGroups (k w : Nat) : (varintGroups k w).length = k := by
  induction k generalizing w with
  | zero => rfl
  | succ k ih => rw [varintGroups, length_append, ih, length_singleton]

end

def groupCount (value : Nat) : Nat := (varintLoop value).length

variable {value : Nat}

theorem varintLoop_pos (h : value ≠ 0) :
    varintLoop value = UInt8.ofNat (value % 128 + 128) :: varintLoop (value / 128) := by
  rw [varintLoop, if_neg h]

theorem groupCount_pos (h : value ≠ 0) : groupCount value = groupCount (value / 128) + 1 := by
  rw [groupCount, varintLoop_pos h, length_cons, groupCount]

theorem groupCount_zero : groupCount 0 = 0 := by
  rw [groupCount, varintLoop, if_pos rfl, length_nil]

theorem varintLoop_reverse (value : Nat) :
    (varintLoop value).reverse = varintGroups (groupCount value) value ∧
      value < 128 ^ groupCount value := by
  induction value using Nat.strongRecOn with
  | ind value ih =>
    rcases eq_or_ne value 0 with rfl | hne
    · rw [groupCount_zero, varintLoop, if_pos rfl]
      exact ⟨rfl, one_pos⟩
    · obtain ⟨hreverse, hlt⟩ := ih (value / 128) (by omega)
      constructor
      · rw [varintLoop_pos hne, reverse_cons, hreverse, groupCount_pos hne, varintGroups]
      · rw [groupCount_pos hne, pow_succ]
        omega

theorem groupCount_le {k : Nat} (h : value < 128 ^ k) : groupCount value ≤ k := by
  induction k generalizing value with
  | zero =>
    rw [pow_zero, lt_one_iff] at h
    rw [h, groupCount_zero]
  | succ k ih =>
    rcases eq_or_ne value 0 with rfl | hne
    · rw [groupCount_zero]
      exact zero_le _
    · rw [groupCount_pos hne]
      exact Nat.succ_le_succ (ih (Nat.div_lt_of_lt_mul (by rwa [Nat.pow_succ, Nat.mul_comm] at h)))

theorem groupCount_eq (h : value ≠ 0) : groupCount value = (Nat.log 2 value + 1 + 6) / 7 := by
  induction value using Nat.strongRecOn with
  | ind value ih =>
    rw [groupCount_pos h]
    rcases Nat.lt_or_ge value 128 with hlt | hge
    · have hlog : Nat.log 2 value < 7 := Nat.log_lt_of_lt_pow h hlt
      rw [Nat.div_eq_of_lt hlt, groupCount_zero]
      omega
    have hlog : Nat.log 2 (value / 128) = Nat.log 2 value - 7 := by
      simp only [show 128 = 2 * 2 * 2 * 2 * 2 * 2 * 2 by rfl, ← Nat.div_div_eq_div_mul,
        Nat.log_div_base]
      omega
    have hseven : 7 ≤ Nat.log 2 value := Nat.le_log_of_pow_le (by decide) hge
    rw [ih (value / 128) (by omega) (by omega), hlog]
    omega

section

variable (h : value < 2 ^ 64)

include h

/-- How `write_varint` writes: a marked group per byte but the last, or eight of them and a
full byte. -/
theorem writeVarint_eq :
    writeVarint value =
      if value < 2 ^ 56 then
        varintGroups (groupCount (value / 128)) (value / 128) ++ [UInt8.ofNat (value % 128)]
      else varintGroups 8 (value / 256) ++ [UInt8.ofNat value] := by
  unfold writeVarint
  split
  next hsmall =>
    have hzero : value / 128 = 0 := div_eq_of_lt (by omega)
    rw [if_pos (by omega), hzero, groupCount_zero, mod_eq_of_lt (by omega)]
    rfl
  split
  next hlarge hsmall =>
    have hdiv : value / 128 < 128 := by omega
    have hcount : groupCount (value / 128) = 1 := by
      rw [groupCount_pos (by omega), div_eq_of_lt hdiv, groupCount_zero]
    rw [if_pos (by omega), hcount]
    rfl
  split
  · rw [if_neg (by omega)]
  next hlarge _ _ =>
    have hfirst : (UInt8.ofNat (value % 128 + 128)).toNat % 128 = value % 128 := by
      rw [UInt8.toNat_ofNat']
      omega
    rw [if_pos (by omega), varintLoop_pos (by omega)]
    simp only [hfirst]
    rw [reverse_cons, (varintLoop_reverse (value / 128)).1]

theorem readVarint_writeVarint (tail : List UInt8) :
    readVarint (writeVarint value ++ tail) = some (value, (writeVarint value).length) := by
  rw [writeVarint_eq h, readVarint]
  split
  next hsmall =>
    have hcount : groupCount (value / 128) ≤ 7 := groupCount_le (by omega)
    rw [append_assoc, readVarintFrom_groups (by omega) (varintLoop_reverse _).2,
      singleton_append, show 8 - groupCount (value / 128) =
        (7 - groupCount (value / 128)) + 1 by omega,
      readVarintFrom_last (mod_lt _ (by decide)), length_append, length_varintGroups,
      length_singleton]
    simp only [Option.some.injEq, Prod.mk.injEq]
    omega
  next hlarge =>
    have hbyte : (UInt8.ofNat value).toNat = value % 256 := UInt8.toNat_ofNat'
    rw [append_assoc, readVarintFrom_groups (le_refl 8) (by omega), singleton_append,
      Nat.sub_self, readVarintFrom, if_neg (by omega), hbyte, length_append,
      length_varintGroups, length_singleton]
    simp [zero_mul, zero_add, div_add_mod']

theorem length_writeVarint : (writeVarint value).length = varintLen value := by
  rw [writeVarint_eq h, varintLen]
  split
  · rw [length_append, length_varintGroups, length_singleton]
    split
    · rw [div_eq_of_lt (by omega), groupCount_zero]
    · rw [if_neg (by omega), ← groupCount_eq (by omega), ← groupCount_pos (by omega)]
  · rw [if_neg (by omega), if_pos (by omega), length_append, length_varintGroups,
      length_singleton]

theorem length_writeVarint_le : (writeVarint value).length ≤ 9 := by
  rw [writeVarint_eq h]
  split
  · have hcount : groupCount (value / 128) ≤ 7 := groupCount_le (by omega)
    rw [length_append, length_varintGroups, length_singleton]
    omega
  · rw [length_append, length_varintGroups, length_singleton]

theorem length_writeVarint_pos : 0 < (writeVarint value).length := by
  rw [writeVarint_eq h]
  split <;> simp

end

theorem length_writeVarint_mono {a b : Nat} (hab : a ≤ b) (hb : b < 2 ^ 64) :
    (writeVarint a).length ≤ (writeVarint b).length := by
  rw [writeVarint_eq hb]
  split
  next hsmall =>
    have hcount : groupCount (a / 128) ≤ groupCount (b / 128) :=
      groupCount_le (Nat.lt_of_le_of_lt (Nat.div_le_div_right hab) (varintLoop_reverse (b / 128)).2)
    rw [writeVarint_eq (by omega), if_pos (by omega)]
    simpa using hcount
  · have := length_writeVarint_le (lt_of_le_of_lt hab hb)
    simpa using this

theorem length_writeVarint_le_iff (h : value < 2 ^ 64) {k : Nat} (hk : k < 8) :
    (writeVarint value).length ≤ k + 1 ↔ value < 128 ^ (k + 1) := by
  rw [writeVarint_eq h]
  split
  · have hcount : groupCount (value / 128) ≤ k ↔ value / 128 < 128 ^ k :=
      ⟨fun hle => (varintLoop_reverse _).2.trans_le (Nat.pow_le_pow_right (by decide) hle),
        groupCount_le⟩
    rw [length_append, length_varintGroups, length_singleton, Nat.succ_le_succ_iff, hcount,
      Nat.div_lt_iff_lt_mul (by decide), ← pow_succ]
  next hlarge =>
    have hle : 128 ^ (k + 1) ≤ 128 ^ 8 := Nat.pow_le_pow_right (by decide) hk
    rw [length_append, length_varintGroups, length_singleton]
    omega

theorem nine_le_length_writeVarint (h : 2 ^ 56 ≤ value) : 9 ≤ (writeVarint value).length := by
  have hcount : 9 ≤ groupCount value := by
    by_contra hlt
    have hle : 128 ^ groupCount value ≤ 128 ^ 8 := Nat.pow_le_pow_right (by decide) (by omega)
    have := (varintLoop_reverse value).2
    omega
  rw [writeVarint, if_neg (by omega), if_neg (by omega)]
  split
  · simp
  rw [groupCount] at hcount
  split
  next hnil =>
    rw [hnil] at hcount
    exact hcount
  next hcons =>
    rw [hcons] at hcount
    simpa using hcount

variable {buf : List UInt8}

theorem readVarintFrom_lt {n v i len : Nat} (h : readVarintFrom n v i buf = some (value, len)) :
    i < len ∧ len ≤ i + buf.length := by
  induction buf generalizing n v i with
  | nil => cases n <;> cases h
  | cons c buf ih =>
    rw [length_cons]
    cases n with
    | zero =>
      rw [readVarintFrom] at h
      split at h
      · cases h
      · cases h
        omega
    | succ n =>
      rw [readVarintFrom] at h
      split at h
      · cases h
        omega
      · have := ih h
        omega

theorem readVarint_bounds {len : Nat} (h : readVarint buf = some (value, len)) :
    0 < len ∧ len ≤ buf.length := by
  have := readVarintFrom_lt h
  omega

end PgMicro.Storage
