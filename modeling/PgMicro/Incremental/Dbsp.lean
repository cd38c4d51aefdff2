import Mathlib.Data.Prod.Lex
import PgMicro.Types.Value

/-!
# Rows and deltas

`core/incremental/dbsp.rs`. A row is hashed as the UUIDv5 of a text made from its values; the
hash function itself is a parameter. Weights are `isize`: sums and products of them wrap.
-/

namespace PgMicro.Incremental

open Types (Value)

/-- Sixteen bytes, ordered as `memcmp` orders the blobs made of them. -/
abbrev Hash128 := Fin (2 ^ 128)

def Hash128.asI64 (h : Hash128) : Int64 := Int64.ofBitVec (BitVec.ofNat 64 h.val)

def decimal (n : Int) : List UInt8 :=
  let digits := (Nat.toDigits 10 n.natAbs).map fun c => UInt8.ofNat c.toNat
  if n < 0 then 45 :: digits else digits

/-- `hex::encode`. -/
def hexEncode (b : List UInt8) : List UInt8 :=
  let digit (n : UInt8) : UInt8 := if n < 10 then n + 48 else n + 87
  b.flatMap fun c => [digit (c / 16), digit (c % 16)]

/-- What `hash_values` writes for one value: its kind, a colon and the value. -/
def hashText : Value → List UInt8
  | .null => [78, 58]
  | .integer n => [73, 58] ++ decimal n.toInt
  | .float f => [70, 58] ++ decimal f.bits.toNat
  | .text t => [84, 58] ++ t
  | .blob b => [66, 58] ++ hexEncode b

structure HashableRow where
  rowid : Int64
  values : List Value
  deriving DecidableEq

abbrev Delta := List (HashableRow × Int)

/-- What arithmetic on `isize` makes of the exact result. -/
def isize (n : Int) : Int := n.bmod (2 ^ 64)

theorem isize_eq {n : Int} (hle : -2 ^ 63 ≤ n) (hlt : n < 2 ^ 63) : isize n = n :=
  Int.bmod_eq_of_le (by omega) (by omega)

structure DeltaPair where
  left : Delta
  right : Delta

variable (hashStr : List UInt8 → Hash128)

/-- `hash_values`: the texts are joined by a zero byte. -/
def hashValues (values : List Value) : Hash128 :=
  hashStr ([0].intercalate (values.map hashText))

/-- `compute_hash`. -/
def HashableRow.cachedHash (row : HashableRow) : Hash128 :=
  hashValues hashStr (.integer row.rowid :: row.values)

/-- `==` of two values: an INTEGER equals a REAL of the same number. -/
def Value.eq : Value → Value → Bool
  | .null, .null => true
  | .integer a, .integer b => (Value.integer a).cmp (.integer b) == .eq
  | .integer a, .float b => (Value.integer a).cmp (.float b) == .eq
  | .float a, .integer b => (Value.float a).cmp (.integer b) == .eq
  | .float a, .float b => (Value.float a).cmp (.float b) == .eq
  | .text a, .text b => a == b
  | .blob a, .blob b => a == b
  | _, _ => false

theorem Value.eq_refl (v : Value) : Value.eq v v = true := by
  cases v <;> simp [Value.eq, Value.cmp, Types.F64.cmp]

def generateStorageId (operatorId : Int64) (columnIndex opType : Nat) : Int64 :=
  (operatorId <<< 16) ||| (Int64.ofNat columnIndex <<< 2) ||| Int64.ofNat opType

/-- `(storage_id, zset_id, element_id)` in the order of the index. -/
abbrev StorageKey := ℤ ×ₗ Hash128 ×ₗ Hash128

def storageKey (storageId : Int64) (zset element : Hash128) : StorageKey :=
  toLex (storageId.toInt, toLex (zset, element))

def StorageKey.storageId (k : StorageKey) : ℤ := (ofLex k).1

def StorageKey.zset (k : StorageKey) : Hash128 := (ofLex (ofLex k).2).1

def StorageKey.element (k : StorageKey) : Hash128 := (ofLex (ofLex k).2).2

end PgMicro.Incremental
