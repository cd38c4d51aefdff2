import Mathlib.Data.Int.Log
import Mathlib.Data.UInt

/-!
# Values and their order

`Value` and `ValueRef` of `core/types.rs`, `Numeric` of `core/numeric` and `CollationSeq` of
`core/translate/collate.rs`. A text is its UTF-8 bytes, by which `str` compares, and the collations
only look at ASCII bytes. Text subtypes take no part in storing or comparing.
-/

namespace PgMicro.Types

namespace F64

def magnitude (bits : UInt64) : Nat := bits.toNat % 2 ^ 63

def negative (bits : UInt64) : Bool := decide (2 ^ 63 ≤ bits.toNat)

def isNan (bits : UInt64) : Bool := decide (0x7ff0000000000000 < magnitude bits)

def orderKey (bits : UInt64) : Int :=
  if negative bits then -(magnitude bits : Int) else magnitude bits

def cmp (a b : UInt64) : Ordering := compare (orderKey a) (orderKey b)

def twoPow (k : Nat) : UInt64 := UInt64.ofNat ((k + 1023) * 2 ^ 52)

def significand (bits : UInt64) : Nat :=
  if magnitude bits / 2 ^ 52 = 0 then magnitude bits % 2 ^ 52
  else 2 ^ 52 + magnitude bits % 2 ^ 52

def scale (bits : UInt64) : Nat := max (magnitude bits / 2 ^ 52) 1

def trunc (bits : UInt64) : Int :=
  let whole :=
    if 1075 ≤ scale bits then significand bits * 2 ^ (scale bits - 1075)
    else significand bits / 2 ^ (1075 - scale bits)
  if negative bits then -(whole : Int) else whole

/-- `n as f64` of a natural number below two to the 64th: rounded to the nearest float, to the
even one when two are as near. -/
def ofNat (n : Nat) : Nat :=
  if n = 0 then 0
  else
    let k := Nat.log 2 n
    if k ≤ 52 then (k + 1022) * 2 ^ 52 + n * 2 ^ (52 - k)
    else
      let unit := 2 ^ (k - 52)
      let up := unit < 2 * (n % unit) ∨ (unit = 2 * (n % unit) ∧ n / unit % 2 = 1)
      (k + 1022) * 2 ^ 52 + n / unit + if up then 1 else 0

def ofInt64 (i : Int64) : UInt64 :=
  if i.toInt < 0 then UInt64.ofNat (2 ^ 63 + ofNat i.toInt.natAbs)
  else UInt64.ofNat (ofNat i.toInt.natAbs)

end F64

/-- `NonNan`: a float that is a number. -/
structure NonNan where
  bits : UInt64
  isNumber : F64.isNan bits = false
  deriving DecidableEq

def NonNan.new (bits : UInt64) : Option NonNan :=
  if h : F64.isNan bits = false then some ⟨bits, h⟩ else none

inductive Value where
  | null
  | integer (i : Int64)
  | float (f : NonNan)
  | text (t : List UInt8)
  | blob (b : List UInt8)
  deriving DecidableEq

def Value.fromF64 (bits : UInt64) : Value :=
  match NonNan.new bits with
  | some f => .float f
  | none => .null

theorem Value.fromF64_bits (f : NonNan) : Value.fromF64 f.bits = .float f := by
  rw [fromF64, NonNan.new, dif_pos f.isNumber]

/-- `sqlite_int_float_cmp`; its test for a NaN is decided by the type. -/
def sqliteIntFloatCmp (int : Int64) (float : NonNan) : Ordering :=
  if F64.orderKey float.bits < -(F64.magnitude (F64.twoPow 63) : Int) then .gt
  else if F64.orderKey float.bits ≥ F64.magnitude (F64.twoPow 63) then .lt
  else
    match compare int.toInt (F64.trunc float.bits) with
    | .eq => F64.cmp (F64.ofInt64 int) float.bits
    | other => other

def compareBytes (a b : List UInt8) : Ordering := List.compareLex compare a b

instance : Std.TransCmp compareBytes :=
  inferInstanceAs (Std.TransCmp (List.compareLex (compare (α := UInt8))))

instance : Std.LawfulEqCmp compareBytes :=
  inferInstanceAs (Std.LawfulEqCmp (List.compareLex (compare (α := UInt8))))

def Value.cmp : Value → Value → Ordering
  | .null, .null => .eq
  | .null, _ => .lt
  | _, .null => .gt
  | .integer a, .integer b => compare a.toInt b.toInt
  | .float a, .float b => F64.cmp a.bits b.bits
  | .integer a, .float b => sqliteIntFloatCmp a b
  | .float a, .integer b => (sqliteIntFloatCmp b a).swap
  | .integer _, _ | .float _, _ => .lt
  | _, .integer _ | _, .float _ => .gt
  | .text a, .text b => compareBytes a b
  | .text _, .blob _ => .lt
  | .blob _, .text _ => .gt
  | .blob a, .blob b => compareBytes a b

inductive CollationSeq where
  | unset
  | binary
  | noCase
  | rtrim
  deriving DecidableEq, Repr

def toAsciiLowercase (c : UInt8) : UInt8 := if 65 ≤ c ∧ c ≤ 90 then c + 32 else c

def trimEndSpaces (t : List UInt8) : List UInt8 := (t.reverse.dropWhile (· == 32)).reverse

/-- The order of the crate `uncased`, as it is documented: case-insensitive in ASCII. -/
class UncasedStr where
  cmp : List UInt8 → List UInt8 → Ordering
  trans : Std.TransCmp cmp
  cmp_eq_iff (lhs rhs : List UInt8) :
    cmp lhs rhs = .eq ↔ lhs.map toAsciiLowercase = rhs.map toAsciiLowercase

/-- The order of the texts in lower case. -/
@[reducible] def UncasedStr.lowercase : UncasedStr where
  cmp lhs rhs := compareBytes (lhs.map toAsciiLowercase) (rhs.map toAsciiLowercase)
  trans :=
    { eq_swap := Std.OrientedCmp.eq_swap
      isLE_trans := Std.TransCmp.isLE_trans }
  cmp_eq_iff _ _ := Std.LawfulEqCmp.compare_eq_iff_eq

variable [UncasedStr]

def CollationSeq.compareStrings : CollationSeq → List UInt8 → List UInt8 → Ordering
  | .unset, lhs, rhs | .binary, lhs, rhs => compareBytes lhs rhs
  | .noCase, lhs, rhs => UncasedStr.cmp lhs rhs
  | .rtrim, lhs, rhs => compareBytes (trimEndSpaces lhs) (trimEndSpaces rhs)

def compareImmutableSingle (l r : Value) (collation : CollationSeq) : Ordering :=
  match l, r with
  | .text left, .text right => collation.compareStrings left right
  | l, r => l.cmp r

end PgMicro.Types
