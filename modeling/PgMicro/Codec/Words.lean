import PgMicro.Codec.LittleEndian

/-!
# 32-bit words as bytes
-/

namespace Codec

open List

inductive Endian where
  | little
  | big
  deriving DecidableEq, Repr

namespace Endian

def toBytes : Endian → UInt32 → List UInt8
  | .little, w => toLE 4 w.toNat
  | .big, w => (toLE 4 w.toNat).reverse

def ofBytes : Endian → List UInt8 → UInt32
  | .little, bytes => UInt32.ofNat (ofLE bytes)
  | .big, bytes => UInt32.ofNat (ofLE bytes.reverse)

def other : Endian → Endian
  | .little => .big
  | .big => .little

variable (e : Endian) {bytes : List UInt8}

@[simp]
theorem length_toBytes (w : UInt32) : (e.toBytes w).length = 4 := by
  cases e with
  | little => exact length_toLE ..
  | big => rw [toBytes, length_reverse, length_toLE]

@[simp]
theorem ofBytes_toBytes (w : UInt32) : e.ofBytes (e.toBytes w) = w := by
  have hw : w.toNat < 256 ^ 4 := w.toNat_lt
  cases e with
  | little => rw [toBytes, ofBytes, ofLE_toLE hw, UInt32.ofNat_toNat]
  | big => rw [toBytes, ofBytes, reverse_reverse, ofLE_toLE hw, UInt32.ofNat_toNat]

theorem toBytes_ofBytes (h : bytes.length = 4) : e.toBytes (e.ofBytes bytes) = bytes := by
  have hlt : ∀ {bytes : List UInt8}, bytes.length = 4 → ofLE bytes < 2 ^ 32 := by
    intro bytes hlen
    have := ofLE_lt bytes
    rwa [hlen] at this
  cases e with
  | little => rw [ofBytes, toBytes, UInt32.toNat_ofNat_of_lt' (hlt h), toLE_ofLE_of_length h]
  | big =>
    have hrev : bytes.reverse.length = 4 := by rw [length_reverse, h]
    rw [ofBytes, toBytes, UInt32.toNat_ofNat_of_lt' (hlt hrev), toLE_ofLE_of_length hrev,
      reverse_reverse]

theorem length_flatMap_toBytes (words : List UInt32) :
    (words.flatMap e.toBytes).length = 4 * words.length := by
  induction words with
  | nil => rfl
  | cons w words ih =>
    rw [flatMap_cons, length_append, length_toBytes, ih, length_cons, Nat.mul_succ,
      Nat.add_comm]

theorem ofBytes_word {words : List UInt32} {i : Nat} {w : UInt32} (h : words[i]? = some w)
    (rest : List UInt8) :
    e.ofBytes (((words.flatMap e.toBytes ++ rest).drop (4 * i)).take 4) = w := by
  induction words generalizing i with
  | nil => cases h
  | cons w' words ih =>
    rw [flatMap_cons, append_assoc]
    cases i with
    | zero =>
      obtain rfl : w' = w := Option.some.inj h
      rw [Nat.mul_zero, drop_zero, take_left' (e.length_toBytes w'), ofBytes_toBytes]
    | succ i =>
      rw [Nat.mul_succ, Nat.add_comm, ← e.length_toBytes w', drop_length_add_append,
        e.length_toBytes w']
      exact ih h

end Endian

def swapBytes (w : UInt32) : UInt32 := Endian.big.ofBytes (Endian.little.toBytes w)

theorem swapBytes_eq (e : Endian) (w : UInt32) : swapBytes w = e.other.ofBytes (e.toBytes w) := by
  cases e with
  | little => rfl
  | big =>
    rfl

theorem swapBytes_ofBytes (e : Endian) {bytes : List UInt8} (h : bytes.length = 4) :
    swapBytes (e.ofBytes bytes) = e.other.ofBytes bytes := by
  rw [swapBytes_eq e, e.toBytes_ofBytes h]

end Codec
