import PgMicro.Codec.LittleEndian
import Mathlib.Tactic.Linarith

/-!
# Numbers as big-endian bytes, unsigned and in two's complement
-/

namespace Codec

open List Int

def toBE (width n : Nat) : List UInt8 := (toLE width n).reverse

def ofBE (bytes : List UInt8) : Nat := ofLE bytes.reverse

@[simp]
theorem length_toBE (width n : Nat) : (toBE width n).length = width := by
  rw [toBE, length_reverse, length_toLE]

theorem ofBE_toBE {width n : Nat} (h : n < 256 ^ width) : ofBE (toBE width n) = n := by
  rw [ofBE, toBE, reverse_reverse, ofLE_toLE h]

theorem ofBE_lt (bytes : List UInt8) : ofBE bytes < 256 ^ bytes.length := by
  have hlt := ofLE_lt bytes.reverse
  rwa [length_reverse] at hlt

theorem ofLE_concat (bytes : List UInt8) (b : UInt8) :
    ofLE (bytes ++ [b]) = ofLE bytes + 256 ^ bytes.length * b.toNat := by
  induction bytes with
  | nil => simp [ofLE]
  | cons c bytes ih =>
    rw [cons_append, ofLE, ih, ofLE, length_cons, Nat.pow_succ]
    ring

theorem ofBE_cons (b : UInt8) (bytes : List UInt8) :
    ofBE (b :: bytes) = 256 ^ bytes.length * b.toNat + ofBE bytes := by
  rw [ofBE, reverse_cons, ofLE_concat, length_reverse, ofBE, Nat.add_comm]

theorem toLE_succ_concat (width n : Nat) :
    toLE (width + 1) n = toLE width n ++ [UInt8.ofNat (n / 256 ^ width)] := by
  induction width generalizing n with
  | zero => simp [toLE]
  | succ width ih =>
    rw [toLE, ih, toLE, cons_append, Nat.pow_succ, Nat.mul_comm, Nat.div_div_eq_div_mul]

theorem tail_toBE (width n : Nat) : (toBE (width + 1) n).tail = toBE width n := by
  rw [toBE, toLE_succ_concat, reverse_append, reverse_singleton, singleton_append,
    tail_cons, toBE]

theorem drop_toBE (k width n : Nat) : (toBE (k + width) n).drop k = toBE width n := by
  induction k with
  | zero => rw [Nat.zero_add, drop_zero]
  | succ k ih =>
    rw [show k + 1 + width = k + width + 1 by omega, drop_add_one_eq_tail_drop, tail_drop,
      ← drop_tail, tail_toBE, ih]

theorem toLE_mod (width n : Nat) : toLE width (n % 256 ^ width) = toLE width n := by
  induction width generalizing n with
  | zero => rfl
  | succ width ih =>
    have hdiv : n % 256 ^ (width + 1) / 256 = n / 256 % 256 ^ width := by
      rw [Nat.pow_succ, Nat.mul_comm, Nat.mod_mul_right_div_self]
    have hlow : UInt8.ofNat (n % 256 ^ (width + 1)) = UInt8.ofNat n := by
      apply UInt8.toNat_inj.1
      rw [UInt8.toNat_ofNat', UInt8.toNat_ofNat', Nat.pow_succ, Nat.mod_mul_left_mod]
    rw [toLE, toLE, hlow, hdiv, ih]

def signedBE (bytes : List UInt8) : Int := (ofBE bytes : Int).bmod (256 ^ bytes.length)

def toSignedBE (width : Nat) (i : Int) : List UInt8 := toBE width (i % 256 ^ width).toNat

@[simp]
theorem length_toSignedBE (width : Nat) (i : Int) : (toSignedBE width i).length = width :=
  length_toBE ..

theorem signedBE_toSignedBE {width : Nat} {i : Int} (hlow : -(256 ^ width : Int) ≤ 2 * i)
    (hhigh : 2 * i < 256 ^ width) : signedBE (toSignedBE width i) = i := by
  have hpos : (0 : Int) < 256 ^ width := by positivity
  have hnonneg : 0 ≤ i % 256 ^ width := emod_nonneg i hpos.ne'
  have hlt : (i % 256 ^ width).toNat < 256 ^ width := by
    zify [hnonneg]
    rw [toNat_of_nonneg hnonneg]
    exact emod_lt_of_pos i hpos
  rw [signedBE, length_toSignedBE, toSignedBE, ofBE_toBE hlt, toNat_of_nonneg hnonneg]
  have hcast : ((256 ^ width : Nat) : Int) = 256 ^ width := by push_cast; rfl
  rw [← hcast, emod_bmod, bmod_eq_of_le_mul_two]
  · linarith
  · linarith

theorem drop_toSignedBE (k width : Nat) (i : Int) :
    (toSignedBE (k + width) i).drop k = toSignedBE width i := by
  have hpos : ∀ w : Nat, (0 : Int) < 256 ^ w := fun w => by positivity
  have hmod : (i % 256 ^ (k + width)).toNat % 256 ^ width = (i % 256 ^ width).toNat := by
    have hdvd : (256 ^ width : Int) ∣ 256 ^ (k + width) := pow_dvd_pow _ (by omega)
    zify [emod_nonneg i (hpos (k + width)).ne', emod_nonneg i (hpos width).ne']
    rw [toNat_of_nonneg (emod_nonneg i (hpos _).ne'),
      toNat_of_nonneg (emod_nonneg i (hpos _).ne'), emod_emod_of_dvd i hdvd]
  rw [toSignedBE, drop_toBE, toSignedBE, ← hmod, toBE, toBE, toLE_mod]

theorem signedBE_cons (first : UInt8) (bytes : List UInt8) :
    signedBE (first :: bytes) =
      if first ≤ 0x7f then (ofBE (first :: bytes) : Int)
      else ofBE (first :: bytes) - 256 ^ (bytes.length + 1) := by
  have hrest : ofBE bytes < 256 ^ bytes.length := ofBE_lt bytes
  have hlt : ofBE (first :: bytes) < 256 ^ (bytes.length + 1) := ofBE_lt (first :: bytes)
  have hhalf : ofBE (first :: bytes) < (256 ^ (bytes.length + 1) + 1) / 2 ↔ first ≤ 0x7f := by
    rw [ofBE_cons, Nat.pow_succ, UInt8.le_iff_toNat_le, show (0x7f : UInt8).toNat = 127 from rfl]
    generalize 256 ^ bytes.length = p at hrest ⊢
    constructor
    · intro h
      by_contra hlarge
      have hbound : p * 128 ≤ p * first.toNat := Nat.mul_le_mul_left p (by omega)
      omega
    · intro h
      have hbound : p * first.toNat ≤ p * 127 := Nat.mul_le_mul_left p h
      omega
  have hcast : ((256 ^ (bytes.length + 1) : Nat) : Int) = 256 ^ (bytes.length + 1) := by
    rfl
  rw [signedBE, length_cons, bmod, emod_eq_of_lt (by omega) (by omega), hcast]
  have hif : (ofBE (first :: bytes) : Int) < (256 ^ (bytes.length + 1) + 1) / 2 ↔ first ≤ 0x7f := by
    rw [← hhalf]
    zify
  simp [hif]

def signByte (first : UInt8) : UInt8 := if first ≤ 0x7f then 0 else 0xff

theorem signedBE_extend (first : UInt8) (bytes : List UInt8) :
    signedBE (signByte first :: first :: bytes) = signedBE (first :: bytes) := by
  rw [signedBE_cons, signedBE_cons, ofBE_cons (signByte first), length_cons, signByte]
  split
  · simp
  · push_cast
    ring

theorem signByte_signByte (first : UInt8) : signByte (signByte first) = signByte first := by
  rw [signByte, signByte]
  split <;> rfl

theorem signedBE_replicate (k : Nat) (first : UInt8) (bytes : List UInt8) :
    signedBE (replicate k (signByte first) ++ first :: bytes) = signedBE (first :: bytes) := by
  induction k with
  | zero => rfl
  | succ k ih =>
    rw [replicate_succ, cons_append, ← ih]
    cases k with
    | zero => exact signedBE_extend first bytes
    | succ k =>
      have := signedBE_extend (signByte first)
        (replicate k (signByte first) ++ first :: bytes)
      rwa [signByte_signByte] at this

end Codec
