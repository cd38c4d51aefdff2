import Mathlib.Algebra.Order.Field.Basic
import PgMicro.Types.ValueOrder

/-!
# Values compare as what they stand for

An integer or a finite float stands for a rational, and the infinities for the ends; `Value::cmp` is
the order of these numbers between NULL and the texts and blobs, which go by their bytes.
-/

namespace PgMicro.Types

namespace F64

def infinity : Nat := 0x7ff0000000000000

/-- The number that a float stands for. -/
def denotes (bits : UInt64) : WithBot (WithTop ℚ) :=
  if magnitude bits = infinity then if negative bits then ⊥ else ((⊤ : WithTop ℚ) : WithBot _)
  else
    let sign : ℚ := if negative bits then -1 else 1
    ((sign * (significand bits * 2 ^ ((scale bits : ℤ) - 1075)) : ℚ) : WithTop ℚ)

def ofScaled (n : Int) : WithBot (WithTop ℚ) :=
  if n ≤ -scaled infinity then ⊥
  else if scaled infinity ≤ n then ((⊤ : WithTop ℚ) : WithBot _)
  else ((n / unit : ℚ) : WithTop ℚ)

theorem ofScaled_strictMonoOn :
    StrictMonoOn ofScaled (Set.Icc (-scaled infinity : Int) (scaled infinity)) := by
  intro a ha b hb hlt
  have hunit : (0 : ℚ) < unit := by exact_mod_cast unit_pos
  have hquot : (a / unit : ℚ) < b / unit := div_lt_div_of_pos_right (by exact_mod_cast hlt) hunit
  rw [Set.mem_Icc] at ha hb
  rw [ofScaled, ofScaled, if_neg (by omega : ¬b ≤ -(scaled infinity : Int))]
  split
  · split <;> exact WithBot.bot_lt_coe _
  · rw [if_neg (by omega : ¬(scaled infinity : Int) ≤ a)]
    split
    · exact WithBot.coe_lt_coe.2 (WithTop.coe_lt_top _)
    · exact WithBot.coe_lt_coe.2 (WithTop.coe_lt_coe.2 hquot)

theorem two_pow_lt_scaled_infinity : 2 ^ 63 * (unit : Int) < scaled infinity := by
  have hlt : 2 ^ 63 * unit < scaled infinity := scaled_twoPow ▸ scaled_strictMono (by decide)
  exact_mod_cast hlt

theorem ofScaled_of_abs_lt {n : Int} (h : |n| < scaled infinity) :
    ofScaled n = ((n / unit : ℚ) : WithTop ℚ) := by
  obtain ⟨hlow, hhigh⟩ := abs_lt.1 h
  rw [ofScaled, if_neg (by omega), if_neg (by omega)]

theorem magnitude_le (f : NonNan) : magnitude f.bits ≤ infinity := by
  have hnumber := f.isNumber
  rwa [isNan, decide_eq_false_iff_not, Nat.not_lt] at hnumber

theorem signed_mem (f : NonNan) :
    signed (orderKey f.bits) ∈ Set.Icc (-scaled infinity : Int) (scaled infinity) := by
  have hle := scaled_strictMono.monotone (magnitude_le f)
  rw [signed_orderKey, Set.mem_Icc]
  split <;> omega

theorem denotes_eq (f : NonNan) : denotes f.bits = ofScaled (signed (orderKey f.bits)) := by
  have hinfinity := two_pow_lt_scaled_infinity
  rw [denotes, signed_orderKey]
  split
  next heq =>
    rw [heq, ofScaled]
    split
    · rw [if_pos (Int.le_refl _)]
    · rw [if_neg (by omega), if_pos (Int.le_refl _)]
  next hne =>
    have hlt := scaled_strictMono (lt_of_le_of_ne (magnitude_le f) hne)
    have hscale : 1 ≤ scale f.bits := Nat.le_max_right ..
    have hpow : (2 : ℚ) ^ ((scale f.bits : ℤ) - 1075) = 2 ^ (scale f.bits - 1) / unit := by
      rw [unit, fractionBits, Nat.cast_pow, ← zpow_natCast, ← zpow_natCast, Nat.cast_ofNat,
        ← zpow_sub₀ two_ne_zero]
      congr 1
      omega
    rw [ofScaled_of_abs_lt]
    · refine congrArg (fun q : ℚ => ((q : WithTop ℚ) : WithBot (WithTop ℚ))) ?_
      rw [hpow, scaled_eq]
      split <;> push_cast <;> ring
    · split <;> simp only [abs_neg, Nat.abs_cast, Nat.cast_lt, hlt]

end F64

/-- The class of a value, the number it stands for and its bytes. -/
def Value.denotes : Value → Nat × WithBot (WithTop ℚ) × List UInt8
  | .null => (0, ((0 : ℚ) : WithTop ℚ), [])
  | .integer i => (1, ((i.toInt : ℚ) : WithTop ℚ), [])
  | .float f => (1, F64.denotes f.bits, [])
  | .text t => (2, ((0 : ℚ) : WithTop ℚ), t)
  | .blob b => (3, ((0 : ℚ) : WithTop ℚ), b)

open F64 in
theorem Value.denotes_eq (v : Value) : v.denotes =
    (v.sortKey.1, ofScaled v.sortKey.2.1, v.sortKey.2.2) ∧
      v.sortKey.2.1 ∈ Set.Icc (-scaled infinity : Int) (scaled infinity) := by
  have hinfinity := two_pow_lt_scaled_infinity
  have hunit : (unit : ℚ) ≠ 0 := by exact_mod_cast unit_pos.ne'
  have hzero : ofScaled 0 = ((0 : ℚ) : WithTop ℚ) := by
    rw [ofScaled_of_abs_lt (by rw [abs_zero]; omega), Int.cast_zero, zero_div]
  cases v with
  | null | text | blob =>
    refine ⟨by rw [sortKey, hzero]; rfl, Set.mem_Icc.2 ⟨?_, Int.natCast_nonneg _⟩⟩
    exact Int.neg_nonpos_of_nonneg (Int.natCast_nonneg _)
  | integer i =>
    have habs : |i.toInt * (unit : Int)| < scaled infinity := by
      rw [abs_mul, Nat.abs_cast]
      refine lt_of_le_of_lt (Int.mul_le_mul_of_nonneg_right ?_ (Int.natCast_nonneg _)) hinfinity
      exact abs_le.2 ⟨i.le_toInt, i.toInt_lt.le⟩
    refine ⟨?_, Set.mem_Icc.2 (abs_le.1 habs.le)⟩
    rw [sortKey, ofScaled_of_abs_lt habs, Int.cast_mul, Int.cast_natCast,
      mul_div_cancel_right₀ _ hunit]
    rfl
  | float f => exact ⟨by rw [sortKey, ← F64.denotes_eq]; rfl, signed_mem f⟩

/-- The order is total, and it is that of what the values denote. -/
theorem cmp_total_exact : Std.TransCmp Value.cmp ∧ ∀ a b : Value,
    (a.cmp b = .eq ↔ a.denotes = b.denotes) ∧
    a.cmp b = (compare a.denotes.1 b.denotes.1).then
      ((compare a.denotes.2.1 b.denotes.2.1).then (compareBytes a.denotes.2.2 b.denotes.2.2)) := by
  have hlex (a b : Value) : a.cmp b = (compare a.denotes.1 b.denotes.1).then
      ((compare a.denotes.2.1 b.denotes.2.1).then (compareBytes a.denotes.2.2 b.denotes.2.2)) := by
    obtain ⟨ha, hmem⟩ := a.denotes_eq
    obtain ⟨hb, hmem'⟩ := b.denotes_eq
    have hnumber := F64.ofScaled_strictMonoOn.cmp_map_eq hmem hmem'
    rw [cmp_eq_compare, cmp_eq_compare] at hnumber
    rw [Value.cmp_eq_compareKeys, compareKeys, ha, hb, hnumber]
  refine ⟨inferInstance, fun a b => ⟨?_, hlex a b⟩⟩
  rw [hlex, Ordering.then_eq_eq, Ordering.then_eq_eq, compare_eq_iff_eq, compare_eq_iff_eq,
    Prod.ext_iff, Prod.ext_iff]
  exact and_congr_right fun _ => and_congr_right fun _ => Std.LawfulEqCmp.compare_eq_iff_eq

end PgMicro.Types
