import Mathlib.Data.Int.ConditionallyCompleteOrder
import PgMicro.OrderedSet
import PgMicro.Types.ComparatorsAgree

/-!
# The order of values is a total preorder

Every number stands for an integer, its value in units of the least subnormal float; `Value::cmp`
compares these integers, so it is transitive also across integers and floats. The order of rows
under an index is then transitive, and a key of some of the columns splits the rows of the index.
-/

namespace PgMicro.Types

namespace F64

def fractionBits : Nat := 1074

def unit : Nat := 2 ^ fractionBits

theorem unit_pos : 0 < unit := Nat.two_pow_pos fractionBits

theorem unit_eq {a b : Nat} (h : a + b = 1074) : unit = 2 ^ a * 2 ^ b := by
  rw [unit, ← Nat.pow_add, h, fractionBits]

theorem pow_eq_mul_unit {a b : Nat} (h : a = b + 1074) : 2 ^ a = 2 ^ b * unit := by
  rw [unit, ← Nat.pow_add, h, fractionBits]

def scaled (m : Nat) : Nat :=
  if m / 2 ^ 52 = 0 then m % 2 ^ 52 else (2 ^ 52 + m % 2 ^ 52) * 2 ^ (m / 2 ^ 52 - 1)

theorem scaled_eq (bits : UInt64) :
    scaled (magnitude bits) = significand bits * 2 ^ (scale bits - 1) := by
  rw [scaled, significand, scale]
  split
  next hzero =>
    rw [hzero]
    simp
  · rw [Nat.max_eq_left (by omega)]

theorem scaled_strictMono : StrictMono scaled := by
  apply strictMono_nat_of_lt_succ
  intro m
  rw [scaled, scaled]
  have hdiv : (m + 1) / 2 ^ 52 = m / 2 ^ 52 + if m % 2 ^ 52 = 2 ^ 52 - 1 then 1 else 0 := by
    split <;> omega
  have hmod : (m + 1) % 2 ^ 52 = if m % 2 ^ 52 = 2 ^ 52 - 1 then 0 else m % 2 ^ 52 + 1 := by
    split <;> omega
  rw [hdiv, hmod]
  by_cases hlast : m % 2 ^ 52 = 2 ^ 52 - 1
  · simp only [if_pos hlast, Nat.add_eq_zero_iff, Nat.one_ne_zero, and_false, if_false,
      Nat.add_sub_cancel]
    split
    next hzero =>
      rw [hzero]
      omega
    next hne =>
      obtain ⟨e, he⟩ := Nat.exists_eq_succ_of_ne_zero hne
      rw [he, Nat.succ_sub_one, Nat.succ_eq_add_one, Nat.pow_succ]
      have hpos : 0 < 2 ^ e := Nat.two_pow_pos e
      calc (2 ^ 52 + m % 2 ^ 52) * 2 ^ e < (2 ^ 52 * 2) * 2 ^ e :=
            Nat.mul_lt_mul_of_pos_right (by omega) hpos
        _ = (2 ^ 52 + 0) * (2 ^ e * 2) := by ring
  · simp only [if_neg hlast, Nat.add_zero]
    split
    · omega
    · exact Nat.mul_lt_mul_of_pos_right (by omega) (Nat.two_pow_pos _)

def signed (key : Int) : Int := if key < 0 then -(scaled key.natAbs : Int) else scaled key.natAbs

theorem signed_strictMono : StrictMono signed := by
  intro a b hlt
  have hmono {m n : Nat} (h : m < n) : (scaled m : Int) < scaled n := by
    exact_mod_cast scaled_strictMono h
  rw [signed, signed]
  split <;> split
  · have := hmono (show b.natAbs < a.natAbs by omega)
    omega
  · have hpos := hmono (show 0 < a.natAbs by omega)
    omega
  · omega
  · exact hmono (by omega)

theorem cmp_eq (a b : UInt64) : cmp a b = compare (signed (orderKey a)) (signed (orderKey b)) := by
  rw [cmp, ← cmp_eq_compare, ← cmp_eq_compare, signed_strictMono.cmp_map_eq]

theorem scaled_normal {e f : Nat} (hlow : 2 ^ 52 ≤ f) (hhigh : f < 2 ^ 53) :
    scaled (e * 2 ^ 52 + f) = f * 2 ^ e := by
  have hdiv : (e * 2 ^ 52 + f) / 2 ^ 52 = e + 1 := by omega
  have hmod : (e * 2 ^ 52 + f) % 2 ^ 52 = f - 2 ^ 52 := by omega
  rw [scaled, hdiv, hmod, if_neg (Nat.succ_ne_zero e), Nat.add_sub_cancel,
    Nat.add_sub_cancel' hlow]

theorem scaled_ofNat {n s t : Nat} (hn : n = s * 2 ^ t) (hs : s < 2 ^ 53) :
    scaled (ofNat n) = n * unit := by
  by_cases hzero : n = 0
  · subst hzero
    rw [ofNat, if_pos rfl, Nat.zero_mul]
    decide
  have hlow : 2 ^ Nat.log 2 n ≤ n := Nat.pow_log_le_self 2 hzero
  have hhigh : n < 2 ^ (Nat.log 2 n + 1) := Nat.lt_pow_succ_log_self (by decide) n
  rw [ofNat, if_neg hzero]
  generalize Nat.log 2 n = k at hlow hhigh ⊢
  dsimp only
  by_cases hk : k ≤ 52
  · have hpow (i : Nat) : 2 ^ (k + i) * 2 ^ (52 - k) = 2 ^ (52 + i) := by
      rw [← Nat.pow_add]
      congr 1
      omega
    rw [if_pos hk, scaled_normal, Nat.mul_assoc, ← unit_eq (by omega)]
    · exact hpow 0 ▸ Nat.mul_le_mul_right _ hlow
    · exact hpow 1 ▸ Nat.mul_lt_mul_of_pos_right hhigh (Nat.two_pow_pos _)
  · -- the bits that are cut off are zero
    have hdvd : 2 ^ (k - 52) ∣ n := by
      have hlt : 2 ^ k < 2 ^ (53 + t) := by
        calc 2 ^ k ≤ s * 2 ^ t := hn ▸ hlow
          _ < 2 ^ 53 * 2 ^ t := Nat.mul_lt_mul_of_pos_right hs (Nat.two_pow_pos t)
          _ = 2 ^ (53 + t) := (Nat.pow_add ..).symm
      have hle := (Nat.pow_lt_pow_iff_right (by decide)).1 hlt
      rw [hn]
      exact Nat.dvd_mul_left_of_dvd (Nat.pow_dvd_pow 2 (by omega)) s
    have hpow (i : Nat) : 2 ^ (52 + i) * 2 ^ (k - 52) = 2 ^ (k + i) := by
      rw [← Nat.pow_add]
      congr 1
      omega
    have hunit : 2 ^ (k + 1022) = 2 ^ (k - 52) * unit := pow_eq_mul_unit (by omega)
    have hpos := Nat.two_pow_pos (k - 52)
    rw [if_neg hk, Nat.mod_eq_zero_of_dvd hdvd, if_neg (by omega), Nat.add_zero, scaled_normal,
      hunit, ← Nat.mul_assoc, Nat.div_mul_cancel hdvd]
    · rw [Nat.le_div_iff_mul_le hpos]
      exact hpow 0 ▸ hlow
    · rw [Nat.div_lt_iff_lt_mul hpos]
      exact hpow 1 ▸ hhigh

theorem ofNat_lt {n : Nat} (hn : n ≤ 2 ^ 63) : ofNat n < 2 ^ 63 := by
  by_cases hzero : n = 0
  · subst hzero
    decide
  have hk : Nat.log 2 n ≤ 63 := by
    exact Nat.log_mono_right hn
  have hhigh : n < 2 ^ (Nat.log 2 n + 1) := Nat.lt_pow_succ_log_self (by decide) n
  rw [ofNat, if_neg hzero]
  generalize Nat.log 2 n = k at hk hhigh ⊢
  dsimp only
  split
  · have : n * 2 ^ (52 - k) < 2 ^ 53 := by
      calc n * 2 ^ (52 - k) < 2 ^ (k + 1) * 2 ^ (52 - k) :=
            Nat.mul_lt_mul_of_pos_right hhigh (Nat.two_pow_pos _)
        _ = 2 ^ 53 := by
          rw [← Nat.pow_add]
          congr 1
          omega
    omega
  · have : n / 2 ^ (k - 52) < 2 ^ 53 := by
      rw [Nat.div_lt_iff_lt_mul (Nat.two_pow_pos _)]
      calc n < 2 ^ (k + 1) := hhigh
        _ = 2 ^ 53 * 2 ^ (k - 52) := by
          rw [← Nat.pow_add]
          congr 1
          omega
    split <;> omega

theorem signed_natCast (m : Nat) : signed m = scaled m := if_neg (by omega)

theorem signed_neg (m : Nat) : signed (-(m : Int)) = -(scaled m : Int) := by
  rw [signed, Int.natAbs_neg, Int.natAbs_natCast]
  split
  · rfl
  · obtain rfl : m = 0 := by omega
    rfl

theorem signed_orderKey (bits : UInt64) :
    signed (orderKey bits) =
      if negative bits then -(scaled (magnitude bits) : Int) else scaled (magnitude bits) := by
  rw [orderKey]
  split
  · exact signed_neg _
  · exact signed_natCast _

theorem trunc_eq (bits : UInt64) :
    trunc bits = if negative bits then -((scaled (magnitude bits) / unit : Nat) : Int)
      else (scaled (magnitude bits) / unit : Nat) := by
  have hwhole : (if 1075 ≤ scale bits then significand bits * 2 ^ (scale bits - 1075)
      else significand bits / 2 ^ (1075 - scale bits)) = scaled (magnitude bits) / unit := by
    have hscale : 1 ≤ scale bits := Nat.le_max_right _ _
    rw [scaled_eq]
    split
    · have hpow : 2 ^ (scale bits - 1) = 2 ^ (scale bits - 1075) * unit :=
        pow_eq_mul_unit (by omega)
      rw [hpow, ← Nat.mul_assoc, Nat.mul_div_cancel _ unit_pos]
    · have hpow : unit = 2 ^ (1075 - scale bits) * 2 ^ (scale bits - 1) := unit_eq (by omega)
      rw [hpow, Nat.mul_div_mul_right _ _ (Nat.two_pow_pos _)]
  simp only [trunc, hwhole]

theorem orderKey_ofInt64 (i : Int64) :
    orderKey (ofInt64 i) = if i.toInt < 0 then -(ofNat i.toInt.natAbs : Int)
      else ofNat i.toInt.natAbs := by
  have hlow := i.le_toInt
  have hhigh := i.toInt_lt
  have hlt := ofNat_lt (show i.toInt.natAbs ≤ 2 ^ 63 by omega)
  rw [ofInt64]
  split
  · have hnat : (UInt64.ofNat (2 ^ 63 + ofNat i.toInt.natAbs)).toNat =
        2 ^ 63 + ofNat i.toInt.natAbs := by
      exact Nat.mod_eq_of_lt (by omega)
    rw [orderKey, negative, magnitude, hnat, decide_eq_true (by omega), if_pos rfl,
      Nat.add_mod_left, Nat.mod_eq_of_lt hlt]
  · have hnat : (UInt64.ofNat (ofNat i.toInt.natAbs)).toNat = ofNat i.toInt.natAbs := by
      exact Nat.mod_eq_of_lt (by omega)
    rw [orderKey, negative, magnitude, hnat, decide_eq_false (by omega), if_neg (by simp),
      Nat.mod_eq_of_lt hlt]

theorem signed_ofInt64 {i : Int64} (h : scaled (ofNat i.toInt.natAbs) = i.toInt.natAbs * unit) :
    signed (orderKey (ofInt64 i)) = i.toInt * unit := by
  rw [orderKey_ofInt64]
  split
  · rw [signed_neg, h, Nat.cast_mul, ← neg_mul]
    congr 1
    omega
  · rw [signed_natCast, h, Nat.cast_mul]
    congr 1
    omega

theorem magnitude_twoPow : magnitude (twoPow 63) = 1085 * 2 ^ 52 + 2 ^ 52 := by decide

theorem scaled_twoPow : scaled (magnitude (twoPow 63)) = 2 ^ 63 * unit := by
  have hpow : 2 ^ 1085 = 2 ^ 11 * unit := pow_eq_mul_unit rfl
  rw [magnitude_twoPow, scaled_normal (Nat.le_refl _) (by decide), hpow, ← Nat.mul_assoc,
    ← Nat.pow_add]

/-- An integer that is what a float is without its fraction is converted without loss, as the float
has a fraction only below two to the 53rd. -/
theorem scaled_ofNat_whole (bits : UInt64) :
    scaled (ofNat (scaled (magnitude bits) / unit)) = scaled (magnitude bits) / unit * unit := by
  have hsig : significand bits < 2 ^ 53 := by
    rw [significand]
    split <;> omega
  rw [scaled_eq]
  by_cases hscale : 1075 ≤ scale bits
  · have hpow : 2 ^ (scale bits - 1) = 2 ^ (scale bits - 1075) * unit := pow_eq_mul_unit (by omega)
    rw [hpow, ← Nat.mul_assoc, Nat.mul_div_cancel _ unit_pos]
    exact scaled_ofNat rfl hsig
  have hlt : significand bits * 2 ^ (scale bits - 1) / unit < 2 ^ 53 := by
    rw [Nat.div_lt_iff_lt_mul unit_pos]
    refine Nat.mul_lt_mul'' hsig (Nat.pow_lt_pow_right (by decide) ?_)
    rw [fractionBits]
    omega
  exact scaled_ofNat (show _ = _ * 2 ^ 0 by rw [Nat.pow_zero, Nat.mul_one]) hlt

end F64

open F64 in
theorem sqliteIntFloatCmp_eq (i : Int64) (f : NonNan) :
    sqliteIntFloatCmp i f = compare (i.toInt * unit) (signed (orderKey f.bits)) := by
  have hlow := i.le_toInt
  have hhigh := i.toInt_lt
  have hunit : (0 : Int) < unit := by exact_mod_cast unit_pos
  have htwo : ((scaled (magnitude (twoPow 63)) : Nat) : Int) = 2 ^ 63 * unit := by
    rw [scaled_twoPow, Nat.cast_mul]
    rfl
  rw [sqliteIntFloatCmp]
  split
  next hbelow =>
    have hlt := signed_strictMono hbelow
    have hmul : -2 ^ 63 * (unit : Int) ≤ i.toInt * unit :=
      Int.mul_le_mul_of_nonneg_right (by omega) hunit.le
    rw [signed_neg, htwo, ← neg_mul] at hlt
    exact (compare_gt_iff_gt.2 (lt_of_lt_of_le hlt hmul)).symm
  split
  next _ habove =>
    have hle := signed_strictMono.monotone habove
    have hmul : i.toInt * (unit : Int) < 2 ^ 63 * unit :=
      Int.mul_lt_mul_of_pos_right (by omega) hunit
    rw [signed_natCast, htwo] at hle
    exact (compare_lt_iff_lt.2 (lt_of_lt_of_le hmul hle)).symm
  · have hnext {a b : Int} (h : a < b) : a * unit + unit ≤ b * unit := by
      rw [← add_one_mul]
      exact Int.mul_le_mul_of_nonneg_right h hunit.le
    have hwhole := Nat.div_add_mod' (scaled (magnitude f.bits)) unit
    have hrest := Nat.mod_lt (scaled (magnitude f.bits)) unit_pos
    have hexact := scaled_ofNat_whole f.bits
    rw [trunc_eq, signed_orderKey]
    generalize scaled (magnitude f.bits) % unit = rest at hwhole hrest
    have hnumber : ((scaled (magnitude f.bits) : Nat) : Int) =
        (scaled (magnitude f.bits) / unit : Nat) * unit + rest := by exact_mod_cast hwhole.symm
    have hequal (habs : i.toInt.natAbs = scaled (magnitude f.bits) / unit) :
        F64.cmp (ofInt64 i) f.bits = compare (i.toInt * unit) (signed (orderKey f.bits)) := by
      rw [cmp_eq, signed_ofInt64 (by rw [habs, hexact])]
    rw [signed_orderKey] at hequal
    generalize scaled (magnitude f.bits) / unit = whole at hnumber hequal ⊢
    generalize negative f.bits = sign at hequal ⊢
    cases sign with
    | true =>
      simp only [if_true] at hequal ⊢
      rcases lt_trichotomy i.toInt (-(whole : Int)) with hlt | heq | hgt
      · have hle := hnext hlt
        rw [neg_mul] at hle
        rw [compare_lt_iff_lt.2 hlt]
        exact (compare_lt_iff_lt.2 (by omega)).symm
      · rw [compare_eq_iff_eq.2 heq]
        exact hequal (by omega)
      · have hle := hnext hgt
        rw [neg_mul] at hle
        rw [compare_gt_iff_gt.2 hgt]
        exact (compare_gt_iff_gt.2 (by omega)).symm
    | false =>
      simp only [Bool.false_eq_true, if_false] at hequal ⊢
      rcases lt_trichotomy i.toInt (whole : Int) with hlt | heq | hgt
      · have hle := hnext hlt
        rw [compare_lt_iff_lt.2 hlt]
        exact (compare_lt_iff_lt.2 (by omega)).symm
      · rw [compare_eq_iff_eq.2 heq]
        exact hequal (by omega)
      · have hle := hnext hgt
        rw [compare_gt_iff_gt.2 hgt]
        exact (compare_gt_iff_gt.2 (by omega)).symm

def Value.sortKey : Value → Nat × Int × List UInt8
  | .null => (0, 0, [])
  | .integer i => (1, i.toInt * F64.unit, [])
  | .float f => (1, F64.signed (F64.orderKey f.bits), [])
  | .text t => (2, 0, t)
  | .blob b => (3, 0, b)

def compareKeys (a b : Nat × Int × List UInt8) : Ordering :=
  (compare a.1 b.1).then ((compare a.2.1 b.2.1).then (compareBytes a.2.2 b.2.2))

open Value OrderedSet

theorem Value.cmp_eq_compareKeys (l r : Value) : l.cmp r = compareKeys l.sortKey r.sortKey := by
  have hunit {a b : Int} : compare (a * (F64.unit : Int)) (b * F64.unit) = compare a b := by
    have hmono : StrictMono fun n : Int => n * (F64.unit : Int) := fun a b h =>
      Int.mul_lt_mul_of_pos_right h (by exact_mod_cast F64.unit_pos)
    rw [← cmp_eq_compare, ← cmp_eq_compare]
    exact hmono.cmp_map_eq a b
  have hnil : compareBytes [] [] = .eq := rfl
  have hthen (o : Ordering) : o.then .eq = o := by cases o <;> rfl
  have hkeys {a b : Int} : compareKeys (1, a, []) (1, b, []) = compare a b := by
    rw [compareKeys, hnil, hthen]
    rfl
  cases l with
  | integer i =>
    cases r with
    | integer j =>
      rw [sortKey, sortKey, hkeys, hunit]
      rfl
    | float f =>
      rw [sortKey, sortKey, hkeys, ← sqliteIntFloatCmp_eq]
      rfl
    | _ => rfl
  | float f =>
    cases r with
    | integer j =>
      rw [sortKey, sortKey, hkeys, ← cmp_eq_compare, ← cmp_swap, cmp_eq_compare,
        ← sqliteIntFloatCmp_eq]
      rfl
    | float g =>
      rw [sortKey, sortKey, hkeys, ← F64.cmp_eq]
      rfl
    | _ => rfl
  | null | text | blob => cases r <;> rfl

instance : Std.TransCmp compareKeys :=
  inferInstanceAs (Std.TransCmp (compareLex (compareOn Prod.fst)
    (compareLex (compareOn fun a : Nat × Int × List UInt8 => a.2.1) (compareOn fun a => a.2.2))))

instance : Std.TransCmp Value.cmp := by
  rw [funext₂ cmp_eq_compareKeys]
  exact transCmp_on inferInstance sortKey

section

variable [UncasedStr]

instance (collation : CollationSeq) : Std.TransCmp collation.compareStrings :=
  match collation with
  | .unset | .binary => inferInstanceAs (Std.TransCmp compareBytes)
  | .noCase => UncasedStr.trans
  | .rtrim => transCmp_on (inferInstance : Std.TransCmp compareBytes) trimEndSpaces

def Value.withoutText : Value → Value
  | .text _ => .text []
  | v => v

def Value.textOf : Value → List UInt8
  | .text t => t
  | _ => []

/-- A collation only has a say between texts. -/
theorem compareImmutableSingle_eq (l r : Value) (collation : CollationSeq) :
    compareImmutableSingle l r collation = (l.withoutText.cmp r.withoutText).then
      (collation.compareStrings l.textOf r.textOf) := by
  have hnil : collation.compareStrings [] [] = .eq := Std.ReflCmp.compare_self
  have hthen (o : Ordering) : o.then .eq = o := by cases o <;> rfl
  cases l <;> cases r <;> first | rfl | exact (hnil ▸ hthen _).symm

instance (collation : CollationSeq) :
    Std.TransCmp fun l r => compareImmutableSingle l r collation := by
  simp only [compareImmutableSingle_eq]
  have hrest := transCmp_on (inferInstance : Std.TransCmp Value.cmp) withoutText
  have htexts := transCmp_on (inferInstance : Std.TransCmp collation.compareStrings) textOf
  exact inferInstanceAs (Std.TransCmp (compareLex
    (fun l r : Value => l.withoutText.cmp r.withoutText)
    fun l r => collation.compareStrings l.textOf r.textOf))

def KeyInfo.compare (key : KeyInfo) (l r : Value) : Ordering :=
  key.sortOrder.apply (compareImmutableSingle l r key.collation)

open Std.OrientedCmp

open Std.TransCmp

instance (key : KeyInfo) : Std.TransCmp key.compare := by
  obtain ⟨order, collation⟩ := key
  have htrans : Std.TransCmp fun l r => compareImmutableSingle l r collation := inferInstance
  cases order with
  | asc => exact htrans
  | desc =>
    have hswap : KeyInfo.compare ⟨.desc, collation⟩ =
        fun l r => compareImmutableSingle r l collation :=
      funext₂ fun l r => (htrans.eq_swap (a := r) (b := l)).symm
    rw [hswap]
    exact .opposite

theorem lexCompare_ascends {keys : List KeyInfo} {ls rs : List Value}
    (hls : keys.length ≤ ls.length) (hrs : keys.length ≤ rs.length)
    (hlt : lexCompare .eq ls rs keys = .lt) (unpacked : List Value) :
    (lexCompare .eq ls unpacked keys = .gt → lexCompare .eq rs unpacked keys = .gt) ∧
      (lexCompare .eq rs unpacked keys = .lt → lexCompare .eq ls unpacked keys = .lt) := by
  induction keys generalizing ls rs unpacked with
  | nil =>
    rw [lexCompare_nil_keys] at hlt
    cases hlt
  | cons key keys ih =>
    cases unpacked with
    | nil => simp
    | cons u unpacked =>
      obtain ⟨l, ls, rfl⟩ := List.exists_cons_of_length_pos (Nat.lt_of_lt_of_le (by simp) hls)
      obtain ⟨r, rs, rfl⟩ := List.exists_cons_of_length_pos (Nat.lt_of_lt_of_le (by simp) hrs)
      have hcons (a : Value) (as b : List Value) (v : Value) : lexCompare .eq (a :: as) (v :: b)
          (key :: keys) = (key.compare a v).then (lexCompare .eq as b keys) := by
        cases key.sortOrder.apply (compareImmutableSingle a v key.collation) <;> rfl
      rw [hcons] at hlt
      rw [hcons, hcons]
      cases hlr : key.compare l r with
      | gt =>
        rw [hlr] at hlt
        cases hlt
      | lt =>
        cases hlu : key.compare l u with
        | lt => simp [Ordering.then]
        | eq | gt =>
          have hswap (a b : Value) : key.compare a b = (key.compare b a).swap :=
            eq_swap
          have hul : (key.compare u l).isLE := by
            rw [hswap, hlu]
            rfl
          have hru : key.compare r u = .gt := by
            rw [hswap, lt_of_isLE_of_lt hul hlr]
            rfl
          simp [hru, Ordering.then]
      | eq =>
        rw [hlr] at hlt
        have hru : key.compare r u = key.compare l u := (congr_left hlr).symm
        rw [hru]
        cases key.compare l u with
        | eq => exact ih (Nat.le_of_succ_le_succ hls) (Nat.le_of_succ_le_succ hrs) hlt unpacked
        | lt | gt => simp [Ordering.then]

end

end PgMicro.Types
