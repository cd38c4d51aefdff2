import PgMicro.Optimizer.SeekBounds

/-!
# A seek by rowid

A float is searched for by the integer next to it, a text by the number it is read as; a text or
blob that is no number is behind all rowids.
-/

namespace PgMicro.Optimizer.Seek

open Types Affinity
open BTree (IterationDirection SeekOp)
open SortedScan (Lasts)

section

open F64

theorem orderKey_largestReal : orderKey largestReal + 1 = (magnitude (twoPow 63) : Int) := by
  decide +kernel

theorem natAbs_trunc (bits : UInt64) : (trunc bits).natAbs = scaled (magnitude bits) / unit := by
  rw [trunc_eq]
  split
  · rw [Int.natAbs_neg, Int.natAbs_natCast]
  · rw [Int.natAbs_natCast]

theorem signed_near_trunc (bits : UInt64) :
    trunc bits * unit - unit < signed (orderKey bits) ∧
      signed (orderKey bits) < trunc bits * unit + unit := by
  have hwhole := Nat.div_add_mod' (scaled (magnitude bits)) unit
  have hrest := Nat.mod_lt (scaled (magnitude bits)) unit_pos
  rw [trunc_eq, signed_orderKey]
  split
  · rw [neg_mul]
    omega
  · omega

theorem compare_trunc {r : Int} {bits : UInt64} :
    compare (r * unit) (signed (orderKey bits)) =
      (compare r (trunc bits)).then
        (compare (trunc bits * unit) (signed (orderKey bits))) := by
  have hunit : (0 : Int) ≤ unit := Int.natCast_nonneg _
  have hnext {a b : Int} (h : a < b) : a * unit + unit ≤ b * unit := by
    rw [← add_one_mul]
    exact Int.mul_le_mul_of_nonneg_right h hunit
  obtain ⟨hbelow, habove⟩ := signed_near_trunc bits
  rcases lt_trichotomy r (trunc bits) with hlt | rfl | hgt
  · have hle := hnext hlt
    rw [compare_lt_iff_lt.2 hlt, compare_lt_iff_lt.2 (by omega)]
    rfl
  · rw [compare_eq_iff_eq.2 (rfl : trunc bits = trunc bits)]
    rfl
  · have hle := hnext hgt
    rw [compare_gt_iff_gt.2 hgt, compare_gt_iff_gt.2 (by omega)]
    rfl

theorem compare_mul_unit (a b : Int) : compare (a * unit) (b * unit) = compare a b := by
  have hunit : (0 : Int) < unit := by exact_mod_cast unit_pos
  rcases lt_trichotomy a b with hlt | rfl | hgt
  · rw [compare_lt_iff_lt.2 hlt, compare_lt_iff_lt.2 (Int.mul_lt_mul_of_pos_right hlt hunit)]
  · rw [compare_eq_iff_eq.2 (rfl : a = a), compare_eq_iff_eq.2 rfl]
  · rw [compare_gt_iff_gt.2 hgt, compare_gt_iff_gt.2 (Int.mul_lt_mul_of_pos_right hgt hunit)]

/-- An integer compares with a float as with the integer next to it, and where these are equal as
that integer does. -/
theorem cmp_extractIntValue (r : Int64) (f : NonNan) :
    Value.cmp (.integer r) (.float f) =
      (compare r.toInt (extractIntValue f).toInt).then (compareIntKey (extractIntValue f) f) := by
  have hlargest := orderKey_largestReal
  have hlow := r.le_toInt
  have hhigh := r.toInt_lt
  have hunit : (0 : Int) < unit := by exact_mod_cast unit_pos
  have htwo : ((scaled (magnitude (twoPow 63)) : Nat) : Int) = 2 ^ 63 * unit := by
    rw [scaled_twoPow, Nat.cast_mul]
    rfl
  have hleast : signed (-(magnitude (twoPow 63) : Int)) = -2 ^ 63 * unit := by
    rw [signed_neg, htwo, neg_mul]
  have hmost : signed (magnitude (twoPow 63) : Int) = 2 ^ 63 * unit := by
    rw [signed_natCast, htwo]
  have hmin : Int64.minValue.toInt = -2 ^ 63 := rfl
  have hmax : Int64.maxValue.toInt = 2 ^ 63 - 1 := rfl
  show sqliteIntFloatCmp r f = _
  rw [sqliteIntFloatCmp_eq, extractIntValue]
  split
  next hbelow =>
    have hkey : compareIntKey Int64.minValue f =
        if orderKey f.bits = -(magnitude (twoPow 63) : Int) then .eq else .gt := by
      rw [compareIntKey, if_neg (by simp only [not_and]; intro h; cases h), if_pos ⟨rfl, hbelow⟩]
    rw [hkey, hmin]
    split
    next heq =>
      rw [heq, hleast, compare_mul_unit, Ordering.then_eq]
    next hne =>
      have hlt := signed_strictMono (show orderKey f.bits < -(magnitude (twoPow 63) : Int) by omega)
      have hmul : -2 ^ 63 * (unit : Int) ≤ r.toInt * unit :=
        Int.mul_le_mul_of_nonneg_right (by omega) hunit.le
      rw [hleast] at hlt
      rw [compare_gt_iff_gt.2 (lt_of_lt_of_le hlt hmul)]
      cases hr : compare r.toInt (-2 ^ 63) with
      | lt => exact absurd (compare_lt_iff_lt.1 hr) (by omega)
      | eq | gt => rfl
  split
  next _ habove =>
    have hle := signed_strictMono.monotone
      (show (magnitude (twoPow 63) : Int) ≤ orderKey f.bits by omega)
    have hmul : r.toInt * (unit : Int) < 2 ^ 63 * unit :=
      Int.mul_lt_mul_of_pos_right (by omega) hunit
    rw [hmost] at hle
    rw [compareIntKey, if_pos ⟨rfl, habove⟩, hmax, compare_lt_iff_lt.2 (lt_of_lt_of_le hmul hle)]
    cases hr : compare r.toInt (2 ^ 63 - 1) with
    | gt => exact absurd (compare_gt_iff_gt.1 hr) (by omega)
    | lt | eq => rfl
  next hbelow habove =>
    have hlower := signed_strictMono
      (show -(magnitude (twoPow 63) : Int) < orderKey f.bits by omega)
    have hupper := signed_strictMono (show orderKey f.bits < (magnitude (twoPow 63) : Int) by omega)
    rw [hleast, neg_mul, signed_orderKey] at hlower
    rw [hmost, signed_orderKey] at hupper
    have habs : (trunc f.bits).natAbs < 2 ^ 63 := by
      have hscaled : ((scaled (magnitude f.bits) : Nat) : Int) < 2 ^ 63 * unit := by
        cases hnegative : negative f.bits <;> simp only [hnegative,
          Bool.false_eq_true] at hlower hupper <;> omega
      rw [natAbs_trunc, Nat.div_lt_iff_lt_mul unit_pos]
      exact_mod_cast hscaled
    have hrange : -2 ^ 63 ≤ trunc f.bits ∧ trunc f.bits < 2 ^ 63 := by omega
    have hint : (Int64.ofInt (trunc f.bits)).toInt = trunc f.bits :=
      Int64.toInt_ofInt_of_le hrange.1 hrange.2
    rw [hint, compareIntKey, if_neg (fun h => habove h.2), if_neg (fun h => hbelow h.2), cmp_eq,
      signed_ofInt64 (by rw [hint, natAbs_trunc, scaled_ofNat_whole]), hint]
    exact compare_trunc

end

section

variable {conv : Conversions} {tables : Tables} {b : Bindings} {rowids : List Int64}

def compareRowid (conv : Conversions) (r : Int64) (v : Value) : Ordering :=
  Value.cmp (.integer r) (convert conv .numeric v)

theorem actual_meets (op : SeekOp) (c o : Ordering) :
    (op.actual c).meets o = op.meets (o.then c) := by
  cases op <;> decide +revert

theorem actual_iterationDirection (op : SeekOp) (c : Ordering) :
    (op.actual c).iterationDirection = op.iterationDirection := by
  cases op <;> cases c <;> rfl

theorem seekRowid_eq (op : SeekOp) (key : Int64) (rowids : List Int64) :
    seekRowid op key rowids = ((op.iterationDirection.iterate rowids).dropWhile fun r =>
      !op.meets (compare r.toInt key.toInt)).map some := by
  cases op <;> rfl

variable {v : Value} {op : SeekOp}

theorem compareRowid_of_not_number (hv : v ≠ .null) (hnumber : number conv v = none) (r : Int64) :
    compareRowid conv r v = .lt := by
  rw [compareRowid, convert_numeric, hnumber]
  cases v with
  | null => exact absurd rfl hv
  | integer i => cases hnumber
  | float f => cases hnumber
  | text t => rfl
  | blob bytes => rfl

theorem seekTable_integer {i : Int64} (h : number conv v = some (.inl i)) :
    seekTable conv op v rowids = seekRowid op i rowids := by
  simp [seekTable, h]

theorem seekTable_float {f : NonNan} (h : number conv v = some (.inr f)) :
    seekTable conv op v rowids = seekRowid (op.actual (compareIntKey (extractIntValue f) f))
      (extractIntValue f) rowids := by
  simp [seekTable, h]

theorem seekTable_not_number (hv : v ≠ .null) (h : number conv v = none) :
    seekTable conv op v rowids =
      match op.iterationDirection with
      | .forwards => []
      | .backwards => if rowids.isEmpty then [none] else rowids.reverse.map some := by
  cases v with
  | null => exact absurd rfl hv
  | integer i => cases h
  | float f => cases h
  | text t =>
    simp only [seekTable, h]
    cases op <;> rfl
  | blob bytes =>
    cases op <;> rfl

theorem seekTable_eq (hv : v ≠ .null)
    (hphantom : op.iterationDirection = .backwards → rowids = [] → (number conv v).isSome) :
    seekTable conv op v rowids = ((op.iterationDirection.iterate rowids).dropWhile fun r =>
      !op.meets (compareRowid conv r v)).map some := by
  cases hnumber : number conv v with
  | some n =>
    have hcompare (r : Int64) : compareRowid conv r v =
        Value.cmp (.integer r) (ofNumber n) := by
      rw [compareRowid, convert_numeric, hnumber]
      rfl
    simp only [hcompare]
    cases n with
    | inl i =>
      rw [seekTable_integer hnumber, seekRowid_eq]
      rfl
    | inr f =>
      rw [seekTable_float hnumber, seekRowid_eq, actual_iterationDirection]
      simp only [actual_meets, ← cmp_extractIntValue]
      rfl
  | none =>
    simp only [seekTable_not_number hv hnumber, compareRowid_of_not_number hv hnumber]
    rw [hnumber] at hphantom
    have hdrop (l : List Int64) : l.dropWhile (fun _ => true) = [] := by
      induction l with
      | nil => rfl
      | cons r l ih => exact ih
    have hkeep (l : List Int64) : l.dropWhile (fun _ => false) = l := by cases l <;> rfl
    cases op with
    | ge eqOnly | gt =>
      show [] = (rowids.dropWhile fun _ => true).map some
      rw [hdrop]
      rfl
    | le eqOnly | lt =>
      have hne : rowids.isEmpty = false := by
        cases hrowids : rowids with
        | nil => cases hphantom rfl hrowids
        | cons r rowids => rfl
      show (if rowids.isEmpty then [none] else rowids.reverse.map some) =
        (rowids.reverse.dropWhile fun _ => false).map some
      rw [hne, hkeep]
      rfl

theorem lasts_meets_rowid (hsorted : rowids.Pairwise fun r r' => r.toInt < r'.toInt)
    {iterDir : IterationDirection} (hop : op.iterationDirection = iterDir) (v : Value) :
    Lasts (fun r => op.meets (compareRowid conv r v)) (iterDir.iterate rowids) := by
  subst hop
  refine lasts_meets_of_ascends op (hsorted.imp fun {r r'} hlt => ?_)
  have hcmp : Value.cmp (.integer r) (.integer r') = .lt := compare_lt_iff_lt.2 hlt
  refine ⟨fun hgt => ?_, fun hlt => Std.TransCmp.lt_trans hcmp hlt⟩
  exact Std.OrientedCmp.gt_of_lt (Std.TransCmp.lt_trans (Std.OrientedCmp.lt_of_gt hgt) hcmp)

theorem isTrue_rowid [UncasedStr] (r : Int64) (key : Option Affinity) (op : Operator) (k : Value) :
    isTrue conv (some .integer) key .binary op (.integer r) k =
      (k != .null && op.holds (compareRowid conv r k)) := by
  have hconvert : (comparisonAffinity (some .integer) key).convert conv k =
      convert conv .numeric k := by
    cases key with
    | none => exact convert_integer k
    | some a => rfl
  have hrowid : (comparisonAffinity (some .integer) key).convert conv (.integer r) =
      .integer r := by
    cases key <;> rfl
  rw [isTrue]
  simp only [hconvert, hrowid]
  rfl

section

variable {seekDef : SeekDef} {iterDir : IterationDirection} {range : SeekRangeConstraint}

theorem holds_rowid_iff [UncasedStr] {r : Int64}
    (hkeys : ∀ bound, bound ∈ range.lowerBound ∨ bound ∈ range.upperBound →
      eval b bound.expr ≠ .null) :
    range.holds false false (fun ex => compareRowid conv r (eval b ex)) = true ↔
      ∀ bound, bound ∈ range.lowerBound ∨ bound ∈ range.upperBound →
        isTrue conv (some .integer) (exprAffinity tables bound.expr) .binary bound.operator
          (.integer r) (eval b bound.expr) = true := by
  simp only [or_imp, forall_and, SeekRangeConstraint.holds, Bool.and_eq_true] at hkeys ⊢
  refine and_congr ?_ ?_
  · cases hbound : range.lowerBound with
    | none => simp
    | some bound => simp [isTrue_rowid, hkeys.1 bound hbound]
  · cases hbound : range.upperBound with
    | none => simp
    | some bound => simp [isTrue_rowid, hkeys.2 bound hbound]

theorem loadExpr_of_ne_null {ex : Expr} (h : eval b ex ≠ .null) :
    loadExpr tables b ex = some (eval b ex) := by
  rw [loadExpr, if_neg (by simp [h])]

theorem visitTable_null {ex : Expr} (hnull : eval b ex = .null)
    (h : seekDef.start.lastComponent = .expr ex ∨ seekDef.stop.lastComponent = .expr ex) :
    visitTable conv tables b seekDef rowids = [] := by
  have hload : loadExpr tables b ex = none ∨ loadExpr tables b ex = some .null := by
    rw [loadExpr, hnull]
    split
    · exact .inl rfl
    · exact .inr rfl
  rw [visitTable]
  rcases h with hstart | hstop
  · have hrest : startTable conv tables b seekDef.iterDir seekDef.start rowids = none ∨
        startTable conv tables b seekDef.iterDir seekDef.start rowids = some [] := by
      simp only [startTable, hstart]
      rcases hload with hload | hload <;> rw [hload]
      · exact .inl rfl
      · exact .inr rfl
    rcases hrest with hrest | hrest <;> rw [hrest]
    cases stopTable conv tables b seekDef.stop <;> rfl
  · have hstops : stopTable conv tables b seekDef.stop = none ∨
        stopTable conv tables b seekDef.stop = some (stopsTable conv seekDef.stop.op .null) := by
      simp only [stopTable, hstop]
      rcases hload with hload | hload <;> rw [hload]
      · exact .inl rfl
      · exact .inr rfl
    cases startTable conv tables b seekDef.iterDir seekDef.start rowids with
    | none => rfl
    | some rest =>
      rcases hstops with hstops | hstops <;> rw [hstops]
      cases rest with
      | nil => rfl
      | cons r rest => cases r <;> rfl

section

variable (hsorted : rowids.Pairwise fun r r' => r.toInt < r'.toInt)

include hsorted

theorem startTable_eq {key : SeekKey} (hop : key.op.iterationDirection = iterDir)
    (hne : key.lastComponent ≠ .null)
    (hkey : ∀ ex, key.lastComponent = .expr ex → eval b ex ≠ .null)
    (hphantom : rowids ≠ [] ∨ ∀ ex, key.lastComponent = .expr ex → iterDir = .backwards →
      (number conv (eval b ex)).isSome) :
    ∃ p, startTable conv tables b iterDir key rowids =
        some (((iterDir.iterate rowids).dropWhile fun r => !p r).map some) ∧
      Lasts p (iterDir.iterate rowids) ∧
      ∀ r, p r = match key.lastComponent with
        | .expr ex => key.op.meets (compareRowid conv r (eval b ex))
        | _ => true := by
  rw [startTable]
  cases hlast : key.lastComponent with
  | null => exact absurd hlast hne
  | none =>
    refine ⟨fun _ => true, ?_, List.pairwise_of_forall fun _ _ h => h, fun r => rfl⟩
    cases iterDir.iterate rowids <;> rfl
  | expr ex =>
    have hex := hkey ex hlast
    refine ⟨_, ?_, lasts_meets_rowid hsorted hop (eval b ex), fun r => rfl⟩
    dsimp only
    rw [loadExpr_of_ne_null hex, Option.map_some, seekTable_eq hex, hop]
    intro hdir hnil
    rcases hphantom with hrows | hnumber
    · exact absurd hnil hrows
    · exact hnumber ex hlast (hop ▸ hdir)

theorem stopTable_eq {key : SeekKey} (hop : key.op.iterationDirection = iterDir)
    (hne : key.lastComponent ≠ .null)
    (hkey : ∀ ex, key.lastComponent = .expr ex → eval b ex ≠ .null) :
    ∃ stops q, stopTable conv tables b key = some stops ∧ (∀ r, stops (some r) = q r) ∧
      Lasts q (iterDir.iterate rowids) ∧
      ∀ r, q r = match key.lastComponent with
        | .expr ex => key.op.meets (compareRowid conv r (eval b ex))
        | _ => false := by
  rw [stopTable]
  cases hlast : key.lastComponent with
  | null => exact absurd hlast hne
  | none =>
    exact ⟨_, fun _ => false, rfl, fun r => rfl, List.pairwise_of_forall fun _ _ h => h,
      fun r => rfl⟩
  | expr ex =>
    have hex := hkey ex hlast
    refine ⟨stopsTable conv key.op (eval b ex), _, ?_, fun r => ?_,
      lasts_meets_rowid hsorted hop (eval b ex), fun r => rfl⟩
    · dsimp only
      rw [loadExpr_of_ne_null hex]
      rfl
    · rw [stopsTable, beq_eq_false_iff_ne.2 hex]
      rfl

theorem scan_rowids (h : IsRangeSeek iterDir [] range seekDef) (horder : range.sortOrder = .asc)
    (hkeys : ∀ bound, bound ∈ range.lowerBound ∨ bound ∈ range.upperBound →
      eval b bound.expr ≠ .null)
    (hphantom : rowids ≠ [] ∨ ∀ ex, seekDef.start.lastComponent = .expr ex →
      iterDir = .backwards → (number conv (eval b ex)).isSome) :
    visitTable conv tables b seekDef rowids = ((iterDir.iterate rowids).filter fun r =>
      range.holds false false fun ex => compareRowid conv r (eval b ex)).map some := by
  obtain ⟨hstartNull, hstopNull⟩ := h.bound_ne_null rfl
  have hexprs {ex : Expr} (hex : seekDef.start.lastComponent = .expr ex ∨
      seekDef.stop.lastComponent = .expr ex) : eval b ex ≠ .null := by
    rcases (h.exprs ex).1 hex with ⟨bound, hbound, rfl⟩ | ⟨bound, hbound, rfl⟩
    · exact hkeys bound (.inl hbound)
    · exact hkeys bound (.inr hbound)
  obtain ⟨p, hrest, hlastsP, hp⟩ := @startTable_eq conv tables b rowids iterDir hsorted
    seekDef.start h.start_iterDir hstartNull (fun ex hex => hexprs (.inl hex)) hphantom
  obtain ⟨stops, q, hstops, hq', hlastsQ, hq⟩ := @stopTable_eq conv tables b rowids iterDir hsorted
    seekDef.stop h.stop_iterDir hstopNull (fun ex hex => hexprs (.inr hex))
  have hbetween := SortedScan.between_eq_filter hlastsP hlastsQ
  rw [SortedScan.between] at hbetween
  rw [visitTable, h.iterDir_eq, hrest, hstops]
  dsimp only
  rw [List.takeWhile_map]
  congr 1
  simp only [Function.comp_def, hq']
  rw [hbetween]
  refine List.filter_congr fun r _ => ?_
  have hpoint := @IsRangeSeek.between _ _ _ _ h .eq false false
    (fun ex => compareRowid conv r (eval b ex)) (fun _ => rfl) (by simp) (by simp) (by simp)
  have hstarts : p r = seekDef.starts range.sortOrder .eq .gt
      (fun ex => compareRowid conv r (eval b ex)) := by
    rw [hp r, horder, SeekDef.starts.eq_def, h.prefixKey_eq]
    cases hlast : seekDef.start.lastComponent with
    | none => cases seekDef.iterDir <;> rfl
    | null => exact absurd hlast hstartNull
    | expr ex => rfl
  have hstopsAt : q r = seekDef.stops range.sortOrder .eq .gt
      (fun ex => compareRowid conv r (eval b ex)) := by
    rw [hq r, horder, SeekDef.stops.eq_def, h.prefixKey_eq]
    cases hlast : seekDef.stop.lastComponent with
    | none => cases seekDef.iterDir <;> rfl
    | null => exact absurd hlast hstopNull
    | expr ex => rfl
  rw [hstarts, hstopsAt]
  exact hpoint

end

theorem startTable_nil {key : SeekKey} {rest : List (Option Int64)}
    (h : startTable conv tables b iterDir key [] = some rest) : ∀ r ∈ rest, r = none := by
  have hiterate (dir : IterationDirection) : dir.iterate ([] : List Int64) = [] := by
    cases dir <;> rfl
  have hseek (v : Value) : ∀ r ∈ seekTable conv key.op v [], r = none := by
    by_cases hv : v = .null
    · rw [hv]
      nofun
    cases hnumber : number conv v with
    | some n =>
      rw [seekTable_eq hv fun _ _ => by rw [hnumber]; rfl, hiterate]
      nofun
    | none =>
      rw [seekTable_not_number hv hnumber]
      cases key.op.iterationDirection <;> simp
  rw [startTable] at h
  split at h
  · obtain ⟨v, -, rfl⟩ := Option.map_eq_some_iff.1 h
    exact hseek v
  · obtain rfl := Option.some.inj h
    rw [hiterate]
    nofun

theorem visitTable_range [UncasedStr]
    (hsorted : rowids.Pairwise fun r r' => r.toInt < r'.toInt)
    (h : IsRangeSeek iterDir [] range seekDef) (horder : range.sortOrder = .asc)
    (hphantom : iterDir = .backwards → rowids = [] → range.lowerBound = none →
      ∀ bound ∈ range.upperBound, eval b bound.expr = .null ∨
        (number conv (eval b bound.expr)).isSome)
    {P : Int64 → Bool}
    (hP : ∀ r, P r = true ↔ ∀ bound, bound ∈ range.lowerBound ∨ bound ∈ range.upperBound →
      isTrue conv (some .integer) (exprAffinity tables bound.expr) .binary bound.operator
        (.integer r) (eval b bound.expr) = true) :
    visitTable conv tables b seekDef rowids = ((iterDir.iterate rowids).filter P).map some := by
  by_cases hnulls : ∃ bound, (bound ∈ range.lowerBound ∨ bound ∈ range.upperBound) ∧
      eval b bound.expr = .null
  · obtain ⟨bound, hbound, hnull⟩ := hnulls
    have hnone : (iterDir.iterate rowids).filter P = [] := by
      refine List.filter_eq_nil_iff.2 fun r _ hPr => ?_
      have hterm := (hP r).1 hPr bound hbound
      simp [isTrue, hnull] at hterm
    rw [hnone, visitTable_null hnull ((h.exprs bound.expr).2 _)]
    · rfl
    · rcases hbound with hbound | hbound
      · exact .inl ⟨bound, hbound, rfl⟩
      · exact .inr ⟨bound, hbound, rfl⟩
  · have hkeys (bound : Bound) (hbound : bound ∈ range.lowerBound ∨ bound ∈ range.upperBound) :
        eval b bound.expr ≠ .null := fun hnull => hnulls ⟨bound, hbound, hnull⟩
    have hfilter : (iterDir.iterate rowids).filter P = (iterDir.iterate rowids).filter fun r =>
        range.holds false false fun ex => compareRowid conv r (eval b ex) := by
      refine List.filter_congr fun r _ => Bool.eq_iff_iff.2 ?_
      rw [hP, holds_rowid_iff hkeys]
    rw [hfilter]
    by_cases hrows : rowids = []
    · subst hrows
      cases hstop : seekDef.stop.lastComponent with
      | none | null =>
        refine scan_rowids hsorted h horder hkeys (.inr fun ex hex hdir => ?_)
        have hlower : range.lowerBound = none := by
          cases hbound : range.lowerBound with
          | none => rfl
          | some bound =>
            have hexpr := h.stop_lower hdir horder bound hbound
            rw [hstop] at hexpr
            cases hexpr
        rcases (h.exprs ex).1 (.inl hex) with ⟨bound, hbound, rfl⟩ | ⟨bound, hbound, rfl⟩
        · rw [hlower] at hbound
          cases hbound
        · exact (hphantom hdir rfl hlower bound hbound).resolve_left (hkeys bound (.inr hbound))
      | expr ex =>
        have hnil : (iterDir.iterate ([] : List Int64)) = [] := by cases iterDir <;> rfl
        rw [hnil, visitTable, stopTable, hstop]
        cases hrest : startTable conv tables b seekDef.iterDir seekDef.start [] with
        | none => rfl
        | some rest =>
          dsimp only
          cases loadExpr tables b ex with
          | none => rfl
          | some v =>
            cases rest with
            | nil => rfl
            | cons r rest =>
              rw [startTable_nil hrest r List.mem_cons_self]
              rfl
    · exact scan_rowids hsorted h horder hkeys (.inl hrows)

end

end

end PgMicro.Optimizer.Seek
