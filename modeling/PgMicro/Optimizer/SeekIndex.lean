import PgMicro.Optimizer.SeekPrefix

/-!
# A seek for a range of keys

The entries that a seek visits are those between its bounds, and these are the entries that the
WHERE terms of the seek hold on.
-/

namespace PgMicro.Optimizer.Seek

open Types List Option Constraint
open BTree (IterationDirection SeekOp)
open SortedScan

variable {keys : List KeyInfo} {entries : List (List Value)} {conv : Conversions}
  {tables : Tables} {b : Bindings} {columns : List IndexColumn} {column : IndexColumn}
  {first last e vs : List Value} {v : Value} {cs : List Constraint} {seekDef : SeekDef}
  {key : List SeekRangeConstraint} {range : SeekRangeConstraint} [UncasedStr]

def valueAt (e : List Value) (n : Nat) : Value := (e[n]?).getD .null

def compareAt (conv : Conversions) (tables : Tables) (b : Bindings) (column : IndexColumn)
    (v : Value) (ex : Expr) : Ordering :=
  compareImmutableSingle v (convertKey conv tables column ex (eval b ex)) column.keyInfo.collation

variable {regs : List Value} {component : SeekKeyComponent}

theorem lexCompare_component (hindex : IndexOf conv columns keys entries)
    (hcolumn : columns[vs.length]? = some column) (he : e ∈ entries)
    (hregs : loadLast conv tables b column component = some regs) :
    lexCompare .eq e (vs ++ regs) keys = component.ord column.keyInfo.sortOrder
      (lexCompare .eq e vs keys) (if valueAt e vs.length == .null then .eq else .gt)
      (compareAt conv tables b column (valueAt e vs.length)) := by
  obtain ⟨v, hv⟩ := hindex.getElem he hcolumn
  have hkey := hindex.columns_keys _ _ hcolumn
  have hvalue : valueAt e vs.length = v := by rw [valueAt, hv]; rfl
  rw [hvalue]
  cases component with
  | none =>
    obtain rfl : [] = regs := some.inj hregs
    rw [append_nil]
    rfl
  | null =>
    obtain rfl : [.null] = regs := some.inj hregs
    rw [lexCompare_snoc hv hkey, KeyInfo.compare, compare_null_right]
    rfl
  | expr ex =>
    rw [loadLast, bind_eq_bind, bind_eq_some_iff] at hregs
    obtain ⟨w, hw, hcons⟩ := hregs
    obtain ⟨rfl, -⟩ := loadExpr_eq_some hw
    obtain rfl := some.inj hcons
    rw [lexCompare_snoc hv hkey, KeyInfo.compare]
    rfl

theorem lexCompare_null (hindex : IndexOf conv columns keys entries)
    (hcolumn : columns[0]? = some column) (he : e ∈ entries) :
    lexCompare .eq e [.null] keys =
      column.keyInfo.sortOrder.apply (if valueAt e 0 == .null then .eq else .gt) := by
  obtain ⟨v, hv⟩ := hindex.getElem he hcolumn
  have hv' : e[([] : List Value).length]? = some v := hv
  have hsnoc := lexCompare_snoc hv' (hindex.columns_keys _ _ hcolumn) .null
  rw [nil_append, lexCompare_nil_right, KeyInfo.compare, compare_null_right] at hsnoc
  rw [hsnoc, valueAt, hv]
  rfl

theorem IndexOf.head_sortOrder (hindex : IndexOf conv columns keys entries)
    (hcolumn : columns[0]? = some column) :
    (keys.head?).map KeyInfo.sortOrder = some column.keyInfo.sortOrder := by
  rw [head?_eq_getElem?, hindex.columns_keys 0 column hcolumn]
  rfl

section

variable (hindex : IndexOf conv columns keys entries)
  (hlength : seekDef.prefixKey.length = vs.length) (hcolumn : columns[vs.length]? = some column)

include hindex hlength hcolumn

theorem start_scan (hstart : seekDef.start.op.iterationDirection = seekDef.iterDir)
    (hall : seekDef.start.op.eqOnly = false)
    (hfirst : loadLast conv tables b column seekDef.start.lastComponent = some first) :
    ∃ p, (if (vs ++ first).isEmpty then startAtEnd keys seekDef.iterDir entries
        else seekIndex keys seekDef.start.op (vs ++ first) entries) =
          (seekDef.iterDir.iterate entries).dropWhile (fun e => !p e) ∧
      Lasts p (seekDef.iterDir.iterate entries) ∧
      ∀ e ∈ entries, p e = seekDef.starts column.keyInfo.sortOrder (lexCompare .eq e vs keys)
        (if valueAt e vs.length == .null then .eq else .gt)
        (compareAt conv tables b column (valueAt e vs.length)) := by
  by_cases hnone : seekDef.prefixKey = [] ∧ seekDef.start.lastComponent = .none
  · rw [if_pos ((key_isEmpty hlength hfirst).2 hnone)]
    obtain ⟨hkey, hcomponent⟩ := hnone
    obtain rfl : vs = [] := length_eq_zero_iff.1 (by rw [← hlength, hkey]; rfl)
    simp only [startAtEnd, hindex.head_sortOrder hcolumn, SeekDef.starts, hkey, hcomponent]
    cases seekDef.iterDir <;> cases horder : column.keyInfo.sortOrder
    case forwards.desc =>
      exact ⟨fun _ => true, by cases entries <;> rfl, lasts_const true _, fun e he => rfl⟩
    case backwards.asc =>
      exact ⟨fun _ => true, by cases h : entries.reverse <;> simp [IterationDirection.iterate, h],
        lasts_const true _, fun e he => rfl⟩
    all_goals
      refine ⟨_, seekIndex_eq rfl rfl [.null] entries, lasts_meets hindex.toIsIndex rfl [.null],
        fun e he => ?_⟩
      rw [lexCompare_null hindex hcolumn he, horder]
      rfl
  · rw [if_neg (mt (key_isEmpty hlength hfirst).1 hnone), seekIndex_eq hstart hall]
    refine ⟨_, rfl, lasts_meets hindex.toIsIndex hstart _, fun e he => ?_⟩
    rw [SeekDef.starts_eq (not_and_or.1 hnone), lexCompare_component hindex hcolumn he hfirst]

theorem stop_scan (hstop : seekDef.stop.op.iterationDirection = seekDef.iterDir)
    (hlast : loadLast conv tables b column seekDef.stop.lastComponent = some last) :
    ∃ p, (fun e => if (vs ++ last).isEmpty then stopAtEnd keys seekDef.iterDir e
        else seekDef.stop.op.meets (lexCompare .eq e (vs ++ last) keys)) = p ∧
      Lasts p (seekDef.iterDir.iterate entries) ∧
      ∀ e ∈ entries, p e = seekDef.stops column.keyInfo.sortOrder (lexCompare .eq e vs keys)
        (if valueAt e vs.length == .null then .eq else .gt)
        (compareAt conv tables b column (valueAt e vs.length)) := by
  by_cases hnone : seekDef.prefixKey = [] ∧ seekDef.stop.lastComponent = .none
  · simp only [if_pos ((key_isEmpty hlength hlast).2 hnone)]
    obtain ⟨hkey, hcomponent⟩ := hnone
    obtain rfl : vs = [] := length_eq_zero_iff.1 (by rw [← hlength, hkey]; rfl)
    simp only [stopAtEnd, hindex.head_sortOrder hcolumn, SeekDef.stops, hkey, hcomponent]
    cases seekDef.iterDir <;> cases horder : column.keyInfo.sortOrder
    case forwards.asc | backwards.desc => exact ⟨_, rfl, lasts_const false _, fun e he => rfl⟩
    all_goals
      refine ⟨_, rfl, lasts_meets hindex.toIsIndex rfl [.null], fun e he => ?_⟩
      rw [lexCompare_null hindex hcolumn he, horder]
      rfl
  · simp only [if_neg (mt (key_isEmpty hlength hlast).1 hnone)]
    refine ⟨_, rfl, lasts_meets hindex.toIsIndex hstop _, fun e he => ?_⟩
    rw [SeekDef.stops_eq (not_and_or.1 hnone), lexCompare_component hindex hcolumn he hlast]

end

theorem holds_iff (hrows : b.RowsOf tables) (hv : Stored conv column.affinity v)
    (hfits : ∀ bound, bound ∈ range.lowerBound ∨ bound ∈ range.upperBound →
      KeyFits conv column.affinity (exprAffinity tables bound.expr) (eval b bound.expr))
    (hlower : ∀ bound ∈ range.lowerBound, eval b bound.expr ≠ .null) :
    range.holds (v == .null) (range.upperBound.any fun bound => eval b bound.expr == .null)
        (compareAt conv tables b column v) = true ↔
      ∀ bound, bound ∈ range.lowerBound ∨ bound ∈ range.upperBound →
        isTrue conv column.affinity (exprAffinity tables bound.expr) column.keyInfo.collation
          bound.operator v (eval b bound.expr) = true := by
  simp only [or_imp, forall_and, SeekRangeConstraint.holds, Bool.and_eq_true]
  refine and_congr ?_ ?_
  · cases hbound : range.lowerBound with
    | none => simp
    | some bound =>
      have hne := hlower bound hbound
      have hterm := isTrue_eq hrows hv (hfits bound (.inl hbound)) bound.operator
      simp [hterm, hne, compareAt]
  · cases hbound : range.upperBound with
    | none => simp
    | some bound =>
      have hterm := isTrue_eq hrows hv (hfits bound (.inr hbound)) bound.operator
      simp [hterm, compareAt]

section

variable (hindex : IndexOf conv columns keys entries) (hrows : b.RowsOf tables)
  (hcs : PrefixOf conv tables b columns cs) (h : IsRangeSeek iterDir key range seekDef)
  (hlength : key.length = cs.length) (hcolumn : columns[cs.length]? = some column)
  (horder : range.sortOrder = column.keyInfo.sortOrder)
  (hfits : ∀ bound, bound ∈ range.lowerBound ∨ bound ∈ range.upperBound →
    KeyFits conv column.affinity (exprAffinity tables bound.expr) (eval b bound.expr))
  {P : List Value → Bool}
  (hP : ∀ e ∈ entries, P e = true ↔
    (∀ (k : Nat) c, cs[k]? = some c → termHolds conv tables b columns e (k, c) = true) ∧
    ∀ bound, bound ∈ range.lowerBound ∨ bound ∈ range.upperBound →
      isTrue conv column.affinity (exprAffinity tables bound.expr) column.keyInfo.collation
        bound.operator (valueAt e cs.length) (eval b bound.expr) = true)

include hindex hrows hcs h hlength hcolumn horder hfits hP

theorem scan_range (hequal : ∀ c ∈ cs, eval b c.expr ≠ .null)
    (hlower : ∀ bound ∈ range.lowerBound, eval b bound.expr ≠ .null)
    (hvs : vs = prefixKeys conv tables b columns (cs.map expr))
    (hfirst : loadLast conv tables b column seekDef.start.lastComponent = some first)
    (hlast : loadLast conv tables b column seekDef.stop.lastComponent = some last) :
    (if (vs ++ first).isEmpty then startAtEnd keys seekDef.iterDir entries
      else seekIndex keys seekDef.start.op (vs ++ first) entries).takeWhile (fun e =>
        !(if (vs ++ last).isEmpty then stopAtEnd keys seekDef.iterDir e
          else seekDef.stop.op.meets (lexCompare .eq e (vs ++ last) keys))) =
      (iterDir.iterate entries).filter P := by
  have hvsLength : vs.length = cs.length := by
    rw [hvs]
    simpa [prefixKeys] using hcs.length_le
  have hprefix : seekDef.prefixKey.length = vs.length := by
    rw [h.prefixKey_eq, hlength, hvsLength]
  rw [← hvsLength] at hcolumn
  obtain ⟨p, hscan, hlastsP, hp⟩ := start_scan hindex hprefix hcolumn
    (h.start_iterDir.trans h.iterDir_eq.symm) h.start_all hfirst
  obtain ⟨_, rfl, hlastsQ, hq⟩ := stop_scan hindex hprefix hcolumn
    (h.stop_iterDir.trans h.iterDir_eq.symm) hlast
  have hbetween := between_eq_filter hlastsP hlastsQ
  rw [between, ← hscan] at hbetween
  refine hbetween.trans ?_
  rw [h.iterDir_eq] at hq ⊢
  dsimp only at hq
  refine filter_congr fun e he => ?_
  replace he := mem_iterate.1 he
  obtain ⟨v, hv⟩ := hindex.getElem he hcolumn
  have hvalue : valueAt e vs.length = v := by rw [valueAt, hv]; rfl
  have hx : key = [] → lexCompare .eq e vs keys = .eq := by
    intro hnil
    have hvsNil : vs = [] := length_eq_zero_iff.1 (by rw [hvsLength, ← hlength, hnil]; rfl)
    rw [hvsNil, lexCompare_nil_right]
  have hbelow {bound : Bound} (hnull : (v == .null) = true) (hkey : eval b bound.expr ≠ .null) :
      compareAt conv tables b column v bound.expr = .lt := by
    rw [beq_iff_eq.1 hnull]
    exact compare_null_left (mt convertKey_eq_null.1 hkey) _
  have hcu : (v == .null) = true →
      (range.upperBound.any fun bound => eval b bound.expr == .null) = false →
      ∀ bound ∈ range.upperBound, compareAt conv tables b column v bound.expr = .lt := by
    intro hnull hupper bound hbound
    rw [mem_def.1 hbound] at hupper
    exact hbelow hnull (by simpa using hupper)
  have hupperNull : (range.upperBound.any fun bound => eval b bound.expr == .null) = true →
      ∀ bound ∈ range.upperBound, compareAt conv tables b column v bound.expr =
        if v == .null then .eq else .gt := by
    intro hupper bound hbound
    rw [mem_def.1 hbound] at hupper
    have hkey : eval b bound.expr = .null := by simpa using hupper
    rw [compareAt, hkey, convertKey_eq_null.2 rfl, compare_null_right]
  rw [hp e he, hq e he, ← horder, hvalue, h.between hx
    (fun hnull bound hbound => hbelow hnull (hlower bound hbound)) hcu hupperNull, Bool.eq_iff_iff,
    Bool.and_eq_true, beq_iff_eq, hP e he, hvs, prefix_eq_iff hindex hrows hcs hequal he,
    ← hvsLength, hvalue, holds_iff hrows (hindex.stored e he _ _ _ hcolumn hv) hfits hlower]

theorem visitIndex_range (hkey : key.filterMap (fun c => c.eq.map Bound.expr) = cs.map expr)
    (hequal : ∀ c ∈ cs, isNonnull tables c.expr = true → eval b c.expr ≠ .null)
    (hlower : ∀ bound ∈ range.lowerBound, isNonnull tables bound.expr = true →
      eval b bound.expr ≠ .null) :
    visitIndex conv tables b columns keys seekDef entries =
      (iterDir.iterate entries).filter P := by
  have hes : seekDef.prefixExprs = cs.map expr := by
    rw [← hkey, ← h.prefixKey_eq]
    rfl
  have hnext : nextColumn columns seekDef.prefixExprs.length = column := by
    rw [nextColumn, hes, length_map, hcolumn]
    rfl
  have hbound {key : SeekKey} (hmem : key ∈ [seekDef.start, seekDef.stop])
      (hload : loadLast conv tables b column key.lastComponent = none) :
      (iterDir.iterate entries).filter P = [] := by
    cases hcomponent : key.lastComponent with
    | none | null =>
      rw [hcomponent] at hload
      cases hload
    | expr ex =>
      have hnull : eval b ex = .null := by
        rw [hcomponent, loadLast] at hload
        cases hex : loadExpr tables b ex with
        | none => exact loadExpr_eq_none hex
        | some v => simp [hex] at hload
      obtain ⟨bound, hmem, rfl⟩ : ∃ bound, (bound ∈ range.lowerBound ∨ bound ∈ range.upperBound) ∧
          bound.expr = ex := by
        have hex := (h.exprs ex).1 (by
          simp only [mem_cons, not_mem_nil, or_false] at hmem
          rcases hmem with rfl | rfl
          · exact .inl hcomponent
          · exact .inr hcomponent)
        rcases hex with ⟨bound, hbound, rfl⟩ | ⟨bound, hbound, rfl⟩
        · exact ⟨bound, .inl hbound, rfl⟩
        · exact ⟨bound, .inr hbound, rfl⟩
      refine filter_eq_nil_iff.2 fun e he hPe => ?_
      have hterm := ((hP e (mem_iterate.1 he)).1 hPe).2 bound hmem
      simp [isTrue, hnull] at hterm
  cases hload : loadPrefix conv tables b columns seekDef.prefixExprs with
  | none =>
    rw [visitIndex_eq_nil (.inl hload)]
    rw [hes] at hload
    obtain ⟨ex, hex, hnull⟩ := loadPrefix_eq_none (by simpa using hcs.length_le) hload
    obtain ⟨c, hc, rfl⟩ := mem_map.1 hex
    obtain ⟨k, hk⟩ := getElem?_of_mem hc
    refine (filter_eq_nil_iff.2 fun e he hPe => ?_).symm
    have hterm := ((hP e (mem_iterate.1 he)).1 hPe).1 k c hk
    rw [termHolds_of_null hnull] at hterm
    cases hterm
  | some vs =>
    cases hfirst : loadLast conv tables b column seekDef.start.lastComponent with
    | none =>
      rw [visitIndex_eq_nil (.inr ⟨seekDef.start, by simp, hnext ▸ hfirst⟩),
        hbound (by simp) hfirst]
    | some first =>
      cases hlast : loadLast conv tables b column seekDef.stop.lastComponent with
      | none =>
        rw [visitIndex_eq_nil (.inr ⟨seekDef.stop, by simp, hnext ▸ hlast⟩),
          hbound (by simp) hlast]
      | some last =>
        obtain ⟨hvs, hnulls⟩ := loadPrefix_eq_some hload
        rw [visitIndex_eq hload (hnext ▸ hfirst) (hnext ▸ hlast)]
        refine scan_range hindex hrows hcs h hlength hcolumn horder hfits hP ?_ ?_ (hes ▸ hvs)
          hfirst hlast
        · intro c hc hnull
          refine hequal c hc (hnulls c.expr ?_ hnull) hnull
          rw [hes]
          exact mem_map_of_mem hc
        · intro bound hmem hnull
          refine hlower bound hmem ?_ hnull
          rcases (h.exprs bound.expr).2 (.inl ⟨bound, hmem, rfl⟩) with hstart | hstop
          · exact isNonnull_of_loadLast hnull (hstart ▸ hfirst)
          · exact isNonnull_of_loadLast hnull (hstop ▸ hlast)

end

end PgMicro.Optimizer.Seek
