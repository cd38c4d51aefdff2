import PgMicro.Optimizer.SeekBounds

/-!
# The keys of a seek

What the registers of a seek hold, and that a comparison with them is the comparison of the WHERE
term they stem from.
-/

namespace PgMicro.Optimizer.Seek

open Types List Option Constraint
open BTree (IterationDirection SeekOp)
open SortedScan (Lasts)

variable {conv : Conversions} {tables : Tables} {b : Bindings} {columns : List IndexColumn}
  {column : IndexColumn} {v : Value}

section

theorem convertKey_idem (column : IndexColumn) (e : Expr) (v : Value) :
    convertKey conv tables column e (convertKey conv tables column e v) =
      convertKey conv tables column e v := by
  rw [convertKey, convertKey, seekKey, seekKey]
  split
  · exact Affinity.applyChar_idem _ v
  · rfl

variable {e : Expr}

theorem convertKey_eq_null : convertKey conv tables column e v = .null ↔ v = .null := by
  rw [convertKey, seekKey]
  split
  · exact Affinity.applyChar_eq_null
  · exact Iff.rfl

theorem loadExpr_eq_some (h : loadExpr tables b e = some v) :
    eval b e = v ∧ (eval b e = .null → isNonnull tables e = true) := by
  rw [loadExpr] at h
  split at h
  · cases h
  next hcheck =>
    refine ⟨some.inj h, fun hnull => ?_⟩
    simpa [hnull] using hcheck

theorem loadExpr_eq_none (h : loadExpr tables b e = none) : eval b e = .null := by
  rw [loadExpr] at h
  split at h
  next hcheck =>
    simp only [Bool.and_eq_true, beq_iff_eq] at hcheck
    exact hcheck.2
  · cases h

def prefixKeys (conv : Conversions) (tables : Tables) (b : Bindings) (columns : List IndexColumn)
    (es : List Expr) : List Value :=
  zipWith (fun column e => convertKey conv tables column e (eval b e)) columns es

variable {es : List Expr}

theorem loadPrefix_eq_some {vs : List Value} (h : loadPrefix conv tables b columns es = some vs) :
    vs = prefixKeys conv tables b columns es ∧
      ∀ e ∈ es, eval b e = .null → isNonnull tables e = true := by
  induction columns generalizing es vs with
  | nil =>
    cases es with
    | nil => exact ⟨(some.inj h).symm, nofun⟩
    | cons e es => cases h
  | cons column columns ih =>
    cases es with
    | nil => exact ⟨(some.inj h).symm, nofun⟩
    | cons e es =>
      simp only [loadPrefix, bind_eq_bind, bind_eq_some_iff] at h
      obtain ⟨v, hv, vs', hvs, hcons⟩ := h
      obtain ⟨rfl, hnull⟩ := loadExpr_eq_some hv
      obtain ⟨rfl, hnulls⟩ := ih hvs
      exact ⟨(some.inj hcons).symm, forall_mem_cons.2 ⟨hnull, hnulls⟩⟩

theorem loadPrefix_eq_none (hlength : es.length ≤ columns.length)
    (h : loadPrefix conv tables b columns es = none) : ∃ e ∈ es, eval b e = .null := by
  induction columns generalizing es with
  | nil =>
    cases es with
    | nil => cases h
    | cons e es => simp at hlength
  | cons column columns ih =>
    cases es with
    | nil => cases h
    | cons e es =>
      cases hv : loadExpr tables b e with
      | none => exact ⟨e, mem_cons_self, loadExpr_eq_none hv⟩
      | some v =>
        cases hvs : loadPrefix conv tables b columns es with
        | none =>
          obtain ⟨e', he', hnull⟩ := ih (Nat.le_of_succ_le_succ hlength) hvs
          exact ⟨e', mem_cons_of_mem e he', hnull⟩
        | some vs => simp [loadPrefix, hv, hvs] at h

theorem map_convertKey_prefixKeys (conv : Conversions) (tables : Tables) (b : Bindings)
    (columns : List IndexColumn) (es : List Expr) :
    (columns.zip (es.zip (prefixKeys conv tables b columns es))).map
        (fun (c, e, v) => convertKey conv tables c e v) =
      prefixKeys conv tables b columns es := by
  induction columns generalizing es with
  | nil => rfl
  | cons column columns ih =>
    cases es with
    | nil => rfl
    | cons e es =>
      exact congrArg₂ cons (convertKey_idem column e (eval b e)) (ih es)

theorem null_mem_prefixKeys {cs : List Constraint} (hlength : cs.length ≤ columns.length) :
    .null ∈ prefixKeys conv tables b columns (cs.map expr) ↔
      ∃ c ∈ cs, eval b c.expr = .null := by
  induction cs generalizing columns with
  | nil => simp [prefixKeys]
  | cons c cs ih =>
    cases columns with
    | nil => simp at hlength
    | cons column columns =>
      show .null ∈ _ :: prefixKeys conv tables b columns (cs.map expr) ↔ _
      rw [mem_cons, ih (Nat.le_of_succ_le_succ hlength), eq_comm, convertKey_eq_null]
      simp

variable {regs : List Value} {component : SeekKeyComponent}

theorem loadLast_eq_nil (h : loadLast conv tables b column component = some regs) :
    regs = [] ↔ component = .none := by
  cases component with
  | none => simpa using (some.inj h).symm
  | null =>
    obtain rfl : [.null] = regs := some.inj h
    simp
  | expr ex =>
    rw [loadLast, bind_eq_bind, bind_eq_some_iff] at h
    obtain ⟨w, -, hcons⟩ := h
    obtain rfl := some.inj hcons
    simp

theorem isNonnull_of_loadLast {ex : Expr} (hnull : eval b ex = .null)
    (h : loadLast conv tables b column (.expr ex) = some regs) : isNonnull tables ex = true := by
  rw [loadLast, bind_eq_bind, bind_eq_some_iff] at h
  obtain ⟨w, hw, -⟩ := h
  exact (loadExpr_eq_some hw).2 hnull

theorem key_isEmpty {seekDef : SeekDef} {vs : List Value}
    (hlength : seekDef.prefixKey.length = vs.length)
    (h : loadLast conv tables b column component = some regs) :
    (vs ++ regs).isEmpty = true ↔ seekDef.prefixKey = [] ∧ component = .none := by
  rw [List.isEmpty_iff, List.append_eq_nil_iff, loadLast_eq_nil h, ← List.length_eq_zero_iff,
    ← hlength, List.length_eq_zero_iff]

end

section

variable {seekDef : SeekDef} {order : SortOrder} {x n : Ordering} {c : Expr → Ordering}

theorem SeekDef.starts_eq (h : seekDef.prefixKey ≠ [] ∨ seekDef.start.lastComponent ≠ .none) :
    seekDef.starts order x n c =
      seekDef.start.op.meets (seekDef.start.lastComponent.ord order x n c) := by
  rw [starts.eq_def]
  split
  next hkey hlast =>
    exact absurd h (by simp [hkey, hlast])
  · rfl

theorem SeekDef.stops_eq (h : seekDef.prefixKey ≠ [] ∨ seekDef.stop.lastComponent ≠ .none) :
    seekDef.stops order x n c =
      seekDef.stop.op.meets (seekDef.stop.lastComponent.ord order x n c) := by
  rw [stops.eq_def]
  split
  next hkey hlast =>
    exact absurd h (by simp [hkey, hlast])
  · rfl

end

theorem mem_iterate {α : Type} {iterDir : IterationDirection} {l : List α} {a : α} :
    a ∈ iterDir.iterate l ↔ a ∈ l := by
  cases iterDir with
  | forwards => exact Iff.rfl
  | backwards => exact mem_reverse

theorem lasts_const (value : Bool) (l : List (List Value)) : Lasts (fun _ => value) l :=
  pairwise_of_forall fun _ _ h => h

section

theorem needsNoChange (hrows : b.RowsOf tables) {affinity : Affinity} {e : Expr}
    (h : exprNeedsNoAffinityChange tables affinity e = true) :
    NeedsNoChange affinity (eval b e) := by
  rw [exprNeedsNoAffinityChange.eq_def, Bool.or_eq_true] at h
  rcases h with hblob | h
  · exact .none (by simpa using hblob)
  cases e with
  | literal l =>
    cases l with
    | numeric n => exact .number h (.inl (by cases n <;> rfl))
    | string t => exact .text (by simpa using h) t rfl
    | blob bytes => exact .blob bytes rfl
    | null | other => cases h
  | column table column =>
    rw [Bool.and_eq_true] at h
    refine .number h.2 ?_
    obtain ⟨c, hc, halias⟩ := (any_eq_true _ _).1 h.1
    rw [eval]
    cases hrow : b.row table with
    | none => exact .inr rfl
    | some r =>
      left
      show (r.2 column).isNumber
      rw [(hrows table r hrow column c hc).2 halias]
      rfl
  | rowId | case | apply => cases h

variable [UncasedStr]

theorem compare_null_right (v : Value) (collation : CollationSeq) :
    compareImmutableSingle v .null collation = if v == .null then .eq else .gt := by
  cases v <;> rfl

theorem compare_null_left (h : v ≠ .null) (collation : CollationSeq) :
    compareImmutableSingle .null v collation = .lt := by
  cases v with
  | null => exact absurd rfl h
  | _ => rfl

theorem isTrue_eq (hrows : b.RowsOf tables) {e : Expr} (hv : Stored conv column.affinity v)
    (hk : KeyFits conv column.affinity (exprAffinity tables e) (eval b e)) (op : Operator) :
    isTrue conv column.affinity (exprAffinity tables e) column.keyInfo.collation op v (eval b e) =
      (v != .null && eval b e != .null && op.holds (compareImmutableSingle v
        (convertKey conv tables column e (eval b e)) column.keyInfo.collation)) := by
  rw [isTrue, convertKey, compare_seekKey hv hk]
  intro hchange
  exact needsNoChange hrows (by simpa using hchange)

end

section

variable {constraints : List Constraint} {order : Nat → Option SortOrder}

theorem usedConstraints_append (refs refs' : List RangeConstraintRef) :
    usedConstraints constraints (refs ++ refs') =
      usedConstraints constraints refs ++ usedConstraints constraints refs' :=
  flatMap_append

theorem groups_prefix {groups : List RangeConstraintRef} (h : Groups constraints order groups)
    (heqs : ∀ g ∈ groups, g.eq.isSome) :
    ∃ cs : List Constraint, cs.length = groups.length ∧
      (groups.reverse.map (·.asSeekRangeConstraint constraints)).filterMap
        (fun c => c.eq.map Bound.expr) = cs.map expr ∧
      (∀ c ∈ cs, c.operator = .equals) ∧
      ∀ u, u ∈ usedConstraints constraints groups.reverse ↔ cs[u.1]? = some u.2 := by
  induction groups with
  | nil => exact ⟨[], rfl, rfl, by simp, fun u => by simp [usedConstraints]⟩
  | cons group groups ih =>
    obtain ⟨hgroup, hcol, hbefore, hgroups⟩ := h
    obtain ⟨cs, hlength, hexprs, hops, hused⟩ := ih hgroups hbefore
    obtain ⟨pos, hpos⟩ := isSome_iff_exists.1 (heqs group mem_cons_self)
    obtain ⟨⟨c, hc, hop⟩, hlower, hupper⟩ := hgroup.equality pos hpos
    have hbound : boundAt constraints pos = some ⟨c.operator, c.expr⟩ := by rw [boundAt, hc]; rfl
    refine ⟨cs ++ [c], by simp [hlength], ?_, ?_, ?_⟩
    · rw [reverse_cons, map_append, filterMap_append, hexprs, map_append]
      congr 1
      simp [RangeConstraintRef.asSeekRangeConstraint, hpos, hbound]
    · intro c' hc'
      rcases mem_append.1 hc' with hmem | hmem
      · exact hops c' hmem
      · rw [mem_singleton.1 hmem]
        simpa using hop
    · intro u
      have hlast : usedConstraints constraints [group] = [(cs.length, c)] := by
        simp [usedConstraints, RangeConstraintRef.constraints, hpos, hlower, hupper, hc, hcol,
          hlength]
      rw [reverse_cons, usedConstraints_append, mem_append, hused, hlast,
        mem_singleton]
      rcases lt_trichotomy u.1 cs.length with hlt | heq | hgt
      · rw [getElem?_append_left hlt]
        constructor
        · rintro (h | rfl)
          · exact h
          · exact absurd hlt (Nat.lt_irrefl _)
        · exact .inl
      · rw [getElem?_append_right heq.ge, heq, Nat.sub_self]
        constructor
        · rintro (h | rfl)
          · simp at h
          · rfl
        · intro h
          right
          ext1
          · exact heq
          · exact (some.inj h).symm
      · rw [getElem?_eq_none hgt.le, getElem?_eq_none (by simp; omega)]
        constructor
        · rintro (h | rfl)
          · cases h
          · exact absurd hgt (Nat.lt_irrefl _)
        · rintro ⟨⟩

end

end PgMicro.Optimizer.Seek
