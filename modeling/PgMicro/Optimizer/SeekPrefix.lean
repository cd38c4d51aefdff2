import PgMicro.Optimizer.SeekKeys

/-!
# A seek for equal keys

The entries that a seek with a full key visits are those that are equal to it, and these are the
entries that the WHERE terms of the seek hold on.
-/

namespace PgMicro.Types

variable [UncasedStr]

theorem lexCompare_cons (l r : Value) (ls rs : List Value) (key : KeyInfo) (keys : List KeyInfo) :
    lexCompare .eq (l :: ls) (r :: rs) (key :: keys) =
      (key.compare l r).then (lexCompare .eq ls rs keys) := by
  rw [lexCompare, KeyInfo.compare]
  cases key.sortOrder.apply (compareImmutableSingle l r key.collation) <;> rfl

variable {keys : List KeyInfo} {ls rs : List Value}

theorem lexCompare_snoc {key : KeyInfo} {l : Value} (hl : ls[rs.length]? = some l)
    (hkey : keys[rs.length]? = some key) (r : Value) :
    lexCompare .eq ls (rs ++ [r]) keys =
      (lexCompare .eq ls rs keys).then (key.compare l r) := by
  induction rs generalizing ls keys with
  | nil =>
    cases ls with
    | nil => cases hl
    | cons l' ls =>
      cases keys with
      | nil => cases hkey
      | cons key' keys =>
        obtain rfl : l' = l := Option.some.inj hl
        obtain rfl : key' = key := Option.some.inj hkey
        rw [List.nil_append, lexCompare_cons, lexCompare_nil_right, lexCompare_nil_right]
        cases key'.compare l' r <;> rfl
  | cons r' rs ih =>
    cases ls with
    | nil => cases hl
    | cons l' ls =>
      cases keys with
      | nil => cases hkey
      | cons key' keys =>
        rw [List.cons_append, lexCompare_cons, lexCompare_cons, ih hl hkey, Ordering.then_assoc]

theorem lexCompare_eq_iff :
    lexCompare .eq ls rs keys = .eq ↔ ∀ (k : Nat) l r key, ls[k]? = some l → rs[k]? = some r →
      keys[k]? = some key → compareImmutableSingle l r key.collation = .eq := by
  induction rs generalizing ls keys with
  | nil => simp
  | cons r rs ih =>
    cases ls with
    | nil => simp
    | cons l ls =>
      cases keys with
      | nil => simp
      | cons key keys =>
        rw [lexCompare_cons, Ordering.then_eq_eq, ih, KeyInfo.compare, SortOrder.apply_eq_eq]
        constructor
        · rintro ⟨hhead, htail⟩ (_ | k)
          · rintro _ _ _ ⟨⟩ ⟨⟩ ⟨⟩
            exact hhead
          · exact htail k
        · intro h
          exact ⟨h 0 l r key rfl rfl rfl, fun k => h (k + 1)⟩

end PgMicro.Types

namespace PgMicro.Optimizer.Seek

open Types List Option Constraint
open BTree (IterationDirection SeekOp)
open SortedScan (Lasts)

variable {keys : List KeyInfo} {entries : List (List Value)} {iterDir : IterationDirection}
  {conv : Conversions} {tables : Tables} {b : Bindings} {columns : List IndexColumn}
  {column : IndexColumn} {first last : List Value} [UncasedStr]

open SortedScan

section

structure IsIndex (keys : List KeyInfo) (entries : List (List Value)) : Prop where
  sorted : entries.Pairwise fun e e' => lexCompare .eq e e' keys = .lt
  length : ∀ e ∈ entries, keys.length ≤ e.length

variable {op : SeekOp}

theorem lasts_meets (h : IsIndex keys entries) (hop : op.iterationDirection = iterDir)
    (key : List Value) :
    Lasts (fun e => op.meets (lexCompare .eq e key keys)) (iterDir.iterate entries) := by
  subst hop
  exact lasts_meets_of_ascends op (h.sorted.imp_of_mem fun {e e'} he he' hlt =>
    lexCompare_ascends (h.length e he) (h.length e' he') hlt key)

theorem seekIndex_eq (hop : op.iterationDirection = iterDir) (hall : op.eqOnly = false)
    (key : List Value)
    (entries : List (List Value)) :
    seekIndex keys op key entries = (iterDir.iterate entries).dropWhile fun e =>
      !op.meets (lexCompare .eq e key keys) := by
  subst hop
  cases op with
  | ge eqOnly | le eqOnly =>
    obtain rfl : eqOnly = false := hall
    rfl
  | gt | lt => rfl

theorem takeWhile_seekIndex_exact (h : IsIndex keys entries) {start stop : SeekOp}
    (hops : start = .ge true ∧ stop = .gt ∨ start = .le true ∧ stop = .lt) {key : List Value}
    (hkey : Value.null ∉ key) :
    (seekIndex keys start key entries).takeWhile
        (fun e => !stop.meets (lexCompare .eq e key keys)) =
      (start.iterationDirection.iterate entries).filter fun e =>
        lexCompare .eq e key keys == .eq := by
  have hpoint : ∀ o : Ordering, (start.meets o && !stop.meets o) = (o == .eq) := by
    rcases hops with ⟨rfl, rfl⟩ | ⟨rfl, rfl⟩ <;> decide
  have hdirs : stop.iterationDirection = start.iterationDirection := by
    rcases hops with ⟨rfl, rfl⟩ | ⟨rfl, rfl⟩ <;> rfl
  have hbetween := between_eq_filter (lasts_meets h (rfl : start.iterationDirection = _) key)
    (lasts_meets h hdirs key)
  simp only [hpoint] at hbetween
  rw [← hbetween, between]
  have hseek : seekIndex keys start key entries =
      let rest := (start.iterationDirection.iterate entries).dropWhile fun e =>
        !start.meets (lexCompare .eq e key keys)
      if (rest.head?).any fun e => lexCompare .eq e key keys == .eq then rest else [] := by
    rcases hops with ⟨rfl, rfl⟩ | ⟨rfl, rfl⟩ <;> simp [seekIndex, hkey] <;> rfl
  rw [hseek]
  dsimp only
  split
  · rfl
  next hhead =>
    cases hrest : (start.iterationDirection.iterate entries).dropWhile fun e =>
        !start.meets (lexCompare .eq e key keys) with
    | nil => rfl
    | cons e rest =>
      rw [hrest] at hhead
      have hstart : start.meets (lexCompare .eq e key keys) = true := by
        have hnot := head?_dropWhile_not (fun e => !start.meets (lexCompare .eq e key keys))
          (start.iterationDirection.iterate entries)
        rw [hrest] at hnot
        simpa using hnot
      have hstop : stop.meets (lexCompare .eq e key keys) = true := by
        have hp := hpoint (lexCompare .eq e key keys)
        have hne : (lexCompare .eq e key keys == .eq) = false := by simpa using hhead
        rw [hstart, hne] at hp
        simpa using hp
      rw [takeWhile_cons_of_neg (by simp [hstop])]
      rfl

end

structure IndexOf (conv : Conversions) (columns : List IndexColumn) (keys : List KeyInfo)
    (entries : List (List Value)) : Prop extends IsIndex keys entries where
  columns_keys : ∀ (k : Nat) column, columns[k]? = some column → keys[k]? = some column.keyInfo
  stored : ∀ e ∈ entries, ∀ (k : Nat) column v, columns[k]? = some column → e[k]? = some v →
    Stored conv column.affinity v

section

variable {e : List Value}

theorem IndexOf.getElem (h : IndexOf conv columns keys entries) (he : e ∈ entries) {k : Nat}
    (hcolumn : columns[k]? = some column) : ∃ v, e[k]? = some v := by
  obtain ⟨hlt, -⟩ := List.getElem?_eq_some_iff.1 (h.columns_keys k column hcolumn)
  exact ⟨_, getElem?_eq_getElem (Nat.lt_of_lt_of_le hlt (h.length e he))⟩

structure PrefixOf (conv : Conversions) (tables : Tables) (b : Bindings)
    (columns : List IndexColumn) (cs : List Constraint) : Prop where
  equals : ∀ c ∈ cs, c.operator = .equals
  length_le : cs.length ≤ columns.length
  fits : ∀ (k : Nat) c column, cs[k]? = some c → columns[k]? = some column →
    KeyFits conv column.affinity (exprAffinity tables c.expr) (eval b c.expr)

variable {cs : List Constraint}

theorem prefix_eq_iff (hindex : IndexOf conv columns keys entries) (hrows : b.RowsOf tables)
    (hcs : PrefixOf conv tables b columns cs) (hnonnull : ∀ c ∈ cs, eval b c.expr ≠ .null)
    (he : e ∈ entries) :
    lexCompare .eq e (prefixKeys conv tables b columns (cs.map expr)) keys = .eq ↔
      ∀ (k : Nat) c, cs[k]? = some c → termHolds conv tables b columns e (k, c) = true := by
  have hterm {k : Nat} {c : Constraint} {column : IndexColumn} {v : Value}
      (hc : cs[k]? = some c) (hcolumn : columns[k]? = some column) (hv : e[k]? = some v) :
      termHolds conv tables b columns e (k, c) = true ↔ compareImmutableSingle v
        (convertKey conv tables column c.expr (eval b c.expr)) column.keyInfo.collation = .eq := by
    have hmem : c ∈ cs := mem_of_getElem? hc
    have hkey := hnonnull c hmem
    simp only [termHolds, hcolumn, hv]
    rw [isTrue_eq hrows (hindex.stored e he k column v hcolumn hv) (hcs.fits k c column hc hcolumn),
      hcs.equals c hmem]
    constructor
    · intro h
      simp only [Bool.and_eq_true] at h
      exact beq_iff_eq.1 h.2
    · intro h
      have hne : v ≠ .null := by
        rintro rfl
        rw [compare_null_left (mt convertKey_eq_null.1 hkey)] at h
        cases h
      simp [hne, hkey, h, Operator.holds]
  rw [lexCompare_eq_iff]
  constructor
  · intro h k c hc
    obtain ⟨hlt, -⟩ := List.getElem?_eq_some_iff.1 hc
    have hcolumn := getElem?_eq_getElem (Nat.lt_of_lt_of_le hlt hcs.length_le)
    obtain ⟨v, hv⟩ := hindex.getElem he hcolumn
    refine (hterm hc hcolumn hv).2 (h k v _ _ hv ?_ (hindex.columns_keys k _ hcolumn))
    simp [prefixKeys, getElem?_zipWith, hcolumn, hc]
  · intro h k v r key hv hr hkey
    rw [prefixKeys, getElem?_zipWith] at hr
    cases hcolumn : columns[k]? with
    | none => simp [hcolumn] at hr
    | some column =>
      cases hc : cs[k]? with
      | none => simp [hc] at hr
      | some c =>
        rw [hindex.columns_keys k column hcolumn] at hkey
        obtain rfl : column.keyInfo = key := some.inj hkey
        obtain rfl : convertKey conv tables column c.expr (eval b c.expr) = r := by
          simpa [hcolumn, hc] using hr
        exact (hterm hc hcolumn hv).1 (h k c hc)

theorem termHolds_of_null {k : Nat} {c : Constraint} (hnull : eval b c.expr = .null) :
    termHolds conv tables b columns e (k, c) = false := by
  rw [termHolds]
  split
  · simp [isTrue, hnull]
  · rfl

def nextColumn (columns : List IndexColumn) (n : Nat) : IndexColumn :=
  (columns[n]?).getD ⟨⟨.asc, .binary⟩, none⟩

variable {seekDef : SeekDef}

theorem visitIndex_eq {seekDef : SeekDef} {vs : List Value}
    (hload : loadPrefix conv tables b columns seekDef.prefixExprs = some vs)
    (hfirst : loadLast conv tables b (nextColumn columns seekDef.prefixExprs.length)
      seekDef.start.lastComponent = some first)
    (hlast : loadLast conv tables b (nextColumn columns seekDef.prefixExprs.length)
      seekDef.stop.lastComponent = some last) :
    visitIndex conv tables b columns keys seekDef entries =
      (if (vs ++ first).isEmpty then startAtEnd keys seekDef.iterDir entries
        else seekIndex keys seekDef.start.op (vs ++ first) entries).takeWhile fun e =>
          !(if (vs ++ last).isEmpty then stopAtEnd keys seekDef.iterDir e
            else seekDef.stop.op.meets (lexCompare .eq e (vs ++ last) keys)) := by
  have hsame := map_convertKey_prefixKeys conv tables b columns seekDef.prefixExprs
  rw [← (loadPrefix_eq_some hload).1] at hsame
  rw [nextColumn] at hfirst hlast
  rw [visitIndex]
  simp only [hload, hfirst, hlast, bind_eq_bind, bind_some]
  cases seekDef.stop.lastComponent with
  | none | null => rfl
  | expr ex => simp [hsame]

theorem visitIndex_eq_nil {seekDef : SeekDef}
    (h : loadPrefix conv tables b columns seekDef.prefixExprs = none ∨
      ∃ key ∈ [seekDef.start, seekDef.stop], loadLast conv tables b
        (nextColumn columns seekDef.prefixExprs.length) key.lastComponent = none) :
    visitIndex conv tables b columns keys seekDef entries = [] := by
  rw [visitIndex]
  simp only [bind_eq_bind]
  rcases h with hload | ⟨key, hkey, hlast⟩
  · rw [hload]
    rfl
  cases loadPrefix conv tables b columns seekDef.prefixExprs with
  | none => rfl
  | some vs =>
    rw [nextColumn] at hlast
    simp only [mem_cons, not_mem_nil, or_false] at hkey
    rcases hkey with rfl | rfl
    · rw [bind_some, hlast]
      rfl
    · rw [bind_some, hlast]
      cases loadLast conv tables b _ seekDef.start.lastComponent <;> rfl

theorem visitIndex_exact (hindex : IndexOf conv columns keys entries) (hrows : b.RowsOf tables)
    (hcs : PrefixOf conv tables b columns cs) (hne : cs ≠ []) {key : List SeekRangeConstraint}
    (hkey : key.filterMap (fun c => c.eq.map Bound.expr) = cs.map expr)
    (iterDir : IterationDirection) {P : List Value → Bool} (hP : ∀ e ∈ entries, P e = true ↔
      ∀ (k : Nat) c, cs[k]? = some c → termHolds conv tables b columns e (k, c) = true) :
    visitIndex conv tables b columns keys (exactSeekDef iterDir key) entries =
      (iterDir.iterate entries).filter P := by
  have hempty {c : Constraint} (hc : c ∈ cs) (hnull : eval b c.expr = .null) :
      (iterDir.iterate entries).filter P = [] := by
    refine filter_eq_nil_iff.2 fun e he hPe => ?_
    obtain ⟨k, hk⟩ := getElem?_of_mem hc
    have hterm := (hP e (mem_iterate.1 he)).1 hPe k c hk
    rw [termHolds_of_null hnull] at hterm
    cases hterm
  have hes : (exactSeekDef iterDir key).prefixExprs = cs.map expr := by
    rw [← hkey]
    cases iterDir <;> rfl
  have hcomponents (column : IndexColumn) :
      loadLast conv tables b column (exactSeekDef iterDir key).start.lastComponent = some [] ∧
        loadLast conv tables b column (exactSeekDef iterDir key).stop.lastComponent = some [] := by
    cases iterDir <;> exact ⟨rfl, rfl⟩
  cases hload : loadPrefix conv tables b columns (cs.map expr) with
  | none =>
    obtain ⟨ex, hex, hnull⟩ := loadPrefix_eq_none (by simpa using hcs.length_le) hload
    obtain ⟨c, hc, rfl⟩ := mem_map.1 hex
    rw [hempty hc hnull, visitIndex_eq_nil (.inl (hes ▸ hload))]
  | some vs =>
    obtain ⟨rfl, -⟩ := loadPrefix_eq_some hload
    have hlength : (prefixKeys conv tables b columns (cs.map expr)).length =
        cs.length := by
      simpa [prefixKeys] using hcs.length_le
    have hnil : prefixKeys conv tables b columns (cs.map expr) ≠ [] := by
      rintro h
      rw [h] at hlength
      exact hne (length_eq_zero_iff.1 hlength.symm)
    have hnot (hnull : .null ∉ prefixKeys conv tables b columns (cs.map expr)) :
        (iterDir.iterate entries).filter (fun e => lexCompare .eq e
          (prefixKeys conv tables b columns (cs.map expr)) keys == .eq) =
        (iterDir.iterate entries).filter P := by
      rw [null_mem_prefixKeys hcs.length_le] at hnull
      refine filter_congr fun e he => Bool.eq_iff_iff.2 ?_
      rw [beq_iff_eq, hP e (mem_iterate.1 he)]
      exact prefix_eq_iff hindex hrows hcs (fun c hc h => hnull ⟨c, hc, h⟩) (mem_iterate.1 he)
    have hnulls (hnull : .null ∈ prefixKeys conv tables b columns (cs.map expr)) :
        (iterDir.iterate entries).filter P = [] := by
      obtain ⟨c, hc, hnull⟩ := (null_mem_prefixKeys hcs.length_le).1 hnull
      exact hempty hc hnull
    have hload' : loadPrefix conv tables b columns (exactSeekDef iterDir key).prefixExprs =
        some (prefixKeys conv tables b columns (cs.map expr)) := by
      rw [hes, hload]
    rw [visitIndex_eq hload' (hcomponents _).1 (hcomponents _).2, append_nil]
    generalize prefixKeys conv tables b columns (cs.map expr) = vs at hnil hnot hnulls ⊢
    have hisEmpty : vs.isEmpty = false := by simpa using hnil
    simp only [hisEmpty, Bool.false_eq_true, if_false]
    by_cases hnull : .null ∈ vs
    · have hnone : seekIndex keys (exactSeekDef iterDir key).start.op vs entries = [] := by
        cases iterDir <;> simp [exactSeekDef, seekIndex, hnull]
      rw [hnone, hnulls hnull]
      rfl
    · have hops : (exactSeekDef iterDir key).start.op = .ge true ∧
            (exactSeekDef iterDir key).stop.op = .gt ∨
          (exactSeekDef iterDir key).start.op = .le true ∧
            (exactSeekDef iterDir key).stop.op = .lt := by
        cases iterDir
        · exact .inl ⟨rfl, rfl⟩
        · exact .inr ⟨rfl, rfl⟩
      have hdir : (exactSeekDef iterDir key).start.op.iterationDirection = iterDir := by
        cases iterDir <;> rfl
      rw [takeWhile_seekIndex_exact hindex.toIsIndex hops hnull, hdir]
      exact hnot hnull

end

end PgMicro.Optimizer.Seek
