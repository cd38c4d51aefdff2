import PgMicro.Optimizer.UpdateWriteSet

/-!
# UPDATE in one loop

Where the access path keeps the place of every row that is rewritten, and writing a row leaves the
rows ahead of the cursor in their places, the fused loop processes the rows that satisfied the WHERE
clause at its start, each once.
-/

namespace PgMicro.Optimizer

open List

open Types (Value)
open Schema

namespace UpdatePlan

variable {plan : UpdatePlan}

/-- What the test for a write set leaves open of the row itself: a scan of an index does not meet
an UPDATE of the rowid, and no expression of the index reads a generated column that is affected. -/
structure Safe (plan : UpdatePlan) : Prop where
  rowid : ∀ index ∈ plan.op.index, plan.rowidUpdated = false
  expressions : ∀ index ∈ plan.op.index, ∀ c ∈ index.columns, ∀ expr ∈ c.expr, ∀ i ∈ expr.reads,
    (generatedExpr plan.columns i).isSome →
      i ∉ columnsAffectedByUpdate plan.columns plan.graph plan.updatedCols

section

variable {ν : Type} [LinearOrder ν] (plan : UpdatePlan) (rank : List Value → ν) (backward : Bool)
  (inRange : List Value → Int64 → Bool)

/-- Ahead of `row`, what is written besides it leaves the entries of the path in their places, and
the WHERE clause answers for them what it did before. -/
def Calm (rows : Rows) (row : Row) : Prop :=
  ∀ k, plan.position rank backward row < k →
    (k ∈ plan.keys rank backward inRange (plan.rewrite rows row) ↔
      k ∈ plan.keys rank backward inRange (replaceRow rows row (plan.assign rows row))) ∧
    ∀ r r', plan.rowAt rank backward inRange rows k = some r →
      plan.rowAt rank backward inRange (plan.rewrite rows row) k = some r' →
      plan.whereClause (plan.rewrite rows row) r' = plan.whereClause rows r

/-- Every write of the loop over the places `ks` is calm. -/
def Undisturbed (s : Progress) : List (ν ×ₗ ℤ) → Prop
  | [] => True
  | k :: ks =>
    (∀ row, plan.rowAt rank backward inRange s.rows k = some row →
      plan.whereClause s.rows row = true →
      plan.check s.rows row (plan.assign s.rows row) = .write →
      plan.Calm rank backward inRange s.rows row) ∧
    Undisturbed (plan.visit rank backward inRange s k).1 ks

def chosenAt (rows : Rows) (ks : List (ν ×ₗ ℤ)) : Rows :=
  (ks.filterMap (plan.rowAt rank backward inRange rows)).filter (plan.whereClause rows)

def selected (rows : Rows) : Rows :=
  plan.chosenAt rank backward inRange rows (plan.keys rank backward inRange rows).sort

/-- The rows with these rowids are updated one after the other, until one ends the statement. -/
def updateRows (s : Progress) : List Int64 → Progress
  | [] => s
  | rowid :: rowids =>
    match s.rows.find? fun row => row.rowid = rowid with
    | none => updateRows s rowids
    | some row =>
      let s' := plan.process s row
      if s'.halted then s' else updateRows s' rowids

end

theorem reason_cases (hreason : plan.updateWriteSetReason = none) :
    (∀ index ∈ plan.op.index,
      (∀ i ∈ plan.updatedCols, ∀ c ∈ index.columns, ∀ expr ∈ c.expr, i ∉ expr.reads) ∧
      ∀ c ∈ index.columns,
        c.posInTable ∉ columnsAffectedByUpdate plan.columns plan.graph plan.updatedCols) ∧
    (plan.op.index = none → plan.rowidUpdated = false) := by
  rw [updateWriteSetReason] at hreason
  split at hreason
  · cases hreason
  split at hreason
  · cases hreason
  split at hreason
  · cases hreason
  split at hreason
  next hindex =>
    rw [hindex]
    constructor
    · intro index h
      cases h
    intro _
    split at hreason
    · cases hreason
    next hrowid =>
      simpa using hrowid
  next index hindex =>
    rw [hindex]
    refine ⟨?_, nofun⟩
    simp only at hreason
    split at hreason
    · cases hreason
    rename_i hnone
    rw [Bool.or_eq_true, not_or] at hnone
    rintro _ ⟨⟩
    constructor
    · intro i hi c hc expr hexpr hread
      refine hnone.1 (any_eq_true.2 ⟨i, hi, any_eq_true.2 ⟨c, hc, ?_⟩⟩)
      rw [Option.mem_def.1 hexpr]
      exact decide_eq_true hread
    · intro c hc hmem
      exact hnone.2 (any_eq_true.2 ⟨c, hc, decide_eq_true hmem⟩)

theorem assign_rowid (hrowid : plan.rowidUpdated = false) (rows : Rows) (row : Row) :
    (plan.assign rows row).rowid = row.rowid := by
  have hnone : plan.setClauses.find?
      (fun c => c.1 == sentinel || plan.isRowidAlias c.1) = none := by
    rw [find?_eq_none]
    intro c hc htrue
    rw [rowidUpdated, any_eq_false] at hrowid
    exact hrowid c.1 (mem_map_of_mem hc) htrue
  rw [assign, hnone]

theorem assign_stored {i : Nat} (hi : i ∉ plan.updatedCols) (rows : Rows) (row : Row) :
    (plan.assign rows row).stored i = row.stored i := by
  have hnone : plan.setClauses.find? (fun c => c.1 == i) = none := by
    rw [find?_eq_none]
    intro c hc htrue
    exact hi (mem_map.2 ⟨c, hc, beq_iff_eq.1 htrue⟩)
  rw [assign]
  simp [hnone]

theorem columnValue_assign (hrowid : plan.rowidUpdated = false) (rows : Rows) (row : Row) {i : Nat}
    (hi : i ∉ columnsAffectedByUpdate plan.columns plan.graph plan.updatedCols) :
    columnValue plan.columns (plan.assign rows row) i = columnValue plan.columns row i := by
  obtain ⟨hupdated, hclosed⟩ := columnsAffectedByUpdate_closed plan.built plan.updatedCols
  refine valuesAfter_congr hclosed ?_ ?_ _ hi
  · exact fun k hk => assign_stored (fun hmem => hk (hupdated k hmem)) rows row
  · exact fun _ _ _ _ _ => assign_rowid hrowid rows row

section

variable {ν : Type} [LinearOrder ν] {rank : List Value → ν} {backward : Bool}
  {inRange : List Value → Int64 → Bool} {rows : Rows} {row : Row} {k : ν ×ₗ ℤ}

omit [LinearOrder ν] in
theorem rowid_eq_of_position {row' : Row}
    (h : plan.position rank backward row = plan.position rank backward row') :
    row.rowid = row'.rowid := by
  have hrowid := (Prod.ext_iff.1 (toLex.injective h)).2
  cases backward with
  | true => exact Int64.toInt_inj.1 (by simpa using hrowid)
  | false => exact Int64.toInt_inj.1 (by simpa using hrowid)

theorem mem_keys :
    k ∈ plan.keys rank backward inRange rows ↔
      ∃ row ∈ rows, plan.scanned inRange row ∧ plan.position rank backward row = k := by
  simp [keys, and_assoc]

theorem position_rowAt (h : plan.rowAt rank backward inRange rows k = some row) :
    plan.position rank backward row = k := by
  have htrue := find?_some h
  rw [Bool.and_eq_true, decide_eq_true_eq] at htrue
  exact htrue.2

theorem rowAt_eq_some_iff (hrows : (rows.map Row.rowid).Nodup) :
    plan.rowAt rank backward inRange rows k = some row ↔
      row ∈ rows ∧ plan.scanned inRange row ∧ plan.position rank backward row = k := by
  rw [rowAt]
  constructor
  · intro h
    have htrue := find?_some h
    rw [Bool.and_eq_true, decide_eq_true_eq] at htrue
    exact ⟨mem_of_find?_eq_some h, htrue⟩
  · rintro ⟨hrow, hscanned, hpos⟩
    cases hfind : rows.find? fun row =>
        plan.scanned inRange row && decide (plan.position rank backward row = k) with
    | none =>
      have hfalse := find?_eq_none.1 hfind row hrow
      simp [hscanned, hpos] at hfalse
    | some row' =>
      have htrue := find?_some hfind
      rw [Bool.and_eq_true, decide_eq_true_eq] at htrue
      have hsame := rowid_eq_of_position (htrue.2.trans hpos.symm)
      rw [inj_on_of_nodup_map hrows (mem_of_find?_eq_some hfind) hrow hsame]

theorem find?_map_of_false {α : Type} {p : α → Bool} {f : α → α} {l : List α}
    (h : ∀ x ∈ l, f x = x ∨ p x = false ∧ p (f x) = false) : (l.map f).find? p = l.find? p := by
  induction l with
  | nil => rfl
  | cons x l ih =>
    obtain ⟨hx, hl⟩ := forall_mem_cons.1 h
    rw [map_cons, find?_cons, find?_cons, ih hl]
    rcases hx with hx | ⟨hx, hfx⟩
    · rw [hx]
    · rw [hx, hfx]

theorem mem_keys_iff (hrows : (rows.map Row.rowid).Nodup) :
    k ∈ plan.keys rank backward inRange rows ↔
      ∃ row, plan.rowAt rank backward inRange rows k = some row := by
  simp [mem_keys, rowAt_eq_some_iff hrows]

theorem find?_rowid (hrows : (rows.map Row.rowid).Nodup) (hrow : row ∈ rows) :
    (rows.find? fun r => r.rowid = row.rowid) = some row := by
  cases hfind : rows.find? fun r => r.rowid = row.rowid with
  | none => simpa using find?_eq_none.1 hfind row hrow
  | some row' =>
    have hsame : row'.rowid = row.rowid := by simpa using find?_some hfind
    rw [inj_on_of_nodup_map hrows (mem_of_find?_eq_some hfind) hrow hsame]

theorem mem_selected (hrows : (rows.map Row.rowid).Nodup) :
    row ∈ plan.selected rank backward inRange rows ↔
      row ∈ rows ∧ plan.scanned inRange row ∧ plan.whereClause rows row := by
  rw [selected, chosenAt, mem_filter, mem_filterMap]
  simp only [Finset.mem_sort, rowAt_eq_some_iff hrows, mem_keys]
  constructor
  · rintro ⟨⟨k, -, hrow, hscanned, -⟩, hwhere⟩
    exact ⟨hrow, hscanned, hwhere⟩
  · rintro ⟨hrow, hscanned, hwhere⟩
    exact ⟨⟨_, ⟨row, hrow, hscanned, rfl⟩, hrow, hscanned, rfl⟩, hwhere⟩

theorem nodup_selected (hrows : (rows.map Row.rowid).Nodup) :
    ((plan.selected rank backward inRange rows).map Row.rowid).Nodup := by
  have hdistinct : (plan.selected rank backward inRange rows).Nodup := by
    refine List.Nodup.filter _ (List.Nodup.filterMap ?_ (Finset.sort_nodup _ _))
    intro k k' row hk hk'
    obtain ⟨-, -, hpos⟩ := (rowAt_eq_some_iff hrows).1 hk
    obtain ⟨-, -, hpos'⟩ := (rowAt_eq_some_iff hrows).1 hk'
    exact hpos.symm.trans hpos'
  refine (nodup_map_iff_inj_on hdistinct).2 fun r hr r' hr' heq => ?_
  exact inj_on_of_nodup_map hrows ((mem_selected hrows).1 hr).1 ((mem_selected hrows).1 hr').1
    heq

section

variable (hreason : plan.updateWriteSetReason = none) (hsafe : plan.Safe)

include hreason hsafe

theorem pathValues_assign (rows : Rows) (row : Row) :
    plan.pathValues (plan.assign rows row) = plan.pathValues row := by
  obtain ⟨hindex, -⟩ := reason_cases hreason
  rw [pathValues, pathValues]
  cases hop : plan.op.index with
  | none => rfl
  | some index =>
    obtain ⟨hexprs, hcolumns⟩ := hindex index hop
    have hrowid := hsafe.rowid index hop
    refine map_congr_left fun c hc => ?_
    cases hexpr : c.expr with
    | none => exact columnValue_assign hrowid rows row (hcolumns c hc)
    | some expr =>
      refine expr.frame _ _ fun i hi => columnValue_assign hrowid rows row fun hmem => ?_
      rcases updated_or_generated plan.built hmem with hupdated | hgenerated
      · exact hexprs i hupdated c hc expr hexpr hi
      · exact hsafe.expressions index hop c hc expr hexpr i hi hgenerated hmem

theorem assign_rowid_of_safe (rows : Rows) (row : Row) :
    (plan.assign rows row).rowid = row.rowid := by
  refine assign_rowid ?_ rows row
  cases hop : plan.op.index with
  | none => exact (reason_cases hreason).2 hop
  | some index => exact hsafe.rowid index hop

omit [LinearOrder ν] in
theorem position_assign :
    plan.position rank backward (plan.assign rows row) = plan.position rank backward row := by
  rw [position, position, pathValues_assign hreason hsafe, assign_rowid_of_safe hreason hsafe]

theorem nodup_replaceRow (hrows : (rows.map Row.rowid).Nodup) :
    ((replaceRow rows row (plan.assign rows row)).map Row.rowid).Nodup := by
  have hsame : (replaceRow rows row (plan.assign rows row)).map Row.rowid =
      rows.map Row.rowid := by
    rw [replaceRow, map_map]
    refine map_congr_left fun r _ => ?_
    rw [Function.comp_apply]
    split
    next hr =>
      rw [assign_rowid_of_safe hreason hsafe, hr]
    · rfl
  rwa [hsame]

theorem nodup_rewrite (hrows : (rows.map Row.rowid).Nodup) :
    ((plan.rewrite rows row).map Row.rowid).Nodup :=
  plan.distinct _ _ _ _ (nodup_replaceRow hreason hsafe hrows)

theorem rowAt_replaceRow (hrows : (rows.map Row.rowid).Nodup) (hrow : row ∈ rows)
    (hk : plan.position rank backward row ≠ k) :
    plan.rowAt rank backward inRange (replaceRow rows row (plan.assign rows row)) k =
      plan.rowAt rank backward inRange rows k := by
  rw [replaceRow, rowAt, rowAt]
  refine find?_map_of_false fun r hr => ?_
  split
  next hsame =>
    have hsame : r = row := inj_on_of_nodup_map hrows hr hrow hsame
    rw [hsame, position_assign hreason hsafe, decide_eq_false hk, Bool.and_false, Bool.and_false]
    exact .inr ⟨rfl, rfl⟩
  · exact .inl rfl

/-- Other writes are calm if they keep the places of rows and what the WHERE clause answers. -/
theorem calm_of_map (hrows : (rows.map Row.rowid).Nodup) (hrow : row ∈ rows) {f : Row → Row}
    (hf : plan.rewrite rows row = (replaceRow rows row (plan.assign rows row)).map f)
    (hscanned : ∀ r, plan.scanned inRange (f r) = plan.scanned inRange r)
    (hposition : ∀ r, plan.position rank backward (f r) = plan.position rank backward r)
    (hwhere : ∀ r, plan.whereClause (plan.rewrite rows row) (f r) = plan.whereClause rows r) :
    plan.Calm rank backward inRange rows row := by
  intro k hk
  have hat : plan.rowAt rank backward inRange (plan.rewrite rows row) k =
      (plan.rowAt rank backward inRange (replaceRow rows row (plan.assign rows row)) k).map f := by
    rw [hf, rowAt, find?_map]
    simp only [Function.comp_def, hscanned, hposition]
    rfl
  constructor
  · rw [mem_keys_iff (nodup_rewrite hreason hsafe hrows),
      mem_keys_iff (nodup_replaceRow hreason hsafe hrows), hat]
    simp
  · intro r r' hr hr'
    rw [hat, rowAt_replaceRow hreason hsafe hrows hrow hk.ne, hr] at hr'
    cases hr'
    exact hwhere r

omit [LinearOrder ν] in
theorem cursorAfter_eq :
    plan.cursorAfter rank backward rows row = plan.position rank backward row := by
  rw [cursorAfter, position_assign hreason hsafe, ite_self]

/-- If there is a row at a place, and what the WHERE clause says of it. -/
def entryAt (plan : UpdatePlan) (rank : List Value → ν) (backward : Bool)
    (inRange : List Value → Int64 → Bool) (rows : Rows) (k : ν ×ₗ ℤ) : Option Bool :=
  (plan.rowAt rank backward inRange rows k).map (plan.whereClause rows)

theorem entryAt_rewrite (hrows : (rows.map Row.rowid).Nodup) (hrow : row ∈ rows)
    (hcalm : plan.Calm rank backward inRange rows row)
    (hk : plan.position rank backward row < k) :
    plan.entryAt rank backward inRange (plan.rewrite rows row) k =
      plan.entryAt rank backward inRange rows k := by
  obtain ⟨hkeys, hwhere⟩ := hcalm k hk
  rw [mem_keys_iff (nodup_rewrite hreason hsafe hrows),
    mem_keys_iff (nodup_replaceRow hreason hsafe hrows),
    rowAt_replaceRow hreason hsafe hrows hrow hk.ne] at hkeys
  rw [entryAt, entryAt]
  cases hr : plan.rowAt rank backward inRange rows k with
  | none =>
    cases hr' : plan.rowAt rank backward inRange (plan.rewrite rows row) k with
    | none => rfl
    | some r' =>
      obtain ⟨r, hr''⟩ := hkeys.1 ⟨r', hr'⟩
      rw [hr] at hr''
      cases hr''
  | some r =>
    obtain ⟨r', hr'⟩ := hkeys.2 ⟨r, hr⟩
    rw [hr', Option.map_some, Option.map_some, hwhere r r' hr hr']

/-- A row that does not end the statement leaves the entries ahead as they are. -/
theorem process_cases {s : Progress} (hrows : (s.rows.map Row.rowid).Nodup)
    (hhalted : s.halted = false) (hrow : row ∈ s.rows)
    (hcalm : plan.check s.rows row (plan.assign s.rows row) = .write →
      plan.Calm rank backward inRange s.rows row) :
    plan.process s row = { s with halted := true } ∨
      (plan.process s row).halted = false ∧
        (plan.process s row).processed = s.processed ++ [row.rowid] ∧
        ((plan.process s row).rows.map Row.rowid).Nodup ∧
        ∀ k, plan.position rank backward row < k →
          plan.entryAt rank backward inRange (plan.process s row).rows k =
            plan.entryAt rank backward inRange s.rows k := by
  rw [process]
  cases hcheck : plan.check s.rows row (plan.assign s.rows row) with
  | halt => exact .inl rfl
  | ignore => exact .inr ⟨hhalted, rfl, hrows, fun _ _ => rfl⟩
  | write =>
    exact .inr ⟨hhalted, rfl, nodup_rewrite hreason hsafe hrows, fun _ hk =>
      entryAt_rewrite hreason hsafe hrows hrow (hcalm hcheck) hk⟩

theorem undisturbed_of_calm (hcalm : ∀ rows row, (rows.map Row.rowid).Nodup → row ∈ rows →
      plan.Calm rank backward inRange rows row) {s : Progress}
    (hrows : (s.rows.map Row.rowid).Nodup) (ks : List (ν ×ₗ ℤ)) :
    plan.Undisturbed rank backward inRange s ks := by
  induction ks generalizing s with
  | nil => trivial
  | cons k ks ih =>
    refine ⟨fun row hat _ _ => hcalm _ _ hrows ((rowAt_eq_some_iff hrows).1 hat).1, ih ?_⟩
    rw [visit]
    split
    · exact hrows
    split
    · simp only [process]
      split
      · exact hrows
      · exact hrows
      · exact nodup_rewrite hreason hsafe hrows
    · exact hrows

/-- The cursor stays at the place of the row. -/
theorem visit_rowAt {s : Progress} (hrows : (s.rows.map Row.rowid).Nodup)
    (hat : plan.rowAt rank backward inRange s.rows k = some row) :
    plan.visit rank backward inRange s k = if plan.whereClause s.rows row then
      (plan.process s row, if (plan.process s row).halted then none else some k)
      else (s, some k) := by
  obtain ⟨-, -, hpos⟩ := (rowAt_eq_some_iff hrows).1 hat
  rw [visit, hat]
  simp only [cursorAfter_eq hreason hsafe, hpos]

omit hreason hsafe in
theorem mem_keys_congr {rows' : Rows} (hrows : (rows.map Row.rowid).Nodup)
    (hrows' : (rows'.map Row.rowid).Nodup)
    (h : plan.entryAt rank backward inRange rows' k = plan.entryAt rank backward inRange rows k) :
    k ∈ plan.keys rank backward inRange rows' ↔ k ∈ plan.keys rank backward inRange rows := by
  have hsome := congrArg Option.isSome h
  rw [entryAt, entryAt, Option.isSome_map, Option.isSome_map, Bool.eq_iff_iff,
    Option.isSome_iff_exists, Option.isSome_iff_exists] at hsome
  rwa [mem_keys_iff hrows', mem_keys_iff hrows]

omit hreason hsafe in
theorem chosenAt_cons (hat : plan.rowAt rank backward inRange rows k = some row)
    (ks : List (ν ×ₗ ℤ)) :
    plan.chosenAt rank backward inRange rows (k :: ks) =
      if plan.whereClause rows row then row :: plan.chosenAt rank backward inRange rows ks
      else plan.chosenAt rank backward inRange rows ks := by
  rw [chosenAt, filterMap_cons_some hat, filter_cons]
  rfl

/-- The sweep over places whose entries are as they were at the start. -/
theorem sweep_visit {start : Rows} {ks : List (ν ×ₗ ℤ)} (hks : ks.Pairwise (· < ·)) {s : Progress}
    (hrows : (s.rows.map Row.rowid).Nodup) (hhalted : s.halted = false)
    (hentries : ∀ k ∈ ks, plan.entryAt rank backward inRange s.rows k =
      plan.entryAt rank backward inRange start k)
    (hkeys : ∀ k ∈ ks, (plan.rowAt rank backward inRange start k).isSome)
    (hundisturbed : plan.Undisturbed rank backward inRange s ks) :
    let chosen := (plan.chosenAt rank backward inRange start ks).map Row.rowid
    let final := OrderedScan.sweep (plan.visit rank backward inRange) s ks
    OrderedScan.Steady (fun s : Progress => plan.keys rank backward inRange s.rows)
        (plan.visit rank backward inRange) s ks ∧
      final = plan.updateRows s chosen ∧
      final.processed <+: s.processed ++ chosen ∧
      (final.halted = false → final.processed = s.processed ++ chosen) := by
  induction ks generalizing s with
  | nil => simp [OrderedScan.Steady, OrderedScan.sweep, updateRows, chosenAt]
  | cons k ks ih =>
    obtain ⟨hk, hks⟩ := pairwise_cons.1 hks
    obtain ⟨hentry, hentries⟩ := forall_mem_cons.1 hentries
    obtain ⟨hkey, hkeys⟩ := forall_mem_cons.1 hkeys
    obtain ⟨hcalm, hundisturbed⟩ := hundisturbed
    obtain ⟨row₀, hstart⟩ := Option.isSome_iff_exists.1 hkey
    rw [entryAt, entryAt, hstart] at hentry
    obtain ⟨row, hat, hwhere⟩ := Option.map_eq_some_iff.1 hentry
    obtain ⟨hrow, hscanned, hpos⟩ := (rowAt_eq_some_iff hrows).1 hat
    rw [OrderedScan.Steady, OrderedScan.sweep, chosenAt_cons hstart, ← hwhere]
    rw [visit_rowAt hreason hsafe hrows hat] at hundisturbed ⊢
    cases hsatisfied : plan.whereClause s.rows row with
    | false =>
      rw [hsatisfied] at hundisturbed
      obtain ⟨hsteady, hrest⟩ := ih hks hrows hhalted hentries hkeys hundisturbed
      refine ⟨?_, hrest⟩
      rintro pos ⟨⟩
      exact ⟨rfl, fun _ _ => Iff.rfl, hsteady⟩
    | true =>
      rw [hsatisfied] at hundisturbed
      have hsame : row₀.rowid = row.rowid :=
        rowid_eq_of_position ((position_rowAt hstart).trans hpos.symm)
      simp only [if_true, map_cons, updateRows, hsame, find?_rowid hrows hrow] at hundisturbed ⊢
      rcases process_cases hreason hsafe hrows hhalted hrow (hcalm row hat hsatisfied) with
        hhalt | ⟨hgoes, hprocessed, hrows', hahead⟩
      · simp [hhalt]
      · simp only [hgoes, Bool.false_eq_true, if_false]
        rw [hpos] at hahead
        obtain ⟨hsteady, hfinal, hprefix, hall⟩ := ih hks hrows' hgoes
          (fun k' hk' => (hahead k' (hk k' hk')).trans (hentries k' hk')) hkeys hundisturbed
        rw [hprocessed, append_assoc, singleton_append] at hprefix hall
        refine ⟨?_, hfinal, hprefix, hall⟩
        rintro pos ⟨⟩
        exact ⟨rfl, fun k' hk' => mem_keys_congr hrows hrows' (hahead k' hk'), hsteady⟩

end

end

def aliasKeyValue : List Column := [⟨true, none⟩, ⟨false, none⟩, ⟨false, none⟩]

def keyIndex : Index := ⟨[⟨1, none⟩], none⟩

def integerRank : List Value → ℤ
  | [.integer i] => i.toInt
  | _ => 0

def updateThroughKey (col : Nat) (value : Row → Value) : UpdatePlan where
  columns := aliasKeyValue
  graph := ⟨Digraph.closure (Digraph.dependents (directDeps aliasKeyValue) 3) [2, 1, 0], [2, 1, 0]⟩
  built := rfl
  op := .seek (some keyIndex)
  hasTriggers := false
  orReplace := false
  setClauses := [(col, fun _ => value)]
  whereClause _ row := row.stored 1 == .integer 5
  check _ _ _ := .write
  otherWrites _ _ _ := id
  distinct _ _ _ _ := id

def keyedRow (rowid : Int64) : Row := ⟨rowid, fun _ => .integer 5⟩

def follow (old new : Value) (r : Row) : Row :=
  if r.stored 2 = old then { r with stored := Function.update r.stored 2 new } else r

theorem follow_rowid (old new : Value) (r : Row) : (follow old new r).rowid = r.rowid := by
  rw [follow]
  split <;> rfl

theorem follow_stored_one (old new : Value) (r : Row) :
    (follow old new r).stored 1 = r.stored 1 := by
  rw [follow]
  split
  · exact Function.update_of_ne (show 1 ≠ 2 by decide) new r.stored
  · rfl

/-- `UPDATE t SET k = 6 WHERE k = 5` in a scan by rowid, with `v REFERENCES t(k) ON UPDATE CASCADE`:
the rows whose `v` is the old key are written too. -/
def cascadingUpdate : UpdatePlan where
  __ := updateThroughKey 1 fun _ => .integer 6
  op := .scan none
  otherWrites _ row new rows := rows.map (follow (row.stored 1) (new.stored 1))
  distinct _ row new rows h := by
    rw [map_map, show Row.rowid ∘ follow (row.stored 1) (new.stored 1) = Row.rowid from
      funext (follow_rowid _ _)]
    exact h

theorem cascadingUpdate_safe : cascadingUpdate.Safe := ⟨nofun, nofun⟩

theorem cascadingUpdate_calm (rows : Rows) (row : Row) (hrows : (rows.map Row.rowid).Nodup)
    (hrow : row ∈ rows) :
    cascadingUpdate.Calm integerRank false (fun _ _ => true) rows row := by
  refine calm_of_map rfl cascadingUpdate_safe hrows hrow rfl (fun r => rfl) (fun r => ?_)
    fun r => ?_
  · change toLex (integerRank [], (follow _ _ r).rowid.toInt) =
      toLex (integerRank [], r.rowid.toInt)
    rw [follow_rowid]
  · change ((follow _ _ r).stored 1 == Value.integer 5) = (r.stored 1 == Value.integer 5)
    rw [follow_stored_one]

end UpdatePlan

end PgMicro.Optimizer
