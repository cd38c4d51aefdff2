import PgMicro.BTree.SeekFinds
import PgMicro.Types.ValueOrder

/-!
# Tables and indexes

The dividers of a table tell the rowids on both sides apart but need not be rowids; those of an
index are entries. In both the search among the dividers of a page says what the way down has to
know, so a seek finds the boundary entry.
-/

namespace PgMicro.BTree

open Loop BTreeCursor Types Option List SeekOp

variable {e : List UInt8} {comparer : RecordCompare} {x rowid : Int64} {κ : Type}
  {root page right depth slot : Nat} {op : SeekOp} {eqSeen eqSeen' : Bool}

theorem eventually_seek {pages : Pages κ} {P : BTreeCursor × SeekResult → Prop}
    {seek : Nat → Option (BTreeCursor × SeekResult)} (answer : BTreeCursor × SeekResult)
    (hseek : ∃ rounds, ∀ fuel, rounds ≤ fuel →
      seek fuel = some answer)
    (hadvance : Eventually (fun fuel => advanceIfTold fuel pages op answer) P) :
    Eventually (fun fuel => (seek fuel).bind (advanceIfTold fuel pages op)) P := by
  obtain ⟨rounds, hseek⟩ := hseek
  obtain ⟨answer', hP, rounds', hadvance⟩ := hadvance
  refine ⟨answer', hP, max rounds rounds', fun fuel hfuel => ?_⟩
  dsimp only
  rw [hseek fuel (le_trans (le_max_left ..) hfuel), bind_some]
  exact hadvance fuel (le_trans (le_max_right ..) hfuel)

theorem finds_empty {pages : Pages κ} {cmp : κ → Ordering} (cur : BTreeCursor) :
    Finds pages root op cmp [] (cur, .notFound) := by
  have hboundary : boundary op cmp [] = none := by
    rw [boundary]
    cases op.iterationDirection <;> rfl
  refine ⟨hboundary.symm, ?_, by simp⟩
  rw [hboundary]
  intro e he
  cases he

theorem move_ends_empty {pages : Pages κ} (hpage : pages.page root = .leaf [])
    (probe : κ → Option (Bool × Bool)) (dir : IterationDirection) (cur : BTreeCursor) :
    Ends (moveStep pages probe dir) (cur.moveToRoot root, .start) (cur.moveToRoot root, false) := by
  apply Ends.stop
  simp [moveStep, moveToRoot, hpage]

theorem move_ends_root {pages : Pages κ} {cmp : κ → Ordering} {left eq : κ → Bool}
    {Good : Nat → Nat → Prop} {depth : Nat} (probe : κ → Option (Bool × Bool))
    (dir : IterationDirection) (cur : BTreeCursor) (hguided : Guided pages cmp op left eq Good)
    (hprobe : ∀ {depth page cells right}, Good (depth + 1) page →
      pages.page page = .interior cells right →
        ∀ cell ∈ cells, probe cell.2 = some (left cell.2, eq cell.2)) (hgood : Good depth root)
    (hsub : Subtree pages depth root) (hdepth : depth < btcursorMaxDepth) :
    ∃ leaf cells steps eqSeen, pages.page leaf = .leaf cells ∧ cells.length < 2 ^ 16 ∧ cells ≠ [] ∧
      Leads pages root 0 steps leaf ∧ steps.length < btcursorMaxDepth ∧
      Placed pages cmp op 0 steps eqSeen ∧ (eqSeen = true → ∃ x, eq x = true) ∧
      entries pages depth root = around pages steps cells ∧
      Ends (moveStep pages probe dir) (cur.moveToRoot root, .start)
        (⟨⟨leaf, -1, none⟩ :: steps.map (Step.node (retreats pages dir)), false, cur.hasRecord⟩,
          eqSeen) := by
  obtain ⟨leaf, cells, steps, eqSeen, hleaf, hsmall, hne, hleads, hlen, hplaced, hseen, hends⟩ :=
    move_ends dir false cur.hasRecord hguided hprobe hgood hsub
      (show Leads pages root depth [] root from rfl) hdepth ⟨by simp [before], by simp [after],
        by simp [before, after]⟩ (.inr ⟨rfl, rfl⟩)
  rw [length_nil, Nat.add_zero] at hlen
  refine ⟨leaf, cells, steps, eqSeen, hleaf, hsmall, hne, hleads, hlen ▸ hdepth, hplaced,
    fun h => (hseen h).resolve_left Bool.false_ne_true, ?_, hends⟩
  have hentries := hleads.entries_eq
  rw [hlen, Nat.zero_add, entries, hleaf] at hentries
  exact hentries

section

def Separated (pages : Pages Int64) : Nat → Nat → Prop
  | 0, _ => True
  | depth + 1, page => ∀ cells right, pages.page page = .interior cells right →
      (∀ i cell, cells[i]? = some cell →
        (∀ e ∈ leftOf pages depth cells (i + 1), e.toInt ≤ cell.2.toInt) ∧
          ∀ e ∈ rightOf pages depth cells right i, cell.2.toInt < e.toInt) ∧
        ∀ slot, Separated pages depth (childAt cells right slot)

structure TableTree (pages : Pages Int64) (root depth : Nat) : Prop where
  table : pages.isIndex = false
  tree : IsTree pages root depth
  sorted : (entries pages depth root).Pairwise fun a b => a.toInt < b.toInt
  separated : Separated pages depth root

variable {pages : Pages Int64}

def tableLeft (op : SeekOp) (rowid x : Int64) : Bool :=
  match op with
  | .gt => decide (rowid.toInt < x.toInt)
  | .ge _ | .le _ => decide (rowid.toInt ≤ x.toInt)
  | .lt => decide (rowid.toInt ≤ x.toInt + 1)

theorem tableProbe_eq (h : x.toInt + 1 < 2 ^ 63) :
    tableProbe op rowid x = some (tableLeft op rowid x, false) := by
  cases op with
  | lt => exact if_pos h
  | ge b | gt | le b => rfl

theorem low_of_le {e : Int64} (hleft : tableLeft op rowid x = false) (hle : e.toInt ≤ x.toInt) :
    op.low (compare e.toInt rowid.toInt) = true ∧
      (op.eqOnly = true → compare e.toInt rowid.toInt ≠ .eq) := by
  cases op with
  | gt =>
    have := of_decide_eq_false hleft
    refine ⟨?_, by simp [eqOnly]⟩
    rw [low, Std.isLE_compare]
    omega
  | ge b | le b =>
    have := of_decide_eq_false hleft
    rw [compare_lt_iff_lt.2 (show e.toInt < rowid.toInt by omega)]
    exact ⟨rfl, by simp⟩
  | lt =>
    have := of_decide_eq_false hleft
    rw [compare_lt_iff_lt.2 (show e.toInt < rowid.toInt by omega)]
    exact ⟨rfl, by simp⟩

theorem not_low_of_lt {e : Int64} (hleft : tableLeft op rowid x = true) (hlt : x.toInt < e.toInt) :
    op.low (compare e.toInt rowid.toInt) = false ∧
      (op.eqOnly = true → compare e.toInt rowid.toInt ≠ .eq) := by
  cases op with
  | gt | ge b | le b =>
    have := of_decide_eq_true hleft
    rw [compare_gt_iff_gt.2 (show e.toInt > rowid.toInt by omega)]
    exact ⟨rfl, by simp⟩
  | lt =>
    have := of_decide_eq_true hleft
    refine ⟨?_, by simp [eqOnly]⟩
    rw [low, Bool.eq_false_iff, ne_eq, Ordering.isLT_iff_eq_lt, compare_lt_iff_lt]
    omega

section

variable {cells : List (Nat × Int64)} (hsep : Separated pages (depth + 1) page)
  (hpage : pages.page page = .interior cells right)
  (hsearched : Searched (tableLeft op rowid) (fun _ => false) cells slot eqSeen eqSeen')

include hsep hpage hsearched

theorem table_low :
    ∀ e ∈ leftOf pages depth cells slot, op.low (compare e.toInt rowid.toInt) = true ∧
      (op.eqOnly = true → compare e.toInt rowid.toInt ≠ .eq) := by
  intro e he
  cases slot with
  | zero => cases he
  | succ i =>
    have hcell := getElem?_eq_getElem (Nat.lt_of_succ_le hsearched.slot_le)
    exact low_of_le (hsearched.front i _ rfl hcell).1
      (((hsep cells right hpage).1 i _ hcell).1 e he)

theorem table_high :
    ∀ e ∈ rightOf pages depth cells right slot, op.low (compare e.toInt rowid.toInt) = false ∧
      (op.eqOnly = true → compare e.toInt rowid.toInt ≠ .eq) := by
  intro e he
  rcases Nat.lt_or_eq_of_le hsearched.slot_le with hlt | rfl
  · have hcell := getElem?_eq_getElem hlt
    exact not_low_of_lt (hsearched.behind _ hcell).1
      (((hsep cells right hpage).1 slot _ hcell).2 e he)
  · rw [rightOf_length] at he
    cases he

end

theorem table_guided (op : SeekOp) (rowid : Int64) :
    Guided pages (fun e => compare e.toInt rowid.toInt) op (tableLeft op rowid) (fun _ => false)
      fun depth page => Subtree pages depth page ∧ Separated pages depth page where
  child hgood hpage slot := ⟨hgood.1.child hpage slot, (hgood.2 _ _ hpage).2 slot⟩
  low hgood hpage hsearched e he := (table_low hgood.2 hpage hsearched e he).1
  high hgood hpage hsearched e he := (table_high hgood.2 hpage hsearched e he).1
  seen hgood hpage hsearched heq := by
    constructor
    · intro hseen
      rcases hsearched.seen hseen with h | ⟨cell, -, h⟩
      · exact .inl h
      · cases h
    · rintro (h | ⟨e, he, hcmp⟩)
      · exact hsearched.kept h
      · rcases mem_append.1 he with he | he
        · exact absurd hcmp ((table_low hgood.2 hpage hsearched e he).2 heq)
        · exact absurd hcmp ((table_high hgood.2 hpage hsearched e he).2 heq)

theorem table_probe {cells : List (Nat × Int64)}
    (hgood : Subtree pages (depth + 1) page ∧ Separated pages (depth + 1) page)
    (hpage : pages.page page = .interior cells right) :
    ∀ cell ∈ cells, tableProbe op rowid cell.2 = some (tableLeft op rowid cell.2, false) := by
  intro cell hcell
  obtain ⟨i, hcell⟩ := getElem?_of_mem hcell
  obtain ⟨hlt, -⟩ := List.getElem?_eq_some_iff.1 hcell
  obtain ⟨e, he⟩ := exists_mem_of_ne_nil _ (hgood.1.child hpage (i + 1)).entries_ne_nil
  have hmem : e ∈ rightOf pages depth cells right i := by
    rw [rightOf_eq hlt]
    exact mem_append_right _ (mem_append_left _ he)
  have hgreater := ((hgood.2 cells right hpage).1 i cell hcell).2 e hmem
  have hbound := e.toInt_lt
  exact tableProbe_eq (by omega)

theorem ascends_of_rowid (rowid : Int64) {a b : Int64} (h : a.toInt < b.toInt) :
    Ascends (compare a.toInt rowid.toInt) (compare b.toInt rowid.toInt) := by
  rw [Ascends, compare_gt_iff_gt, compare_gt_iff_gt, compare_lt_iff_lt, compare_lt_iff_lt]
  omega

theorem table_seek_finds (htree : TableTree pages root depth) (cur : BTreeCursor) (rowid : Int64)
    (op : SeekOp) :
    Eventually (fun fuel => (tablebtreeSeek fuel pages root cur rowid op).bind
        (advanceIfTold fuel pages op))
      (Finds pages root op (fun e => compare e.toInt rowid.toInt) (entries pages depth root)) := by
  obtain ⟨hdepth, hsub | ⟨rfl, hempty⟩⟩ := htree.tree
  · obtain ⟨leaf, cells, steps, eqSeen, hleaf, hsmall, hne, hleads, hroom, hplaced, hseen, hentries,
      rounds, hmove⟩ := move_ends_root (tableProbe op rowid) op.iterationDirection cur
        (table_guided op rowid) table_probe ⟨hsub, htree.separated⟩ hsub hdepth
    obtain rfl : eqSeen = false := by
      by_contra hne
      obtain ⟨x, hx⟩ := hseen (Bool.not_eq_false _ ▸ hne)
      cases hx
    have hsorted := htree.sorted
    rw [hentries] at hsorted ⊢
    have hcells := (pairwise_append.1 (pairwise_append.1 hsorted).1).2.1
    have hasc := hsorted.imp (ascends_of_rowid rowid)
    obtain ⟨idx, hasRecord, result, hanswers, hrecord, rounds', hleafEnds⟩ :=
      tableLeaf_ends op leaf none
        (steps.map (Step.node (retreats pages op.iterationDirection))) false hcells
        (hcells.imp (ascends_of_rowid rowid)) (narrowed_initial false) (-1) cur.hasRecord
    refine eventually_seek _ ⟨max rounds rounds', fun fuel hfuel => ?_⟩
      (finds_of_answers hplaced hasc hleaf hsmall hleads hroom hanswers hrecord)
    rw [tablebtreeSeek, hmove fuel (le_trans (le_max_left ..) hfuel)]
    simp only [leafCells, hleaf, bind_eq_bind, bind_some, if_neg hne]
    exact hleafEnds fuel (le_trans (le_max_right ..) hfuel)
  · refine eventually_seek ((cur.moveToRoot root).setCellIndex 0, .notFound) ?_
      ⟨_, ?_, 0, fun _ _ => rfl⟩
    · obtain ⟨rounds, hmove⟩ := move_ends_empty hempty (tableProbe op rowid)
        op.iterationDirection cur
      refine ⟨rounds, fun fuel hfuel => ?_⟩
      rw [tablebtreeSeek, hmove fuel hfuel]
      simp [leafCells, moveToRoot, hempty]
    · rw [entries, hempty]
      exact finds_empty _

end

theorem SeekOp.isEq_tie (heq : op.eqOnly = true) (x : Ordering) :
    (x.then op.tieBreaker).isEq = true ↔ x = .eq := by
  decide +revert

theorem SeekOp.eq_of_low {x : Ordering} (heq : op.eqOnly = true) (hasc : Ascends .eq x)
    (hlow : op.low x = true) (h : op.low .eq = true) : x = .eq := by
  rw [Ascends] at hasc
  decide +revert

theorem SeekOp.eq_of_not_low {x : Ordering} (heq : op.eqOnly = true) (hasc : Ascends x .eq)
    (hlow : op.low x = false) (h : op.low .eq = false) : x = .eq := by
  rw [Ascends] at hasc
  decide +revert

theorem Ascends.refl (x : Ordering) : Ascends x x := ⟨id, id⟩

section

variable {pages : Pages κ} {cells : List (Nat × κ)}

theorem leftOf_index (depth : Nat) (hindex : pages.isIndex = true) {i : Nat}
    (hlt : i < cells.length) :
    ∃ rest, leftOf pages depth cells (i + 1) = rest ++ [(cells.get ⟨i, hlt⟩).2] := by
  rw [leftOf_succ 0 hlt, divider, if_pos hindex]
  exact ⟨_, (append_assoc ..).symm⟩

theorem rightOf_index (depth right : Nat) (hindex : pages.isIndex = true)
    (hlt : slot < cells.length) :
    ∃ rest, rightOf pages depth cells right slot = (cells.get ⟨slot, hlt⟩).2 :: rest := by
  rw [rightOf_eq hlt, divider, if_pos hindex]
  exact ⟨_, rfl⟩

theorem mem_sides (depth right : Nat) (hindex : pages.isIndex = true) {cell : Nat × κ}
    (hcell : cell ∈ cells) (hslot : slot ≤ cells.length) :
    cell.2 ∈ leftOf pages depth cells slot ++ rightOf pages depth cells right slot := by
  rw [mem_append]
  rw [← take_append_drop slot cells, mem_append] at hcell
  rcases hcell with hcell | hcell
  · left
    rw [leftOf, mem_flatMap]
    exact ⟨cell, hcell, mem_append_right _ (mem_divider.2 ⟨hindex, rfl⟩)⟩
  right
  rcases Nat.lt_or_eq_of_le hslot with hlt | rfl
  · rw [drop_eq_getElem_cons hlt, mem_cons] at hcell
    rw [rightOf, getElem?_eq_getElem hlt]
    rcases hcell with rfl | hcell
    · simp [hindex]
    · simp only [mem_append, mem_flatMap, mem_divider]
      exact .inl (.inr ⟨cell, hcell, .inr ⟨hindex, rfl⟩⟩)
  · simp at hcell

end

section

def rowOf (payload : List UInt8) : List Value :=
  match getValues payload with
  | .ok values => values
  | .error _ => []

variable [UncasedStr]

structure IndexTree (pages : Pages (List UInt8)) (indexInfo : IndexInfo) (root depth : Nat) :
    Prop where
  index : pages.isIndex = true
  tree : IsTree pages root depth
  columns : indexInfo.keyInfo ≠ []
  records : ∀ e ∈ entries pages depth root,
    ∃ cols, IsRecord cols e ∧ indexInfo.keyInfo.length ≤ cols.length
  sorted : (entries pages depth root).Pairwise fun a b =>
    lexCompare .eq (rowOf a) (rowOf b) indexInfo.keyInfo = .lt

def keyCompare (indexInfo : IndexInfo) (keyValues : List Value) (e : List UInt8) : Ordering :=
  lexCompare .eq (rowOf e) keyValues indexInfo.keyInfo

omit [UncasedStr] in
theorem rowOf_isRecord {cols : List Column} (h : IsRecord cols e) :
    rowOf e = cols.map Column.value := by
  rw [rowOf, h.getValues]

theorem lexCompare_then (tie : Ordering) (ls rs : List Value) (keys : List KeyInfo) :
    lexCompare tie ls rs keys = (lexCompare .eq ls rs keys).then tie := by
  rw [lexCompare_eq_then, lexCompare_eq_then .eq]
  cases compareImmutable.go ls rs keys <;> rfl

variable {pages : Pages (List UInt8)} {indexInfo : IndexInfo} {keyValues : List Value}

theorem compareUnwrap_eq (hkey : keyValues ≠ []) (hcolumns : indexInfo.keyInfo ≠ []) :
    ∃ comparer, findCompare keyValues indexInfo = .ok comparer ∧
      ∀ op : SeekOp, ∀ cols e, IsRecord cols e → compareUnwrap comparer keyValues indexInfo op e =
        some ((keyCompare indexInfo keyValues e).then op.tieBreaker) := by
  obtain ⟨comparer, hcomparer, -⟩ :=
    findCompare_eq keyValues indexInfo .eq isRecord_five hkey hcolumns
  refine ⟨comparer, hcomparer, fun op cols e he => ?_⟩
  obtain ⟨comparer', hcomparer', hcompare⟩ :=
    findCompare_eq keyValues indexInfo op.tieBreaker he hkey hcolumns
  rw [hcomparer] at hcomparer'
  cases hcomparer'
  rw [compareUnwrap, hcompare, keyCompare, rowOf_isRecord he, lexCompare_then]
  rfl

variable (pages indexInfo keyValues) in
structure IndexBelow (depth page : Nat) : Prop where
  records : ∀ e ∈ entries pages depth page, ∃ cols, IsRecord cols e
  ascends : (entries pages depth page).Pairwise fun a b =>
    Ascends (keyCompare indexInfo keyValues a) (keyCompare indexInfo keyValues b)

theorem IndexBelow.child {cells : List (Nat × List UInt8)}
    (h : IndexBelow pages indexInfo keyValues (depth + 1) page)
    (hpage : pages.page page = .interior cells right) (slot : Nat) :
    IndexBelow pages indexInfo keyValues depth (childAt cells right slot) := by
  obtain ⟨hrecords, hascends⟩ := h
  rw [entries_split hpage slot] at hrecords hascends
  refine ⟨fun e he => hrecords e ?_, (pairwise_append.1 (pairwise_append.1 hascends).1).2.1⟩
  exact mem_append_left _ (mem_append_right _ he)

def indexLeft (op : SeekOp) (x : Ordering) : Bool := !op.low x

theorem indexProbe_eq {op : SeekOp} {x : Ordering}
    (h : compareUnwrap comparer keyValues indexInfo op e = some (x.then op.tieBreaker)) :
    indexProbe comparer keyValues indexInfo op e =
      some (indexLeft op x, (x.then op.tieBreaker).isEq) := by
  rw [indexProbe, h]
  simp only [bind_eq_bind, bind_some, some.injEq, Prod.mk.injEq]
  clear h
  decide +revert

section

variable {cells : List (Nat × List UInt8)} (hindex : pages.isIndex = true)
  (hbelow : IndexBelow pages indexInfo keyValues (depth + 1) page)
  (hpage : pages.page page = .interior cells right)

include hindex hbelow hpage

theorem index_front (hslot : slot ≤ cells.length) (he : e ∈ leftOf pages depth cells slot) :
    ∃ i cell, i + 1 = slot ∧ cells[i]? = some cell ∧
      Ascends (keyCompare indexInfo keyValues e) (keyCompare indexInfo keyValues cell.2) := by
  cases slot with
  | zero => cases he
  | succ i =>
    have hascends := hbelow.ascends
    obtain ⟨rest, hrest⟩ := leftOf_index depth hindex (Nat.lt_of_succ_le hslot)
    rw [entries_split hpage (i + 1), hrest] at hascends
    replace hascends := (pairwise_append.1 (pairwise_append.1 hascends).1).1
    refine ⟨i, _, rfl, getElem?_eq_getElem (Nat.lt_of_succ_le hslot), ?_⟩
    rw [hrest, mem_append, mem_singleton] at he
    rcases he with he | rfl
    · exact (pairwise_append.1 hascends).2.2 e he _ (mem_singleton_self _)
    · exact .refl _

theorem index_behind (hslot : slot ≤ cells.length) (he : e ∈ rightOf pages depth cells right slot) :
    ∃ cell, cells[slot]? = some cell ∧
      Ascends (keyCompare indexInfo keyValues cell.2) (keyCompare indexInfo keyValues e) := by
  rcases Nat.lt_or_eq_of_le hslot with hlt | rfl
  · have hascends := hbelow.ascends
    obtain ⟨rest, hrest⟩ := rightOf_index depth right hindex hlt
    rw [entries_split hpage slot, hrest] at hascends
    replace hascends := (pairwise_append.1 hascends).2.1
    refine ⟨_, getElem?_eq_getElem hlt, ?_⟩
    rw [hrest, mem_cons] at he
    rcases he with rfl | he
    · exact .refl _
    · exact rel_of_pairwise_cons hascends he
  · rw [rightOf_length] at he
    cases he

variable (hsearched : Searched (fun e => indexLeft op (keyCompare indexInfo keyValues e))
  (fun e => ((keyCompare indexInfo keyValues e).then op.tieBreaker).isEq) cells slot eqSeen eqSeen')

include hsearched

theorem index_low :
    ∀ e ∈ leftOf pages depth cells slot, op.low (keyCompare indexInfo keyValues e) = true := by
  intro e he
  obtain ⟨i, cell, hi, hcell, hasc⟩ := index_front hindex hbelow hpage hsearched.slot_le he
  exact low_of_ascends hasc (by simpa [indexLeft] using (hsearched.front i cell hi hcell).1)

theorem index_high : ∀ e ∈ rightOf pages depth cells right slot,
    op.low (keyCompare indexInfo keyValues e) = false := by
  intro e he
  obtain ⟨cell, hcell, hasc⟩ := index_behind hindex hbelow hpage hsearched.slot_le he
  have hhigh : op.low (keyCompare indexInfo keyValues cell.2) = false := by
    simpa [indexLeft] using (hsearched.behind cell hcell).1
  by_contra hne
  rw [low_of_ascends hasc (Bool.not_eq_false _ ▸ hne)] at hhigh
  cases hhigh

/-- An exact search sees an equal divider whenever there is an equal entry on either side: the
divider next to the child is then equal, and it has been compared. -/
theorem index_seen (heq : op.eqOnly = true) : eqSeen' = true ↔ eqSeen = true ∨
    ∃ e ∈ leftOf pages depth cells slot ++ rightOf pages depth cells right slot,
      keyCompare indexInfo keyValues e = .eq := by
  have htie := isEq_tie heq
  constructor
  · intro hseen
    rcases hsearched.seen hseen with h | ⟨cell, hcell, h⟩
    · exact .inl h
    · exact .inr ⟨cell.2, mem_sides _ _ hindex hcell hsearched.slot_le, (htie _).1 h⟩
  · rintro (h | ⟨e, he, hcmp⟩)
    · exact hsearched.kept h
    rcases mem_append.1 he with he | he
    · have hlow := index_low hindex hbelow hpage hsearched e he
      obtain ⟨i, cell, hi, hcell, hasc⟩ := index_front hindex hbelow hpage hsearched.slot_le he
      obtain ⟨hleft, hseen⟩ := hsearched.front i cell hi hcell
      rw [hcmp] at hlow hasc
      exact hseen ((htie _).2 (eq_of_low heq hasc (by simpa [indexLeft] using hleft) hlow))
    · have hhigh := index_high hindex hbelow hpage hsearched e he
      obtain ⟨cell, hcell, hasc⟩ := index_behind hindex hbelow hpage hsearched.slot_le he
      obtain ⟨hleft, hseen⟩ := hsearched.behind cell hcell
      rw [hcmp] at hhigh hasc
      exact hseen ((htie _).2
        (eq_of_not_low heq hasc (by simpa [indexLeft] using hleft) hhigh))

end

theorem index_probe {cells : List (Nat × List UInt8)} (hindex : pages.isIndex = true)
    (hbelow : IndexBelow pages indexInfo keyValues (depth + 1) page)
    (hpage : pages.page page = .interior cells right)
    (hcompare : ∀ cols e, IsRecord cols e → compareUnwrap comparer keyValues indexInfo op e =
      some ((keyCompare indexInfo keyValues e).then op.tieBreaker)) :
    ∀ cell ∈ cells, indexProbe comparer keyValues indexInfo op cell.2 =
      some (indexLeft op (keyCompare indexInfo keyValues cell.2),
        ((keyCompare indexInfo keyValues cell.2).then op.tieBreaker).isEq) := by
  intro cell hcell
  have hside := mem_sides depth right hindex hcell (Nat.le_refl cells.length)
  rw [rightOf_length, append_nil] at hside
  have hmem : cell.2 ∈ entries pages (depth + 1) page := by
    rw [entries_split hpage cells.length, rightOf_length, append_nil]
    exact mem_append_left _ hside
  obtain ⟨cols, hcols⟩ := hbelow.records cell.2 hmem
  exact indexProbe_eq (hcompare cols cell.2 hcols)

theorem index_guided (hindex : pages.isIndex = true) (op : SeekOp) :
    Guided pages (keyCompare indexInfo keyValues) op
      (fun e => indexLeft op (keyCompare indexInfo keyValues e))
      (fun e => ((keyCompare indexInfo keyValues e).then op.tieBreaker).isEq)
      (IndexBelow pages indexInfo keyValues) where
  child hbelow hpage := hbelow.child hpage
  low hbelow hpage hsearched := index_low hindex hbelow hpage hsearched
  high hbelow hpage hsearched := index_high hindex hbelow hpage hsearched
  seen hbelow hpage hsearched := index_seen hindex hbelow hpage hsearched

theorem index_seek_finds (htree : IndexTree pages indexInfo root depth) (cur : BTreeCursor)
    {key : List UInt8} (hvalues : getValues key = .ok keyValues) (hne : keyValues ≠ [])
    (op : SeekOp) :
    Eventually (fun fuel => (indexbtreeSeek fuel pages root indexInfo cur key op).bind
        (advanceIfTold fuel pages op))
      (Finds pages root op (keyCompare indexInfo keyValues) (entries pages depth root)) := by
  obtain ⟨comparer, hcomparer, hcompare⟩ := compareUnwrap_eq hne htree.columns
  have hseek (fuel : Nat) : indexbtreeSeek fuel pages root indexInfo cur key op =
      indexbtreeSeekInternal fuel pages root indexInfo cur comparer keyValues op := by
    rw [indexbtreeSeek, hvalues]
    change ((findCompare keyValues indexInfo).toOption.bind fun comparer => _) = _
    rw [hcomparer]
    rfl
  simp only [hseek]
  obtain ⟨hdepth, hsub | ⟨rfl, hempty⟩⟩ := htree.tree
  · have hbelow : IndexBelow pages indexInfo keyValues depth root := by
      refine ⟨fun e he => ?_, ?_⟩
      · obtain ⟨cols, hcols, -⟩ := htree.records e he
        exact ⟨cols, hcols⟩
      · refine htree.sorted.imp_of_mem fun {a b} ha hb hlt => ?_
        obtain ⟨cols, hcols, hlen⟩ := htree.records a ha
        obtain ⟨cols', hcols', hlen'⟩ := htree.records b hb
        exact lexCompare_ascends (by rw [rowOf_isRecord hcols, length_map]; exact hlen)
          (by rw [rowOf_isRecord hcols', length_map]; exact hlen') hlt keyValues
    obtain ⟨leaf, cells, steps, eqSeen, hleaf, hsmall, hne, hleads, hroom, hplaced, -, hentries,
      rounds, hmove⟩ := move_ends_root (indexProbe comparer keyValues indexInfo op)
        op.iterationDirection cur (index_guided htree.index op)
        (fun hbelow hpage => index_probe htree.index hbelow hpage (hcompare op)) hbelow hsub hdepth
    have hascends := hbelow.ascends
    have hrecords := hbelow.records
    rw [hentries] at hascends hrecords ⊢
    have hcells := (pairwise_append.1 (pairwise_append.1 hascends).1).2.1
    obtain ⟨idx, hasRecord, result, hanswers, hrecord, rounds', hleafEnds⟩ :=
      indexLeaf_ends op leaf none (steps.map (Step.node (retreats pages op.iterationDirection)))
        false (fun x hx => by
          obtain ⟨cols, hcols⟩ := hrecords x
            (mem_append_left _ (mem_append_right _ hx))
          exact hcompare op cols x hcols) hcells (narrowed_initial eqSeen) (-1) cur.hasRecord
    refine eventually_seek _ ⟨max rounds rounds', fun fuel hfuel => ?_⟩
      (finds_of_answers hplaced hascends hleaf hsmall hleads hroom hanswers hrecord)
    rw [indexbtreeSeekInternal, hmove fuel (le_trans (le_max_left ..) hfuel)]
    simp only [leafCells, hleaf, bind_eq_bind, bind_some, if_neg hne]
    exact hleafEnds fuel (le_trans (le_max_right ..) hfuel)
  · refine eventually_seek (cur.moveToRoot root, .notFound) ?_ ⟨_, ?_, 0, fun _ _ => rfl⟩
    · obtain ⟨rounds, hmove⟩ := move_ends_empty hempty
        (indexProbe comparer keyValues indexInfo op) op.iterationDirection cur
      refine ⟨rounds, fun fuel hfuel => ?_⟩
      rw [indexbtreeSeekInternal, hmove fuel hfuel]
      simp [leafCells, moveToRoot, hempty]
    · rw [entries, hempty]
      exact finds_empty _

end

/-- In every table and every index, a seek with one step in its direction where it asks for it leads
to the boundary entry, for every key and operator. -/
theorem seek_finds_boundary [UncasedStr] :
    (∀ (pages : Pages Int64) (root depth : Nat), TableTree pages root depth →
      ∀ (cur : BTreeCursor) (rowid : Int64) (op : SeekOp),
        Eventually (fun fuel => (tablebtreeSeek fuel pages root cur rowid op).bind
            (advanceIfTold fuel pages op))
          (Finds pages root op (fun e => compare e.toInt rowid.toInt) (entries pages depth root))) ∧
    (∀ (pages : Pages (List UInt8)) (indexInfo : IndexInfo) (root depth : Nat),
      IndexTree pages indexInfo root depth →
      ∀ (cur : BTreeCursor) (key : List UInt8) (keyValues : List Value),
        getValues key = .ok keyValues → keyValues ≠ [] → ∀ op : SeekOp,
        Eventually (fun fuel => (indexbtreeSeek fuel pages root indexInfo cur key op).bind
            (advanceIfTold fuel pages op))
          (Finds pages root op (keyCompare indexInfo keyValues) (entries pages depth root))) :=
  ⟨fun _ _ _ htree cur rowid op => table_seek_finds htree cur rowid op,
    fun _ _ _ _ htree cur _ _ hvalues hne op => index_seek_finds htree cur hvalues hne op⟩

def staleDivider : Pages Int64 where
  isIndex := false
  page
    | 1 => .interior [(2, 5)] 3
    | 2 => .leaf [1, 3]
    | 3 => .leaf [7, 9]
    | _ => .leaf []

theorem staleDivider_tree : TableTree staleDivider 1 1 where
  table := rfl
  tree := by
    refine ⟨by decide, .inl ⟨[(2, 5)], 3, rfl, by decide, ?_, [7, 9], rfl, by decide, by decide⟩⟩
    intro cell hcell
    obtain rfl := mem_singleton.1 hcell
    exact ⟨[1, 3], rfl, by decide, by decide⟩
  sorted := by decide
  separated := by
    intro cells right hpage
    cases hpage
    refine ⟨fun i cell hcell => ?_, fun slot => trivial⟩
    cases i with
    | zero =>
      cases hcell
      exact ⟨forall_iff_forall_mem.1 (by decide), forall_iff_forall_mem.1 (by decide)⟩
    | succ i => cases hcell

def twoLeaves : Pages (List UInt8) where
  isIndex := true
  page
    | 1 => .interior [(2, [2, 1, 5])] 3
    | 2 => .leaf [[2, 1, 3]]
    | 3 => .leaf [[2, 1, 7]]
    | _ => .leaf []

theorem isRecord_byte (b : UInt8) : IsRecord [⟨⟨1, by decide⟩, [b], by decide, rfl⟩] [2, 1, b] :=
  ⟨2, by decide, rfl, rfl⟩

local instance : UncasedStr := .lowercase

theorem twoLeaves_tree : IndexTree twoLeaves ⟨[⟨.asc, .binary⟩], 1⟩ 1 1 where
  index := rfl
  tree := by
    refine ⟨by decide, .inl ⟨[(2, [2, 1, 5])], 3, rfl, by decide, ?_, [[2, 1, 7]], rfl, by decide,
      by decide⟩⟩
    intro cell hcell
    obtain rfl := mem_singleton.1 hcell
    exact ⟨[[2, 1, 3]], rfl, by decide, by decide⟩
  columns := cons_ne_nil _ _
  records := by
    intro e he
    have hall : entries twoLeaves 1 1 = [[2, 1, 3], [2, 1, 5], [2, 1, 7]] := rfl
    rw [hall] at he
    simp only [mem_cons, not_mem_nil, or_false] at he
    rcases he with rfl | rfl | rfl <;> exact ⟨_, isRecord_byte _, Nat.le_refl _⟩
  sorted := by
    have hrow (b : UInt8) : rowOf [2, 1, b] = [.integer (Int64.ofInt (Codec.signedBE [b]))] :=
      rowOf_isRecord (isRecord_byte b)
    have hall : entries twoLeaves 1 1 = [[2, 1, 3], [2, 1, 5], [2, 1, 7]] := rfl
    rw [hall]
    simp only [pairwise_cons, mem_cons, not_mem_nil, or_false, forall_eq_or_imp, forall_eq, hrow,
      false_implies, implies_true, List.Pairwise.nil]
    decide

theorem seek_finds_boundary_staleDivider :
    (∃ fuel answer, (tablebtreeSeek fuel staleDivider 1 ⟨[], false, false⟩ 4 (.ge false)).bind
      (advanceIfTold fuel staleDivider (.ge false)) = some answer ∧
      reported staleDivider answer = some 7) ∧
    ∃ fuel answer, (indexbtreeSeek fuel twoLeaves 1 ⟨[⟨.asc, .binary⟩], 1⟩ ⟨[], false, false⟩
      [2, 1, 5] (.ge true)).bind (advanceIfTold fuel twoLeaves (.ge true)) = some answer ∧
      answer.2 ≠ .notFound := by
  constructor
  · obtain ⟨answer, hfinds, rounds, hrounds⟩ := seek_finds_boundary.1 staleDivider 1 1
      staleDivider_tree ⟨[], false, false⟩ 4 (.ge false)
    exact ⟨rounds, answer, hrounds rounds (Nat.le_refl _), hfinds.reports⟩
  · obtain ⟨answer, hfinds, rounds, hrounds⟩ := seek_finds_boundary.2 twoLeaves
      ⟨[⟨.asc, .binary⟩], 1⟩ 1 1 twoLeaves_tree ⟨[], false, false⟩ [2, 1, 5]
      [.integer (Int64.ofInt (Codec.signedBE [5]))] (isRecord_byte 5).getValues
      (cons_ne_nil _ _) (.ge true)
    refine ⟨rounds, answer, hrounds rounds (Nat.le_refl _), (hfinds.exact_iff rfl).2 ?_⟩
    refine ⟨[2, 1, 5], by decide, ?_⟩
    rw [keyCompare, rowOf_isRecord (isRecord_byte 5)]
    decide

end PgMicro.BTree
