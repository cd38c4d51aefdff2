import PgMicro.BTree.TableTree

/-!
# A page on which the check finds nothing

The check only adds errors. Where there are none at the end, every step was quiet, and a quiet
step says what it compared and which pages it put on the stack.
-/

namespace PgMicro.BTree

open List BTreeCell Option

structure Pushed (s s' : CheckState) (entries : List Entry) : Prop where
  errors : s.errors = []
  stack : s'.pageStack = entries.reverse ++ s.pageStack
  fresh : ∀ e ∈ entries, s.pageReference e.pageIdx = none
  nodup : (entries.map Entry.pageIdx).Nodup
  reference : ∀ p, s'.pageReference p = none ↔
    s.pageReference p = none ∧ p ∉ entries.map Entry.pageIdx
  level : ∀ l, s.firstLeafLevel = some l → s'.firstLeafLevel = some l

namespace Pushed

variable {s s1 s2 : CheckState} {entries entries' : List Entry}

theorem refl (h : s.errors = []) : Pushed s s [] :=
  ⟨h, rfl, nofun, nodup_nil, by simp, fun _ h => h⟩

theorem trans (h : Pushed s s1 entries) (h' : Pushed s1 s2 entries') :
    Pushed s s2 (entries ++ entries') where
  errors := h.errors
  stack := by rw [h'.stack, h.stack, reverse_append, append_assoc]
  fresh := by
    intro e he
    rcases mem_append.1 he with he | he
    · exact h.fresh e he
    · exact ((h.reference _).1 (h'.fresh e he)).1
  nodup := by
    rw [map_append, nodup_append]
    refine ⟨h.nodup, h'.nodup, ?_⟩
    rintro p hp _ hp' rfl
    obtain ⟨e, he, rfl⟩ := mem_map.1 hp'
    exact ((h.reference _).1 (h'.fresh e he)).2 hp
  reference := by
    intro p
    rw [h'.reference, h.reference, map_append, mem_append, not_or, and_assoc]
  level := fun l hl => h'.level l (h.level l hl)

end Pushed

variable {entry : Entry} {blocks : List (Nat × Nat)} {s s' : CheckState}
  {contentArea usableSpace cellIdx pc rounds lastEnd total : Nat} {page : Page}

open CheckState

section

theorem error_errors_ne (s : CheckState) (e : IntegrityCheckError) : (s.error e).errors ≠ [] :=
  append_ne_nil_of_right_ne_nil _ (cons_ne_nil _ _)

theorem pushPage_quiet {by' : Nat} (h : (s.pushPage entry by').errors = []) :
    Pushed s (s.pushPage entry by') [entry] := by
  rw [pushPage] at h ⊢
  split at h
  next hfresh =>
    refine ⟨h, rfl, ?_, nodup_singleton _, ?_, fun _ h => h⟩
    · intro e he
      rw [mem_singleton.1 he, hfresh]
    · intro p
      simp only [map_singleton, Function.update_apply]
      split
      · simp [*]
      · simp [*]
  · exact absurd h (error_errors_ne _ _)

theorem pushOverflow_quiet {payloadSize localSize : Nat} {overflow : Option Nat}
    (h : (s.pushOverflow entry payloadSize localSize usableSpace overflow).errors = []) :
    Pushed s (s.pushOverflow entry payloadSize localSize usableSpace overflow)
      (overflow.toList.map (overflowEntry entry payloadSize localSize usableSpace)) := by
  cases overflow with
  | none => exact .refl h
  | some first => exact pushPage_quiet h

theorem checkLevel_quiet (h : (s.checkLevel entry).errors = []) :
    Pushed s (s.checkLevel entry) [] ∧ (s.checkLevel entry).firstLeafLevel = some entry.level := by
  rw [checkLevel] at h ⊢
  split at h
  next expected hexpected =>
    simp only [ite_not] at h ⊢
    split at h
    next heq =>
      rw [if_pos heq]
      exact ⟨.refl h, heq ▸ hexpected⟩
    · exact absurd h (error_errors_ne _ _)
  next hnone =>
    refine ⟨⟨h, rfl, nofun, nodup_nil, by simp, ?_⟩, rfl⟩
    intro l hl
    rw [hnone] at hl
    cases hl

theorem checkRowid_quiet {rowid nextRowid : Int}
    (h : (s.checkRowid entry cellIdx rowid nextRowid).errors = []) :
    s.checkRowid entry cellIdx rowid nextRowid = s ∧ rowid ≤ entry.maxIntkey ∧
      rowid ≤ nextRowid := by
  rw [checkRowid] at h ⊢
  split at h
  · exact absurd h (error_errors_ne _ _)
  next hle =>
    rw [if_neg hle]
    exact ⟨rfl, by omega, by omega⟩

theorem checkRegion_quiet {cellStart cellLength : Nat}
    (h : (s.checkRegion entry cellIdx cellStart cellLength contentArea usableSpace).errors = []) :
    s.checkRegion entry cellIdx cellStart cellLength contentArea usableSpace = s ∧
      contentArea ≤ cellStart ∧ cellStart + cellLength ≤ usableSpace := by
  rw [checkRegion] at h ⊢
  split at h
  · exact absurd h (error_errors_ne _ _)
  next hend =>
    split at h
    · exact absurd h (error_errors_ne _ _)
    next hstart =>
      rw [if_neg hstart, if_neg hend]
      exact ⟨rfl, by omega, by omega⟩

end

namespace BTreeCell

def key? : BTreeCell → Option Int
  | .tableInterior _ rowid => some rowid
  | .tableLeaf rowid .. => some rowid
  | _ => none

def isLeaf : BTreeCell → Bool
  | .tableLeaf .. | .indexLeaf .. => true
  | _ => false

def entries (entry : Entry) (usableSpace : Nat) : BTreeCell → List Entry
  | .tableInterior leftChildPage rowid => [childEntry entry leftChildPage rowid]
  | .tableLeaf _ payloadSize localSize overflow | .indexLeaf payloadSize localSize overflow =>
    overflow.toList.map (overflowEntry entry payloadSize localSize usableSpace)
  | .indexInterior leftChildPage payloadSize localSize overflow =>
    childEntry entry leftChildPage entry.maxIntkey ::
      overflow.toList.map (overflowEntry entry payloadSize localSize usableSpace)

end BTreeCell

section

variable {cell : BTreeCell} {nextRowid : Int}

structure QuietCell (entry : Entry) (usableSpace : Nat) (cell : BTreeCell) (s s' : CheckState)
    (nextRowid nextRowid' : Int) : Prop where
  pushed : Pushed s s' (cell.entries entry usableSpace)
  bound : ∀ key ∈ cell.key?, key ≤ entry.maxIntkey ∧ key ≤ nextRowid
  next : nextRowid' = cell.key?.getD nextRowid
  leaf : cell.isLeaf = true → s'.firstLeafLevel = some entry.level

theorem checkCell_quiet (h : (checkCell entry usableSpace cellIdx cell s nextRowid).1.errors = []) :
    QuietCell entry usableSpace cell s (checkCell entry usableSpace cellIdx cell s nextRowid).1
      nextRowid (checkCell entry usableSpace cellIdx cell s nextRowid).2 := by
  cases cell with
  | tableInterior leftChildPage rowid =>
    obtain ⟨heq, hmax, hnext⟩ := checkRowid_quiet h
    simp only [checkCell] at h ⊢
    rw [heq] at h ⊢
    refine ⟨pushPage_quiet h, ?_, rfl, nofun⟩
    rintro key hkey
    cases hkey
    exact ⟨hmax, hnext⟩
  | tableLeaf rowid payloadSize localSize overflow =>
    simp only [checkCell] at h ⊢
    have hpushed := pushOverflow_quiet h
    obtain ⟨heq, hmax, hnext⟩ := checkRowid_quiet hpushed.errors
    have herrors := hpushed.errors
    rw [heq] at herrors hpushed ⊢
    obtain ⟨hlevel, hfirst⟩ := checkLevel_quiet herrors
    refine ⟨hlevel.trans hpushed, ?_, rfl, fun _ => hpushed.level _ hfirst⟩
    rintro key hkey
    cases hkey
    exact ⟨hmax, hnext⟩
  | indexInterior leftChildPage payloadSize localSize overflow =>
    have hpushed := pushOverflow_quiet h
    exact ⟨(pushPage_quiet hpushed.errors).trans hpushed, nofun, rfl, nofun⟩
  | indexLeaf payloadSize localSize overflow =>
    have hpushed := pushOverflow_quiet h
    obtain ⟨hlevel, hfirst⟩ := checkLevel_quiet hpushed.errors
    exact ⟨hlevel.trans hpushed, nofun, rfl, fun _ => hpushed.level _ hfirst⟩

theorem filterMap_concat {α β : Type} (f : α → Option β) (l : List α) (a : α) :
    (l ++ [a]).filterMap f = l.filterMap f ++ (f a).toList := by
  rw [filterMap_append, filterMap_cons, filterMap_nil]
  cases f a with
  | none => rfl
  | some b => rfl

def toRange (isFreeBlock : Bool) (range : Nat × Nat) : CellRange :=
  ⟨range.1, range.2, isFreeBlock⟩

structure QuietCells (page : Page) (entry : Entry) (usableSpace contentArea n : Nat)
    (cells : List BTreeCell) (regions : List (Nat × Nat)) (loop loop' : CellLoop) : Prop where
  cells_eq : page.cellsBelow usableSpace n = some cells
  regions_eq : page.regionsBelow usableSpace n = some regions
  pushed : Pushed loop.state loop'.state
    (cells.reverse.flatMap (entries entry usableSpace))
  ranges : loop'.ranges = regions.map (toRange false) ++ loop.ranges
  inside : ∀ range ∈ regions,
    contentArea ≤ range.1 ∧ range.1 ≤ range.2 ∧ range.2 ≤ usableSpace
  bound : ∀ key ∈ cells.filterMap key?, key ≤ entry.maxIntkey ∧ key ≤ loop.nextRowid
  ordered : (cells.filterMap key?).Pairwise (· ≤ ·)
  leaf : ∀ cell ∈ cells, cell.isLeaf = true → loop'.state.firstLeafLevel = some entry.level

theorem cellRounds_quiet {n : Nat} {loop loop' : CellLoop}
    (harea : page.cellContentArea = some contentArea)
    (h : cellRounds page entry usableSpace n loop = some loop') (hquiet : loop'.state.errors = []) :
    ∃ cells regions, QuietCells page entry usableSpace contentArea n cells regions loop loop' := by
  induction n generalizing loop with
  | zero =>
    cases h
    exact ⟨[], [], rfl, rfl, .refl hquiet, rfl, nofun, nofun, .nil, nofun⟩
  | succ n ih =>
    obtain ⟨loop1, hround, h⟩ := bind_eq_some_iff.1 h
    obtain ⟨cells, regions, hcells⟩ := ih h
    simp only [cellRound, harea, bind_eq_bind, bind_eq_some_iff,
      bind_some] at hround
    obtain ⟨⟨start, len⟩, hregion, cell, hcell, hloop⟩ := hround
    cases hloop
    have hchecked := checkCell_quiet hcells.pushed.errors
    obtain ⟨heq, hstart, hend⟩ := checkRegion_quiet hchecked.pushed.errors
    rw [heq] at hchecked hcells
    refine ⟨cells ++ [cell], regions ++ [(start, start + len)], ?_, ?_, ?_, ?_, ?_, ?_, ?_, ?_⟩
    · simp [Page.cellsBelow, hcells.cells_eq, hcell]
    · simp [Page.regionsBelow, hcells.regions_eq, hregion]
    · rw [reverse_append, reverse_singleton, singleton_append, flatMap_cons]
      exact hchecked.pushed.trans hcells.pushed
    · rw [hcells.ranges, map_append, append_assoc]
      rfl
    · intro range hrange
      rcases mem_append.1 hrange with hrange | hrange
      · exact hcells.inside range hrange
      · rw [mem_singleton.1 hrange]
        exact ⟨hstart, Nat.le_add_right _ _, hend⟩
    · intro key hkey
      rw [filterMap_concat] at hkey
      rcases mem_append.1 hkey with hkey | hkey
      · have hle := hcells.bound key hkey
        refine ⟨hle.1, hle.2.trans ?_⟩
        rw [hchecked.next]
        cases hown : cell.key? with
        | none => exact le_rfl
        | some own => exact (hchecked.bound own hown).2
      · exact hchecked.bound key (mem_toList.1 hkey)
    · rw [filterMap_concat, pairwise_append]
      refine ⟨hcells.ordered, ?_, ?_⟩
      · cases cell.key? with
        | none => exact .nil
        | some own => exact pairwise_singleton _ _
      · intro key hkey own hown
        have hle := (hcells.bound key hkey).2
        rwa [hchecked.next, mem_toList.1 hown] at hle
    · intro c hc hleaf
      rcases mem_append.1 hc with hc | hc
      · exact hcells.leaf c hc hleaf
      · rw [mem_singleton.1 hc] at hleaf
        exact hcells.pushed.level _ (hchecked.leaf hleaf)

end

theorem Page.Freeblocks.unique {blocks' : List (Nat × Nat)} (h : page.Freeblocks pc blocks)
    (h' : page.Freeblocks pc blocks') : blocks = blocks' := by
  induction h generalizing blocks' with
  | last =>
    cases h' with
    | last => rfl
    | block hpc => exact absurd rfl hpc
  | block hpc hnext hsize _ ih =>
    cases h' with
    | last => exact absurd rfl hpc
    | block _ hnext' hsize' hblocks' =>
      cases some.inj (hnext.symm.trans hnext')
      cases some.inj (hsize.symm.trans hsize')
      rw [ih hblocks']

variable {ranges : List CellRange}

theorem freeblockRounds_quiet {ranges' : List CellRange}
    (h : freeblockRounds page entry usableSpace rounds pc s ranges = some (s', ranges'))
    (hquiet : s'.errors = []) :
    s' = s ∧ ∃ blocks, page.Freeblocks pc blocks ∧
      ranges'.Perm (blocks.map (toRange true) ++ ranges) ∧ ∀ block ∈ blocks, block.1 ≤ block.2 := by
  induction rounds generalizing pc ranges with
  | zero => cases h
  | succ rounds ih =>
    rw [freeblockRounds] at h
    split at h
    next hpc =>
      cases h
      exact ⟨rfl, [], hpc ▸ .last, .refl _, nofun⟩
    next hpc =>
      simp only [bind_eq_bind, bind_eq_some_iff] at h
      obtain ⟨next, hnext, size, hsize, h⟩ := h
      split at h
      · cases h
        exact absurd hquiet (error_errors_ne _ _)
      · obtain ⟨hs, blocks, hblocks, hperm, hle⟩ := ih h
        refine ⟨hs, (pc, pc + size) :: blocks, .block hpc hnext hsize hblocks, ?_, ?_⟩
        · exact hperm.trans perm_middle
        · exact forall_mem_cons.2 ⟨Nat.le_add_right _ _, hle⟩

def CellRange.length (range : CellRange) : Nat := range.endOffset - range.start

/-- Ranges one after the other: they end before the next one starts, and what they and the bytes
between them add up to. -/
theorem coverage_quiet {prevEnd fragmentation : Nat}
    (h : coverage ranges prevEnd fragmentation = (none, lastEnd, total))
    (hle : ∀ range ∈ ranges, range.start ≤ range.endOffset) :
    (ranges.Pairwise fun a b => a.endOffset ≤ b.start) ∧
      (∀ range ∈ ranges, prevEnd ≤ range.start) ∧
      lastEnd + fragmentation = prevEnd + (ranges.map CellRange.length).sum + total ∧
      (lastEnd = prevEnd ∧ ranges = [] ∨ ∃ range ∈ ranges, lastEnd = range.endOffset) := by
  induction ranges generalizing prevEnd fragmentation with
  | nil =>
    cases h
    exact ⟨.nil, nofun, rfl, Or.inl ⟨rfl, rfl⟩⟩
  | cons cell ranges ih =>
    rw [coverage] at h
    split at h
    · cases h
    obtain ⟨hcell, hrest⟩ := forall_mem_cons.1 hle
    obtain ⟨hpairwise, hstart, hsum, hlast⟩ := ih h hrest
    refine ⟨pairwise_cons.2 ⟨hstart, hpairwise⟩, ?_, ?_, Or.inr ?_⟩
    · refine forall_mem_cons.2 ⟨by omega, fun range hrange => ?_⟩
      have := hstart range hrange
      omega
    · clear hlast
      rw [map_cons, sum_cons, CellRange.length]
      omega
    · rcases hlast with ⟨rfl, rfl⟩ | ⟨range, hrange, rfl⟩
      · exact ⟨cell, mem_cons_self, rfl⟩
      · exact ⟨range, mem_cons_of_mem _ hrange, rfl⟩

variable {image : Image}

theorem analyze_quiet {pageIdx expected : Nat}
    (h : (s.analyze image pageIdx contentArea expected ranges).errors = []) :
    s.analyze image pageIdx contentArea expected ranges = s ∧ ∃ lastEnd total,
      coverage (image.heap.pops ranges) contentArea 0 = (none, lastEnd, total) ∧
      (total + (2 ^ 64 + image.usableSpace - lastEnd)) % 2 ^ 64 = expected := by
  rw [analyze] at h ⊢
  rcases hcoverage : coverage (image.heap.pops ranges) contentArea 0 with ⟨overlap, lastEnd, total⟩
  rw [hcoverage] at h
  dsimp only at h ⊢
  split at h
  · exact absurd h (error_errors_ne _ _)
  next hexpected =>
    rw [if_neg hexpected]
    cases overlap with
    | some cell => exact absurd h (error_errors_ne _ _)
    | none => exact ⟨rfl, lastEnd, total, rfl, not_not.1 hexpected⟩

namespace Page

variable {pos n : Nat}

theorem readU8NoOffset_lt (h : page.readU8NoOffset pos = some n) : n < 256 := by
  obtain ⟨b, -, rfl⟩ := map_eq_some_iff.1 h
  exact b.toNat_lt

theorem cellContentArea_le (h : page.cellContentArea = some n) : n ≤ 65536 := by
  simp only [cellContentArea, readU16, readU16NoOffset, Option.bind_eq_bind,
    Option.bind_eq_some_iff, Option.pure_def, Option.some.injEq] at h
  obtain ⟨_, ⟨hi, hhi, lo, hlo, rfl⟩, rfl⟩ := h
  have := readU8NoOffset_lt hhi
  have := readU8NoOffset_lt hlo
  split
  · omega
  · omega

end Page

/-- When the ranges of a page do not overlap and their gaps add up, the page accounts for its bytes
unless a freeblock runs over its end. -/
theorem accounted_iff {image : Image} {fragments first : Nat} {regions : List (Nat × Nat)}
    {ranges : List CellRange} (harea : page.cellContentArea = some contentArea)
    (hfragments : page.numFragFreeBytes = some fragments)
    (hfirst : page.firstFreeblock = some first)
    (hregions : page.regions image.usableSpace = some regions)
    (hblocks : page.Freeblocks first blocks) (hinside : ∀ range ∈ regions,
      contentArea ≤ range.1 ∧ range.1 ≤ range.2 ∧ range.2 ≤ image.usableSpace)
    (hle : ∀ block ∈ blocks, block.1 ≤ block.2)
    (hperm : ranges.Perm (blocks.map (toRange true) ++ regions.map (toRange false)))
    (hcoverage : coverage (image.heap.pops ranges) contentArea 0 = (none, lastEnd, total))
    (htotal : (total + (2 ^ 64 + image.usableSpace - lastEnd)) % 2 ^ 64 = fragments) :
    page.Accounted image.usableSpace ↔ page.FreeblocksInside image.usableSpace := by
  have hpops := (image.heap.perm ranges).trans hperm
  have hflat : ((image.heap.pops ranges).map fun r => (r.start, r.endOffset)).Perm
      (regions ++ blocks) := by
    refine (hpops.map _).trans (.trans (.of_eq ?_) perm_append_comm)
    simp only [map_append, List.map_map]
    congr 1
    · exact map_id _
    · exact map_id _
  have hends : ∀ range ∈ image.heap.pops ranges, range.start ≤ range.endOffset := by
    intro range hrange
    rcases mem_append.1 (hpops.subset hrange) with hmem | hmem
    · obtain ⟨block, hblock, rfl⟩ := mem_map.1 hmem
      exact hle block hblock
    · obtain ⟨region, hregion, rfl⟩ := mem_map.1 hmem
      exact (hinside region hregion).2.1
  obtain ⟨hpairwise, hstart, hsum, hlast⟩ := coverage_quiet hcoverage hends
  constructor
  · rintro ⟨_, _, first', _, blocks', -, -, hfirst', -, hblocks', -, hin, -⟩ first''
      blocks'' hfirst''
      hblocks''
    cases Option.some.inj (hfirst'.symm.trans hfirst'')
    rw [hblocks''.unique hblocks']
    exact fun block hblock => (hin block (mem_append_right _ hblock)).2.2
  · intro hfree
    have hin : ∀ range ∈ regions ++ blocks,
        contentArea ≤ range.1 ∧ range.1 ≤ range.2 ∧ range.2 ≤ image.usableSpace := by
      intro range hrange
      obtain ⟨r, hr, rfl⟩ := mem_map.1 (hflat.symm.subset hrange)
      refine ⟨hstart r hr, hends r hr, ?_⟩
      rcases mem_append.1 hrange with hrange | hrange
      · exact (hinside _ hrange).2.2
      · exact hfree first blocks hfirst hblocks _ hrange
    refine ⟨contentArea, fragments, first, regions, blocks, harea, hfragments, hfirst, hregions,
      hblocks, ?_, hin, ?_⟩
    · refine hflat.pairwise (pairwise_map.2 (hpairwise.imp Or.inl)) ?_
      exact fun h => h.symm
    · have hlengths : ((image.heap.pops ranges).map CellRange.length).sum =
          ((regions ++ blocks).map fun range => range.2 - range.1).sum := by
        have := (hflat.map fun range => range.2 - range.1).sum_nat
        rwa [List.map_map] at this
      have hlastEnd : lastEnd ≤ image.usableSpace := by
        have := Page.cellContentArea_le harea
        have := Page.readU8NoOffset_lt hfragments
        rcases hlast with ⟨hlast, hnil⟩ | ⟨range, hrange, rfl⟩
        · omega
        · have hmem := hflat.subset (mem_map_of_mem hrange)
          exact (hin _ hmem).2.2
      have := image.usable
      clear hlast
      omega

structure QuietPage (image : Image) (page : Page) (entry : Entry) (cells : List BTreeCell)
    (rightmost : Option Nat) (s s' : CheckState) : Prop where
  cells_eq : page.cells image.usableSpace = some cells
  rightmost_eq : page.rightmostPointer = some rightmost
  pushed : Pushed s s' (cells.reverse.flatMap (entries entry image.usableSpace) ++
    rightmost.toList.map (childEntry entry · entry.maxIntkey))
  bound : ∀ key ∈ cells.filterMap key?, key ≤ entry.maxIntkey
  ordered : (cells.filterMap key?).Pairwise (· ≤ ·)
  leaf : ∀ cell ∈ cells, cell.isLeaf = true → s'.firstLeafLevel = some entry.level
  accounted : page.Accounted image.usableSpace ↔ page.FreeblocksInside image.usableSpace

theorem checkNormal_quiet (h : checkNormal image rounds page entry s = some s')
    (hquiet : s'.errors = []) :
    ∃ cells rightmost, QuietPage image page entry cells rightmost s s' := by
  simp only [checkNormal, Option.bind_eq_bind, Option.bind_eq_some_iff, Option.pure_def,
    Option.some.injEq] at h
  obtain ⟨count, hcount, loop, hloop, rightmost, hrightmost, first, hfirst, ⟨s1, ranges⟩, hblocks,
    contentArea, harea, fragments, hfragments, rfl⟩ := h
  obtain ⟨hanalyze, lastEnd, total, hcoverage, htotal⟩ := analyze_quiet hquiet
  rw [hanalyze] at hquiet ⊢
  obtain ⟨hs1, blocks, hfreeblocks, hperm, hle⟩ := freeblockRounds_quiet hblocks hquiet
  have hright : Pushed loop.state s1
      (rightmost.toList.map (childEntry entry · entry.maxIntkey)) := by
    rw [hs1] at hquiet ⊢
    cases rightmost with
    | none => exact .refl hquiet
    | some child => exact pushPage_quiet hquiet
  obtain ⟨cells, regions, hcells⟩ := cellRounds_quiet harea hloop hright.errors
  have hregions : page.regions image.usableSpace = some regions := by
    rw [Page.regions, hcount]
    exact hcells.regions_eq
  rw [hcells.ranges, append_nil] at hperm
  refine ⟨cells, rightmost, ?_, hrightmost, hcells.pushed.trans hright,
    fun key hkey => (hcells.bound key hkey).1, hcells.ordered, ?_, ?_⟩
  · rw [Page.cells, hcount]
    exact hcells.cells_eq
  · exact fun cell hcell hleaf => hright.level _ (hcells.leaf cell hcell hleaf)
  · exact accounted_iff harea hfragments hfirst hregions hfreeblocks hcells.inside hle hperm
      hcoverage htotal

theorem checkOverflow_quiet (h : checkOverflow page entry s = some s') (hquiet : s'.errors = []) :
    ∃ next, page.readU32NoOffset 0 = some next ∧
      Pushed s s' (if next = 0 then [] else
        [{ entry with pageIdx := next, overflowPagesSeen := entry.overflowPagesSeen + 1 }]) := by
  simp only [checkOverflow, bind_eq_bind, bind_eq_some_iff] at h
  obtain ⟨next, hnext, h⟩ := h
  refine ⟨next, hnext, ?_⟩
  split at h
  next hne =>
    cases h
    rw [if_neg hne]
    exact pushPage_quiet hquiet
  next hzero =>
    rw [if_pos (not_not.1 hzero)]
    split at h
    · split at h
      · cases h
        exact absurd hquiet (error_errors_ne _ _)
      · cases h
        exact .refl hquiet
    · cases h
      exact .refl hquiet

end PgMicro.BTree
