import PgMicro.BTree.QuietCheck

/-!
# What a check without errors says about the tree

Every entry of the stack stands for a subtree or an overflow chain that the rest of the check walks
through. The leaves lie within the upper bounds passed down; what the check leaves out is compared
here.
-/

namespace PgMicro.BTree

open List BTreeCell Option

variable {cells : List BTreeCell} {page : Page} {s s' : CheckState} {entries : List Entry}
  {entry : Entry} {image : Image} {level : Option Nat} {pages : List (PageCategory × Nat)}
  {leaves : List Leaf}

open Entry

section

variable {usableSpace : Nat}

def Entry.target (entry : Entry) : PageCategory × Nat := (entry.pageCategory, entry.pageIdx)

theorem BTreeCell.map_target_entries (cell : BTreeCell) :
    (cell.entries entry usableSpace).map target = cell.references := by
  cases cell with
  | tableInterior => rfl
  | tableLeaf _ _ _ overflow => cases overflow <;> rfl
  | indexInterior _ _ _ overflow => cases overflow <;> rfl
  | indexLeaf _ _ overflow => cases overflow <;> rfl

theorem rows_sublist_keys (cells : List BTreeCell) :
    (cells.filterMap row?).Sublist (cells.filterMap key?) := by
  induction cells with
  | nil => exact .slnil
  | cons cell cells ih =>
    cases cell with
    | tableInterior => exact ih.cons _
    | tableLeaf => exact ih.cons_cons _
    | indexInterior => exact ih
    | indexLeaf => exact ih

theorem isLeaf_of_cellGet (hright : page.rightmostPointer = some none) {idx : Nat}
    {cell : BTreeCell} (hcell : page.cellGet idx usableSpace = some cell) : cell.isLeaf = true := by
  simp only [Page.rightmostPointer, bind_eq_bind, bind_eq_some_iff] at hright
  obtain ⟨pageType, htype, hright⟩ := hright
  simp only [Page.cellGet, Page.readBtreeCell, htype, bind_eq_bind, bind_some,
    bind_eq_some_iff] at hcell
  obtain ⟨start, -, hcell⟩ := hcell
  cases pageType with
  | indexInterior =>
    obtain ⟨_, _, h⟩ := bind_eq_some_iff.1 hright
    cases h
  | tableInterior =>
    obtain ⟨_, _, h⟩ := bind_eq_some_iff.1 hright
    cases h
  | indexLeaf =>
    simp only [bind_eq_some_iff] at hcell
    obtain ⟨_, _, _, _, h⟩ := hcell
    cases h
    rfl
  | tableLeaf =>
    simp only [bind_eq_some_iff] at hcell
    obtain ⟨_, _, _, _, _, _, h⟩ := hcell
    cases h
    rfl

theorem isLeaf_of_mem_cellsBelow (hright : page.rightmostPointer = some none) {n : Nat}
    (hcells : page.cellsBelow usableSpace n = some cells) : ∀ cell ∈ cells, cell.isLeaf = true := by
  induction n generalizing cells with
  | zero =>
    cases hcells
    exact nofun
  | succ n ih =>
    simp only [Page.cellsBelow, Option.bind_eq_bind, Option.bind_eq_some_iff, Option.pure_def,
      Option.some.injEq] at hcells
    obtain ⟨before, hbefore, cell, hcell, rfl⟩ := hcells
    intro c hc
    rcases mem_append.1 hc with hc | hc
    · exact ih hbefore c hc
    · rw [mem_singleton.1 hc]
      exact isLeaf_of_cellGet hright hcell

end

theorem ReachesAll.perm {image : Image} {references references' pages : List (PageCategory × Nat)}
    (hperm : references.Perm references') (h : ReachesAll image references pages) :
    ∃ pages', ReachesAll image references' pages' ∧ pages.Perm pages' := by
  induction hperm generalizing pages with
  | nil => exact ⟨pages, h, .refl _⟩
  | cons reference _ ih =>
    cases h with
    | cons hpages hrest =>
      obtain ⟨rest', hrest', hperm⟩ := ih hrest
      exact ⟨_, .cons hpages hrest', hperm.append_left _⟩
  | swap reference reference' references =>
    cases h with
    | cons hpages hrest =>
      cases hrest with
      | cons hpages' hrest =>
        refine ⟨_, .cons hpages' (.cons hpages hrest), ?_⟩
        rw [← append_assoc, ← append_assoc]
        exact perm_append_comm.append_right _
  | trans _ _ ih ih' =>
    obtain ⟨_, h1, hperm1⟩ := ih h
    obtain ⟨_, h2, hperm2⟩ := ih' h1
    exact ⟨_, h2, hperm1.trans hperm2⟩

structure LeafChecked (level : Option Nat) (leaf : Leaf) : Prop where
  ordered : leaf.rows.Pairwise (· ≤ ·)
  bound : ∀ row ∈ leaf.rows, row ≤ leaf.right.getD i64Max
  depth : leaf.cellCount ≠ 0 → level = some leaf.depth

open PageCategory

structure Walked (image : Image) (level : Option Nat) (entry : Entry)
    (pages : List (PageCategory × Nat)) : Prop where
  reaches : Reaches image entry.pageCategory entry.pageIdx pages
  fringe : entry.pageCategory = .normal → ∀ left right : Option Int,
    right.getD i64Max = entry.maxIntkey →
      ∃ leaves, Fringe image entry.pageIdx entry.level left right leaves ∧
        ∀ leaf ∈ leaves, LeafChecked level leaf
  accounted : ∀ pageIdx page, (normal, pageIdx) ∈ pages →
    image.page pageIdx = some page →
      (page.Accounted image.usableSpace ↔ page.FreeblocksInside image.usableSpace)

inductive WalkedAll (image : Image) (level : Option Nat) :
    List Entry → List (PageCategory × Nat) → Prop
  | nil : WalkedAll image level [] []
  | cons {entry : Entry} {entries : List Entry} {pages rest : List (PageCategory × Nat)}
      (hentry : Walked image level entry pages) (hentries : WalkedAll image level entries rest) :
      WalkedAll image level (entry :: entries) (pages ++ rest)

namespace WalkedAll

variable {entries' : List Entry}

theorem split (h : WalkedAll image level (entries ++ entries') pages) :
    ∃ front back, pages = front ++ back ∧ WalkedAll image level entries front ∧
      WalkedAll image level entries' back := by
  induction entries generalizing pages with
  | nil => exact ⟨[], pages, rfl, .nil, h⟩
  | cons entry entries ih =>
    cases h with
    | cons hentry hentries =>
      obtain ⟨front, back, rfl, hfront, hback⟩ := ih hentries
      exact ⟨_, back, (append_assoc ..).symm, .cons hentry hfront, hback⟩

section

variable (h : WalkedAll image level entries pages)

include h

theorem exists_of_mem (hmem : entry ∈ entries) : ∃ pages, Walked image level entry pages := by
  induction h with
  | nil => cases hmem
  | cons hentry _ ih =>
    rcases mem_cons.1 hmem with rfl | hmem
    · exact ⟨_, hentry⟩
    · exact ih hmem

theorem reachesAll : ReachesAll image (entries.map target) pages := by
  induction h with
  | nil => exact .nil
  | cons hentry _ ih => exact .cons hentry.reaches ih

theorem accounted (pageIdx : Nat) (page : Page) (hmem : (normal, pageIdx) ∈ pages)
    (hpage : image.page pageIdx = some page) :
    page.Accounted image.usableSpace ↔ page.FreeblocksInside image.usableSpace := by
  induction h with
  | nil => cases hmem
  | cons hentry _ ih =>
    rcases mem_append.1 hmem with hmem | hmem
    · exact hentry.accounted pageIdx page hmem hpage
    · exact ih hmem

end

end WalkedAll

section

theorem exists_kids {rightmost : Nat}
    (hcells : ∀ cell ∈ cells, ∀ e ∈ cell.entries entry image.usableSpace,
      ∃ pages, Walked image level e pages)
    (hright : ∃ pages, Walked image level (childEntry entry rightmost entry.maxIntkey) pages)
    (left right : Option Int) (hmax : right.getD i64Max = entry.maxIntkey) :
    ∃ leaves, Kids image (cells.filterMap kid?) rightmost (entry.level + 1) left right
      leaves ∧ ∀ leaf ∈ leaves, LeafChecked level leaf := by
  induction cells generalizing left with
  | nil =>
    obtain ⟨_, hwalked⟩ := hright
    obtain ⟨leaves, hfringe, hleaves⟩ := hwalked.fringe rfl left right hmax
    exact ⟨leaves, .rightmost hfringe, hleaves⟩
  | cons cell cells ih =>
    obtain ⟨hcell, hothers⟩ := forall_mem_cons.1 hcells
    -- a child between two bounds, and the children after it
    have hkid : ∀ kid divider, childEntry entry kid (divider.getD entry.maxIntkey) ∈
        cell.entries entry image.usableSpace →
        ∃ leaves, Kids image ((kid, divider) :: cells.filterMap kid?) rightmost
          (entry.level + 1) left right leaves ∧ ∀ leaf ∈ leaves, LeafChecked level leaf := by
      intro kid divider hmem
      obtain ⟨_, hwalked⟩ := hcell _ hmem
      obtain ⟨leaves, hfringe, hleaves⟩ := hwalked.fringe rfl left (divider.or right) (by
        cases divider with
        | none => exact hmax
        | some d => rfl)
      obtain ⟨rest, hkids, hrest⟩ := ih hothers (divider.or left)
      refine ⟨leaves ++ rest, .kid hfringe hkids, ?_⟩
      exact fun leaf hleaf => (mem_append.1 hleaf).elim (hleaves leaf) (hrest leaf)
    cases cell with
    | tableInterior kid rowid => exact hkid kid (some rowid) mem_cons_self
    | tableLeaf => exact ih hothers left
    | indexInterior kid => exact hkid kid none mem_cons_self
    | indexLeaf => exact ih hothers left

theorem QuietPage.walked {rightmost : Option Nat}
    (h : QuietPage image page entry cells rightmost s s')
    (hpage : image.page entry.pageIdx = some page) (hcategory : entry.pageCategory = .normal)
    (hlevel : ∀ l, s'.firstLeafLevel = some l → level = some l)
    (hentries : entries = cells.reverse.flatMap (BTreeCell.entries entry image.usableSpace) ++
      rightmost.toList.map (childEntry entry · entry.maxIntkey))
    (hwalked : WalkedAll image level entries.reverse pages) :
    ∃ pages', pages.Perm pages' ∧ Walked image level entry (entry.target :: pages') := by
  have hmem : ∀ e ∈ entries, ∃ pages, Walked image level e pages :=
    fun e he => hwalked.exists_of_mem (mem_reverse.2 he)
  have htargets : (entries.reverse.map target).Perm
      (cells.flatMap references ++ rightmost.toList.map (.normal, ·)) := by
    refine ((reverse_perm entries).map _).trans ?_
    rw [hentries, map_append, map_flatMap]
    refine .append ?_ (.of_eq ?_)
    · simp only [map_target_entries]
      exact (reverse_perm cells).flatMap_right _
    · rw [List.map_map]
      rfl
  obtain ⟨pages', hreaches, hperm⟩ := hwalked.reachesAll.perm htargets
  refine ⟨pages', hperm, ?_, ?_, ?_⟩
  · rw [target, hcategory]
    exact .normal hpage h.cells_eq h.rightmost_eq hreaches
  · intro _ left right hmax
    cases rightmost with
    | none =>
      refine ⟨_, .leaf hpage h.cells_eq h.rightmost_eq, ?_⟩
      intro leaf hleaf
      rw [mem_singleton.1 hleaf]
      refine ⟨h.ordered.sublist (rows_sublist_keys cells), ?_, ?_⟩
      · intro row hrow
        rw [hmax]
        exact h.bound row ((rows_sublist_keys cells).subset hrow)
      · intro hcount
        obtain ⟨cell, hcell⟩ := exists_mem_of_ne_nil cells (by rintro rfl; exact hcount rfl)
        obtain ⟨count, -, hcells⟩ := bind_eq_some_iff.1 h.cells_eq
        exact hlevel _ (h.leaf cell hcell
          (isLeaf_of_mem_cellsBelow h.rightmost_eq hcells cell hcell))
    | some child =>
      obtain ⟨leaves, hkids, hleaves⟩ := exists_kids (fun cell hcell e he => hmem e (by
          rw [hentries]
          exact mem_append_left _ (mem_flatMap.2 ⟨cell, mem_reverse.2 hcell, he⟩)))
        (hmem _ (by
          rw [hentries]
          exact mem_append_right _ (mem_singleton_self _))) left right hmax
      exact ⟨leaves, .interior hpage h.cells_eq h.rightmost_eq hkids, hleaves⟩
  · intro pageIdx page' hin hpage'
    rcases mem_cons.1 hin with heq | hin
    · rw [(Prod.mk.inj heq).2] at hpage'
      cases some.inj (hpage.symm.trans hpage')
      exact h.accounted
    · exact hwalked.accounted pageIdx page' (hperm.symm.subset hin) hpage'

theorem walked_overflow {next : Nat} (hpage : image.page entry.pageIdx = some page)
    (hcategory : entry.pageCategory = .overflow) (hnext : page.readU32NoOffset 0 = some next)
    (hentries : entries = if next = 0 then [] else
      [{ entry with pageIdx := next, overflowPagesSeen := entry.overflowPagesSeen + 1 }])
    (hwalked : WalkedAll image level entries.reverse pages) :
    Walked image level entry (entry.target :: pages) := by
  refine ⟨?_, ?_, ?_⟩
  · rw [target, hcategory]
    split at hentries
    next hzero =>
      rw [hentries] at hwalked
      cases hwalked
      exact .lastOverflow hpage (hzero ▸ hnext)
    next hne =>
      rw [hentries] at hwalked
      cases hwalked with
      | cons hentry hrest =>
        cases hrest
        have hreaches := hentry.reaches
        rw [hcategory] at hreaches
        rw [append_nil]
        exact .overflow hpage hnext hne hreaches
  · rw [hcategory]
    exact nofun
  · intro pageIdx page' hin hpage'
    rcases mem_cons.1 hin with heq | hin
    · rw [target, hcategory] at heq
      cases (Prod.mk.inj heq).1
    · exact hwalked.accounted pageIdx page' hin hpage'

theorem checkPage_walked {rounds : Nat} (h : checkPage image rounds entry s = some s')
    (hquiet : s'.errors = []) :
    ∃ entries, Pushed s s' entries ∧
      ∀ level, (∀ l, s'.firstLeafLevel = some l → level = some l) → ∀ pages,
        WalkedAll image level entries.reverse pages →
          ∃ pages', pages.Perm pages' ∧ Walked image level entry (entry.target :: pages') := by
  obtain ⟨page, hpage, h⟩ := bind_eq_some_iff.1 h
  cases hcategory : entry.pageCategory with
  | normal =>
    rw [hcategory] at h
    obtain ⟨cells, rightmost, hpage'⟩ := checkNormal_quiet h hquiet
    exact ⟨_, hpage'.pushed, fun _ hlevel _ hwalked =>
      hpage'.walked hpage hcategory hlevel rfl hwalked⟩
  | overflow =>
    rw [hcategory] at h
    obtain ⟨next, hnext, hpushed⟩ := checkOverflow_quiet h hquiet
    exact ⟨_, hpushed, fun _ _ pages hwalked =>
      ⟨pages, .refl _, walked_overflow hpage hcategory hnext rfl hwalked⟩⟩

end

structure StackOk (s : CheckState) : Prop where
  nodup : (s.pageStack.map pageIdx).Nodup
  referred : ∀ e ∈ s.pageStack, s.pageReference e.pageIdx ≠ none

theorem StackOk.pushed {rest : List Entry} (h : StackOk s) (hstack : s.pageStack = entry :: rest)
    (hpushed : Pushed { s with pageStack := rest } s' entries) : StackOk s' := by
  have hnodup := h.nodup
  rw [hstack, map_cons, nodup_cons] at hnodup
  have hreferred : ∀ e ∈ rest, s.pageReference e.pageIdx ≠ none := fun e he =>
    h.referred e (hstack ▸ mem_cons_of_mem _ he)
  constructor
  · rw [hpushed.stack, map_append, map_reverse, nodup_append]
    refine ⟨nodup_reverse.2 hpushed.nodup, hnodup.2, ?_⟩
    rintro p hp _ hp' rfl
    obtain ⟨e, he, rfl⟩ := mem_map.1 (mem_reverse.1 hp)
    obtain ⟨e', he', heq⟩ := mem_map.1 hp'
    exact hreferred e' he' (heq ▸ hpushed.fresh e he)
  · intro e he hnone
    rw [hpushed.stack] at he
    obtain ⟨hfree, hnotMem⟩ := (hpushed.reference _).1 hnone
    rcases mem_append.1 he with he | he
    · exact hnotMem (mem_map_of_mem (mem_reverse.1 he))
    · exact hreferred e he hfree

section

variable {freeblocks rounds : Nat} (h : integrityRounds image freeblocks rounds s = some s')
  (hquiet : s'.errors = [])

include h hquiet

theorem integrityRounds_errors : s.errors = [] := by
  induction rounds generalizing s with
  | zero => cases h
  | succ rounds ih =>
    rw [integrityRounds] at h
    split at h
    · cases h
      exact hquiet
    · obtain ⟨s1, hpage, h⟩ := bind_eq_some_iff.1 h
      obtain ⟨_, hpushed, -⟩ := checkPage_walked hpage (ih h)
      exact hpushed.errors

theorem integrityRounds_walked (hstack : StackOk s) :
    (∀ l, s.firstLeafLevel = some l → s'.firstLeafLevel = some l) ∧
      ∃ pages, WalkedAll image s'.firstLeafLevel s.pageStack pages ∧
        (pages.map Prod.snd).Nodup ∧
        ∀ p ∈ pages, s.pageReference p.2 = none ∨ p.2 ∈ s.pageStack.map pageIdx := by
  induction rounds generalizing s with
  | zero => cases h
  | succ rounds ih =>
    rw [integrityRounds] at h
    split at h
    next hnil =>
      cases h
      rw [hnil]
      exact ⟨fun _ h => h, [], .nil, nodup_nil, nofun⟩
    next entry rest hcons =>
      obtain ⟨s1, hpage, h⟩ := bind_eq_some_iff.1 h
      obtain ⟨entries, hpushed, hentry⟩ := checkPage_walked hpage (integrityRounds_errors h hquiet)
      obtain ⟨hlevel, pages, hwalked, hnodup, hpages⟩ := ih h (hstack.pushed hcons hpushed)
      rw [hpushed.stack] at hwalked
      obtain ⟨front, back, rfl, hfront, hback⟩ := hwalked.split
      obtain ⟨front', hperm, hwalkedEntry⟩ := hentry _ hlevel front hfront
      have hids := hstack.nodup
      rw [hcons, map_cons, nodup_cons] at hids
      -- a page walked through later was not referred to before, or waits on the stack
      have hlater : ∀ p ∈ front ++ back,
          s.pageReference p.2 = none ∨ p.2 ∈ rest.map pageIdx := by
        intro p hp
        rcases hpages p hp with hnone | hmem
        · exact Or.inl ((hpushed.reference _).1 hnone).1
        · rw [hpushed.stack, map_append, map_reverse] at hmem
          rcases mem_append.1 hmem with hmem | hmem
          · obtain ⟨e, he, heq⟩ := mem_map.1 (mem_reverse.1 hmem)
            exact Or.inl (heq ▸ hpushed.fresh e he)
          · exact Or.inr hmem
      have hreferred : s.pageReference entry.pageIdx ≠ none :=
        hstack.referred entry (hcons ▸ mem_cons_self)
      have hall : (front ++ back).Perm (front' ++ back) := hperm.append_right _
      rw [hcons]
      refine ⟨fun l hl => hlevel l (hpushed.level l hl), _, .cons hwalkedEntry hback, ?_, ?_⟩
      · rw [cons_append, map_cons, nodup_cons]
        refine ⟨?_, (hall.map _).nodup hnodup⟩
        intro hmem
        obtain ⟨p, hp, heq⟩ := mem_map.1 hmem
        rcases hlater p (hall.symm.subset hp) with hnone | hin
        · exact hreferred (by rw [← hnone, heq]; rfl)
        · exact hids.1 ((show p.2 = entry.pageIdx from heq) ▸ hin)
      · intro p hp
        rcases mem_cons.1 hp with rfl | hp
        · exact Or.inr mem_cons_self
        · exact (hlater p (hall.symm.subset hp)).imp_right (mem_cons_of_mem _)

end

section

theorem ascending_of_previous (hleaves : ∀ leaf ∈ leaves, leaf.rows.Pairwise (· < ·))
    (hprevious : ∀ before leaf after, leaves = before ++ leaf :: after →
      ∀ row ∈ leaf.rows.head?, ∀ last ∈ (before.flatMap Leaf.rows).getLast?, last < row) :
    (leaves.flatMap Leaf.rows).Pairwise (· < ·) := by
  induction leaves using reverseRecOn with
  | nil => exact .nil
  | append_singleton leaves leaf ih =>
    have hinit : (leaves.flatMap Leaf.rows).Pairwise (· < ·) := by
      refine ih (fun l hl => hleaves l (mem_append_left _ hl)) ?_
      intro before l after heq
      exact hprevious before l (after ++ [leaf]) (by rw [heq, append_assoc]; rfl)
    have hleaf := hleaves leaf (mem_append_right _ (mem_singleton_self _))
    rw [flatMap_append, flatMap_singleton, pairwise_append]
    refine ⟨hinit, hleaf, ?_⟩
    intro x hx y hy
    -- up to the last rowid before the leaf, and on from its first
    obtain ⟨front, last, hfront⟩ :=
      (eq_nil_or_concat' _).resolve_left (ne_nil_of_mem hx)
    cases hrows : leaf.rows with
    | nil =>
      rw [hrows] at hy
      cases hy
    | cons row rows =>
      have hboundary := hprevious leaves leaf [] rfl row (by rw [hrows]; rfl) last (by
        rw [hfront]
        exact getLast?_concat)
      have hxlast : x ≤ last := by
        rw [hfront] at hinit hx
        rcases mem_append.1 hx with hx | hx
        · exact ((pairwise_append.1 hinit).2.2 x hx last (mem_singleton_self _)).le
        · exact (mem_singleton.1 hx).le
      have hrowy : row ≤ y := by
        rw [hrows] at hleaf hy
        rcases mem_cons.1 hy with rfl | hy
        · exact le_rfl
        · exact ((pairwise_cons.1 hleaf).1 y hy).le
      exact (hxlast.trans_lt hboundary).trans_le hrowy

theorem pairwise_lt_of_isChain_ne {rows : List Int} (hle : rows.Pairwise (· ≤ ·))
    (hne : rows.IsChain (· ≠ ·)) : rows.Pairwise (· < ·) := by
  induction rows with
  | nil => exact .nil
  | cons row rows ih =>
    obtain ⟨hrow, hrows⟩ := pairwise_cons.1 hle
    refine pairwise_cons.2 ⟨?_, ih hrows hne.of_cons⟩
    cases rows with
    | nil => exact nofun
    | cons next rows =>
      have hnext : row < next :=
        lt_of_le_of_ne (hrow next mem_cons_self) (isChain_cons_cons.1 hne).1
      refine forall_mem_cons.2 ⟨hnext, fun later hlater => ?_⟩
      exact hnext.trans_le ((pairwise_cons.1 hrows).1 later hlater)

theorem LeafChecked.ascending {level : Option Nat} {leaf : Leaf} (h : LeafChecked level leaf)
    (hrepeated : leaf.rows.IsChain (· ≠ ·)) : leaf.rows.Pairwise (· < ·) :=
  pairwise_lt_of_isChain_ne h.ordered hrepeated

end

section

theorem SoundTree.unchecked (h : SoundTree image leaves pages)
    (haccounted : ∀ pageIdx page, (normal, pageIdx) ∈ pages →
      image.page pageIdx = some page →
        (page.Accounted image.usableSpace ↔ page.FreeblocksInside image.usableSpace)) :
    Unchecked image leaves pages where
  repeated := by
    intro leaf hleaf
    obtain ⟨before, after, rfl⟩ := append_of_mem hleaf
    have hrows := h.ascending
    rw [flatMap_append, flatMap_cons] at hrows
    have hleaf := (pairwise_append.1 (pairwise_append.1 hrows).2.1).1
    exact (hleaf.imp ne_of_lt).isChain
  lower := fun leaf hleaf row hrow =>
    (h.dividers leaf hleaf row (mem_of_mem_head? hrow)).1
  previous := by
    rintro before leaf after rfl row hrow last hlast
    have hrows := h.ascending
    rw [flatMap_append, flatMap_cons] at hrows
    exact (pairwise_append.1 hrows).2.2 last (mem_of_getLast? hlast) row
      (mem_append_left _ (mem_of_mem_head? hrow))
  freeblocks := fun pageIdx page hmem hpage =>
    (haccounted pageIdx page hmem hpage).1 (h.accounted pageIdx page hmem hpage)

theorem Unchecked.soundTree (h : Unchecked image leaves pages)
    (hleaves : ∀ leaf ∈ leaves, LeafChecked level leaf) (hnodup : (pages.map Prod.snd).Nodup)
    (haccounted : ∀ pageIdx page, (normal, pageIdx) ∈ pages →
      image.page pageIdx = some page →
        (page.Accounted image.usableSpace ↔ page.FreeblocksInside image.usableSpace)) :
    SoundTree image leaves pages where
  ascending := ascending_of_previous
    (fun leaf hleaf => (hleaves leaf hleaf).ascending (h.repeated leaf hleaf)) h.previous
  dividers := by
    intro leaf hleaf row hrow
    have hchecked := hleaves leaf hleaf
    constructor
    · intro divider hdivider
      have hascending := hchecked.ascending (h.repeated leaf hleaf)
      have hlower := h.lower leaf hleaf
      cases hrows : leaf.rows with
      | nil =>
        rw [hrows] at hrow
        cases hrow
      | cons first rows =>
        rw [hrows] at hrow hascending hlower
        have hfirst := hlower first rfl divider hdivider
        rcases mem_cons.1 hrow with rfl | hrow
        · exact hfirst
        · exact hfirst.trans ((pairwise_cons.1 hascending).1 row hrow)
    · intro divider hdivider
      have hbound := hchecked.bound row hrow
      rwa [hdivider] at hbound
  depths := by
    intro leaf hleaf leaf' hleaf' hcount hcount'
    have hdepth := (hleaves leaf hleaf).depth hcount
    rw [(hleaves leaf' hleaf').depth hcount'] at hdepth
    exact (some.inj hdepth).symm
  once := hnodup
  accounted := fun pageIdx page hmem hpage =>
    (haccounted pageIdx page hmem hpage).2 (h.freeblocks pageIdx page hmem hpage)

end

/-- A check of a table that ends without errors has walked through a tree, and the tree is sound if
and only if the comparisons that the check leaves out hold too. -/
theorem integrityCheck_sound_iff {image : Image} {dbSize freeblocks rounds root : Nat}
    {s s' : CheckState} (hsize : dbSize ≠ 0) (hidle : s.pageStack = [])
    (h : integrityCheck image dbSize freeblocks rounds (s.start root) = some s')
    (hquiet : s'.errors = []) :
    ∃ leaves pages, Fringe image root 0 none none leaves ∧ Reaches image .normal root pages ∧
      (SoundTree image leaves pages ↔ Unchecked image leaves pages) := by
  rw [integrityCheck, if_neg hsize] at h
  have hpushed := pushPage_quiet (integrityRounds_errors h hquiet)
  have hstack : (s.start root).pageStack = [⟨root, 0, i64Max, .normal, none, 0⟩] := by
    rw [CheckState.start, hpushed.stack]
    exact congrArg _ hidle
  have hok : StackOk (s.start root) := by
    constructor
    · rw [hstack]
      exact nodup_singleton _
    · intro e he hnone
      rw [hstack] at he
      rw [mem_singleton.1 he] at hnone
      exact ((hpushed.reference _).1 hnone).2 mem_cons_self
  obtain ⟨-, pages, hwalked, hnodup, -⟩ := integrityRounds_walked h hquiet hok
  rw [hstack] at hwalked
  cases hwalked with
  | cons hroot hrest =>
    cases hrest
    rw [append_nil] at hnodup
    obtain ⟨leaves, hfringe, hleaves⟩ := hroot.fringe rfl none none rfl
    exact ⟨leaves, _, hfringe, hroot.reaches, fun hsound => hsound.unchecked hroot.accounted,
      fun hunchecked => hunchecked.soundTree hleaves hnodup hroot.accounted⟩

def leafPage (rowid rowid' : UInt8) : Page :=
  ⟨[13, 0, 0, 0, 2, 1, 248, 0, 1, 248, 1, 252] ++ replicate 492 0 ++
    [2, rowid, 2, 0, 2, rowid', 2, 0], 0⟩

def interiorPage (left divider right : UInt8) : Page :=
  ⟨[5, 0, 0, 0, 1, 1, 251, 0, 0, 0, 0, right, 1, 251] ++ replicate 493 0 ++
    [0, 0, 0, left, divider], 0⟩

def sortByStart : HeapOrder where
  pops := insertionSort fun a b => a.start ≤ b.start
  perm := perm_insertionSort _
  sorted := pairwise_insertionSort _

def imageOf (pages : Nat → Option Page) : Image where
  page := pages
  usableSpace := 512
  heap := sortByStart
  usable := by decide

/-- Two leaves under a root. -/
def treeImage : Image :=
  imageOf fun
    | 2 => some (interiorPage 3 5 4)
    | 3 => some (leafPage 3 5)
    | 4 => some (leafPage 6 9)
    | _ => none

def leafImage : Image := imageOf fun pageIdx => if pageIdx = 2 then some (leafPage 5 5) else none

def newCheck : CheckState := ⟨[], none, fun _ => none, []⟩

theorem integrityCheck_sound_iff_tree :
    ∃ leaves pages, Fringe treeImage 2 0 none none leaves ∧
      Reaches treeImage .normal 2 pages ∧
      (SoundTree treeImage leaves pages ↔ Unchecked treeImage leaves pages) := by
  obtain ⟨s, hcheck, herrors⟩ := map_eq_some_iff.1
    (show (integrityCheck treeImage 4 1 4 (newCheck.start 2)).map CheckState.errors = some [] by
      decide +kernel)
  exact integrityCheck_sound_iff (by decide) rfl hcheck herrors

/-- The check finds nothing in a leaf that holds one rowid twice. -/
theorem repeated_rowid_passes :
    ∃ s, integrityCheck leafImage 2 1 2 (newCheck.start 2) = some s ∧ s.errors = [] ∧
      Fringe leafImage 2 0 none none [⟨2, 0, 2, none, [5, 5], none⟩] ∧
      ∀ pages, ¬SoundTree leafImage [⟨2, 0, 2, none, [5, 5], none⟩] pages := by
  obtain ⟨s, hcheck, herrors⟩ := map_eq_some_iff.1
    (show (integrityCheck leafImage 2 1 2 (newCheck.start 2)).map CheckState.errors = some [] by
      decide +kernel)
  have hpage : leafImage.page 2 = some (leafPage 5 5) := rfl
  have hcells : (leafPage 5 5).cells leafImage.usableSpace =
      some [.tableLeaf 5 2 2 none, .tableLeaf 5 2 2 none] := by decide +kernel
  have hright : (leafPage 5 5).rightmostPointer = some none := by decide +kernel
  refine ⟨s, hcheck, herrors, .leaf hpage hcells hright, ?_⟩
  intro pages hsound
  exact absurd hsound.ascending (by decide)

end PgMicro.BTree
