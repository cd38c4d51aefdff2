import Mathlib.Order.Interval.Finset.Nat
import PgMicro.Freelist.Pages

/-!
# The trunk chain

The trunk chain with its leaves is one list of pages. Freeing a page adds it to that list and
allocating takes one away.
-/

namespace PgMicro.Freelist

open List Function Nat

variable {l : List Nat} {pageId : Nat} {p' p : Pager} {cfg : Config} {pool : Pool}

namespace Page

variable (page : Page) (n i : Nat)

@[simp]
theorem nextTrunk_setLeafCount : (page.setLeafCount n).nextTrunk = page.nextTrunk := rfl

@[simp]
theorem nextTrunk_setLeaf : (page.setLeaf i n).nextTrunk = page.nextTrunk :=
  update_of_ne (by omega) ..

@[simp]
theorem nextTrunk_shiftLeaves : (page.shiftLeaves n).nextTrunk = page.nextTrunk := rfl

@[simp]
theorem leafCount_setLeafCount : (page.setLeafCount n).leafCount = n := rfl

@[simp]
theorem leafCount_setLeaf : (page.setLeaf i n).leafCount = page.leafCount :=
  update_of_ne (by omega) ..

theorem leaf_setLeafCount : (page.setLeafCount n).leaf i = page.leaf i :=
  update_of_ne (by omega) ..

theorem leaf_setLeaf (k : Nat) : (page.setLeaf i n).leaf k = if k = i then n else page.leaf k := by
  rw [leaf, setLeaf, update_apply]
  simp only [add_left_cancel_iff]
  rfl

theorem leaf_shiftLeaves (h : i < n) : (page.shiftLeaves n).leaf i = page.leaf (i + 1) :=
  if_pos (by omega)

theorem leaves_of_leafCount (h : page.leafCount = 0) : page.leaves = [] := by
  rw [leaves, h]
  rfl

theorem leaves_add :
    ((page.setLeafCount (page.leafCount + 1)).setLeaf page.leafCount n).leaves =
      page.leaves ++ [n] := by
  rw [leaves, leafCount_setLeaf, leafCount_setLeafCount, range_succ, map_append,
    map_singleton, leaf_setLeaf, if_pos rfl, leaves]
  congr 1
  apply map_congr_left
  intro k hk
  rw [leaf_setLeaf, if_neg (Nat.ne_of_lt (mem_range.1 hk)), leaf_setLeafCount]

theorem leaves_shift (h : page.leafCount ≠ 0) :
    page.leaves = page.leaf 0 ::
      ((page.shiftLeaves (page.leafCount - 1)).setLeafCount (page.leafCount - 1)).leaves := by
  obtain ⟨count, hcount⟩ := exists_eq_succ_of_ne_zero h
  rw [leaves, leaves, leafCount_setLeafCount, hcount, succ_sub_one, range_succ_eq_map,
    map_cons, map_map]
  congr 1
  apply map_congr_left
  intro k hk
  rw [leaf_setLeafCount, leaf_shiftLeaves _ _ _ (mem_range.1 hk)]
  rfl

end Page

/-- From `start` the trunk chain lists these pages, and no trunk more leaves than fit. -/
inductive Lists (cfg : Config) (pages : Nat → Page) : Nat → List Nat → Prop
  | nil {start : Nat} (ends : start = 0) : Lists cfg pages start []
  | cons {start : Nat} {rest : List Nat} (goes : start ≠ 0)
      (fits : (pages start).leafCount ≤ cfg.maxFreeListEntries)
      (tail : Lists cfg pages (pages start).nextTrunk rest) :
      Lists cfg pages start (start :: ((pages start).leaves ++ rest))

namespace Lists

variable {pages pages' : Nat → Page} {start : Nat}

section

variable (h : Lists cfg pages start l)

include h

theorem congr (hpages : ∀ n ∈ l, pages' n = pages n) : Lists cfg pages' start l := by
  induction h with
  | nil ends => exact .nil ends
  | @cons start rest goes fits tail ih =>
    have hstart : pages' start = pages start := hpages start mem_cons_self
    have hrest : ∀ n ∈ rest, pages' n = pages n := fun n hn =>
      hpages n (mem_cons_of_mem _ (mem_append_right _ hn))
    rw [← hstart]
    rw [← hstart] at fits
    refine .cons goes fits ?_
    rw [hstart]
    exact ih hrest

theorem update (hout : pageId ∉ l) (page : Page) :
    Lists cfg (update pages pageId page) start l := by
  apply h.congr
  intro n hn
  exact update_of_ne (fun heq => hout (by rwa [← heq])) ..

theorem uncons (goes : start ≠ 0) :
    ∃ rest, l = start :: ((pages start).leaves ++ rest) ∧
      (pages start).leafCount ≤ cfg.maxFreeListEntries ∧
      Lists cfg pages (pages start).nextTrunk rest := by
  cases h with
  | nil ends => exact absurd ends goes
  | cons _ fits tail => exact ⟨_, rfl, fits, tail⟩

end

theorem head {next : Nat} (h : Lists cfg pages next l) (hout : start ∉ l) (goes : start ≠ 0)
    (page : Page) (hnext : page.nextTrunk = next)
    (hfits : page.leafCount ≤ cfg.maxFreeListEntries) :
    Lists cfg (Function.update pages start page) start (start :: (page.leaves ++ l)) := by
  have hpage : Function.update pages start page start = page := Function.update_self ..
  have hcons : Lists cfg (Function.update pages start page) start
      (start :: ((Function.update pages start page start).leaves ++ l)) := by
    apply Lists.cons goes
    · rwa [hpage]
    · rw [hpage, hnext]
      exact h.update hout page
  rwa [hpage] at hcons

end Lists

/-- The trunk chain lists the free pages of the pool, each once; the header counts them, up to
those that a running call has counted ahead; the other pages are in use. -/
structure Represents (cfg : Config) (p : Pager) (pool : Pool) (ahead : Nat) : Prop where
  page1 : 1 ≤ p.header.databaseSize
  listed : ∃ l, Lists cfg p.pages p.header.freelistTrunkPage l ∧ l.Nodup ∧
    (∀ n, n ∈ l ↔ n ∈ pool.free) ∧ p.header.freelistPages = l.length + ahead
  free : ∀ n ∈ pool.free,
    2 ≤ n ∧ n ≤ p.header.databaseSize ∧ some n ≠ cfg.pendingBytePageId
  allocated : ∀ n, n ∈ pool.allocated ↔
    2 ≤ n ∧ n ≤ p.header.databaseSize ∧ some n ≠ cfg.pendingBytePageId ∧ n ∉ pool.free

namespace Represents

theorem freed (h : Represents cfg p pool 1) (hid : pageId ∈ pool.allocated) (hl : l.Nodup)
    (hmem : ∀ n, n ∈ l ↔ n ∈ pool.free) (hcount : p.header.freelistPages = l.length + 1)
    (hlists : Lists cfg p'.pages p'.header.freelistTrunkPage l') (hperm : l'.Perm (pageId :: l))
    (hsize : p'.header.databaseSize = p.header.databaseSize)
    (hpages : p'.header.freelistPages = p.header.freelistPages) :
    Represents cfg p' (pool.freePage pageId) 0 := by
  obtain ⟨hlow, hhigh, hpending, hfree⟩ := (h.allocated pageId).1 hid
  have hnot : pageId ∉ l := fun hin => hfree ((hmem pageId).1 hin)
  refine ⟨hsize ▸ h.page1, ⟨l', hlists, ?_, ?_, ?_⟩, ?_, ?_⟩
  · exact hperm.nodup_iff.2 (nodup_cons.2 ⟨hnot, hl⟩)
  · intro n
    rw [hperm.mem_iff, mem_cons, hmem n, Pool.freePage, Finset.mem_insert]
  · rw [hpages, hcount, hperm.length_eq, length_cons]
  · intro n hn
    rw [hsize]
    rcases Finset.mem_insert.1 hn with rfl | hn
    · exact ⟨hlow, hhigh, hpending⟩
    · exact h.free n hn
  · intro n
    rw [hsize, Pool.freePage]
    simp only [Finset.mem_erase, Finset.mem_insert, h.allocated n, not_or]
    tauto

theorem reused (h : Represents cfg p pool 0) (hl : l.Nodup) (hmem : ∀ n, n ∈ l ↔ n ∈ pool.free)
    (hcount : p.header.freelistPages = l.length)
    (hlists : Lists cfg p'.pages p'.header.freelistTrunkPage l') (hperm : l.Perm (pageId :: l'))
    (hsize : p'.header.databaseSize = p.header.databaseSize)
    (hpages : p'.header.freelistPages = p.header.freelistPages - 1) :
    Represents cfg p' (pool.allocatePage pageId) 0 := by
  obtain ⟨hnot, hl'⟩ := nodup_cons.1 (hperm.nodup_iff.1 hl)
  have hid : pageId ∈ pool.free := (hmem pageId).1 (hperm.mem_iff.2 mem_cons_self)
  obtain ⟨hlow, hhigh, hpending⟩ := h.free pageId hid
  refine ⟨hsize ▸ h.page1, ⟨l', hlists, hl', ?_, ?_⟩, ?_, ?_⟩
  · intro n
    rw [Pool.allocatePage, Finset.mem_erase, ← hmem n, hperm.mem_iff, mem_cons]
    constructor
    · intro hn
      exact ⟨fun heq => hnot (heq ▸ hn), .inr hn⟩
    · rintro ⟨hne, heq | hn⟩
      · exact absurd heq hne
      · exact hn
  · rw [hpages, hcount, hperm.length_eq, length_cons, Nat.add_sub_cancel, Nat.add_zero]
  · intro n hn
    rw [hsize]
    exact h.free n (Finset.mem_of_mem_erase hn)
  · intro n
    rw [hsize, Pool.allocatePage]
    simp only [Finset.mem_insert, Finset.mem_erase, h.allocated n]
    constructor
    · rintro (rfl | hn)
      · exact ⟨hlow, hhigh, hpending, fun hn => hn.1 rfl⟩
      · exact ⟨hn.1, hn.2.1, hn.2.2.1, fun hin => hn.2.2.2 hin.2⟩
    · rintro ⟨hlow, hhigh, hpending, hn⟩
      by_cases heq : n = pageId
      · exact .inl heq
      · exact .inr ⟨hlow, hhigh, hpending, fun hin => hn ⟨heq, hin⟩⟩

theorem extended (h : Represents cfg p pool 0) (hend : p.header.databaseSize < pageId)
    (hpending : some pageId ≠ cfg.pendingBytePageId)
    (hskip : ∀ n, p.header.databaseSize < n → n < pageId → some n = cfg.pendingBytePageId)
    (hkept : ∀ n ≤ p.header.databaseSize, p'.pages n = p.pages n)
    (hheader : p'.header = { p.header with databaseSize := pageId }) :
    Represents cfg p' (pool.allocatePage pageId) 0 := by
  have hpage1 := h.page1
  obtain ⟨l, hlists, hl, hmem, hcount⟩ := h.listed
  have hnot : pageId ∉ pool.free := fun hin => by
    have := (h.free pageId hin).2.1
    omega
  have hfree : (pool.allocatePage pageId).free = pool.free := Finset.erase_eq_of_notMem hnot
  refine ⟨?_, ⟨l, ?_, hl, ?_, ?_⟩, ?_, ?_⟩
  · rw [hheader]
    exact le_trans hpage1 (le_of_lt hend)
  · rw [hheader]
    exact hlists.congr fun n hn => hkept n (h.free n ((hmem n).1 hn)).2.1
  · rwa [hfree]
  · rw [hheader]
    exact hcount
  · intro n hn
    rw [hfree] at hn
    obtain ⟨hlow, hhigh, hpending⟩ := h.free n hn
    rw [hheader]
    exact ⟨hlow, le_trans hhigh (le_of_lt hend), hpending⟩
  · intro n
    rw [hheader, hfree, Pool.allocatePage, Finset.mem_insert, h.allocated n]
    dsimp only
    constructor
    · rintro (rfl | ⟨hn2, hnsize, hnp, hnf⟩)
      · exact ⟨by omega, le_refl _, hpending, hnot⟩
      · exact ⟨hn2, by omega, hnp, hnf⟩
    · rintro ⟨hn2, hnsize, hnp, hnf⟩
      rcases lt_or_ge p.header.databaseSize n with hgt | hle
      · rcases lt_or_ge n pageId with hlt | hge
        · exact absurd (hskip n hgt hlt) hnp
        · exact .inl (by omega)
      · exact .inr ⟨hn2, hle, hnp, hnf⟩

theorem written {ahead : Nat} (h : Represents cfg p pool ahead)
    (hkept : ∀ n ≤ p.header.databaseSize, p'.pages n = p.pages n) (hheader : p'.header = p.header) :
    Represents cfg p' pool ahead := by
  obtain ⟨page1, ⟨l, hlists, hl, hmem, hcount⟩, free, allocated⟩ := h
  rw [← hheader] at page1 hlists hcount free allocated
  refine ⟨page1, ⟨l, ?_, hl, hmem, hcount⟩, free, allocated⟩
  exact hlists.congr fun n hn => hkept n (hheader ▸ (free n ((hmem n).1 hn)).2.1)

end Represents

end PgMicro.Freelist
