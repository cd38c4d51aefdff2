import PgMicro.Incremental.Persistence

/-!
# What the state tables store

A table and its index stand for one list of rows in the order of their keys, each key once. Under
a lookup that ends in a leaf, writing a row inserts it, deletes it or changes its weight.
-/

namespace PgMicro.Incremental

open List StateTables

variable {κ β : Type} [LinearOrder κ] {t : StateTables κ β} {rows : List (TableRow κ β)}
  {r s : TableRow κ β} {key : κ}

theorem find?_of_pairwise_lt {α γ : Type} [LinearOrder γ] [BEq γ] [LawfulBEq γ] {f : α → γ}
    {l : List α} (h : l.Pairwise fun a b => f a < f b) {a : α} (ha : a ∈ l) :
    l.find? (fun x => f x == f a) = some a := by
  induction l with
  | nil => cases ha
  | cons x l ih =>
    obtain ⟨hx, hl⟩ := pairwise_cons.1 h
    cases ha with
    | head => exact find?_cons_of_pos (beq_self_eq_true _)
    | tail _ ha =>
      rw [find?_cons_of_neg (by simpa using (hx a ha).ne), ih hl ha]

open TableRow

structure Stores (t : StateTables κ β) (rows : List (TableRow κ β)) : Prop where
  index : t.index = rows.map entry
  table : rows.Perm t.table
  sorted : rows.Pairwise fun a b => a.key < b.key
  rowids : t.table.Pairwise fun a b => a.rowid < b.rowid

theorem Stores.empty (interior : Nat → IndexEntry κ → Bool) :
    Stores (empty interior : StateTables κ β) [] :=
  ⟨rfl, .nil, .nil, .nil⟩

namespace Stores

section

variable (h : Stores t rows)

include h

theorem row_of_mem (hr : r ∈ rows) : t.row r.rowid = some r :=
  find?_of_pairwise_lt h.rowids (h.table.subset hr)

theorem seek_of_mem (hr : r ∈ rows)
    (hleaf : t.interior t.changes r.entry = false) : t.seek (· == r.key) = some r.entry := by
  have hfound : t.index.find? (fun e => e.key == r.key) = some r.entry := by
    rw [h.index]
    refine find?_of_pairwise_lt (f := IndexEntry.key) (a := r.entry) ?_ (mem_map_of_mem hr)
    exact pairwise_map.2 h.sorted
  rw [seek, hfound]
  simp [Option.filter, hleaf, Bool.not_false]

theorem seek_of_absent (habsent : ∀ r ∈ rows, r.key ≠ key) : t.seek (· == key) = none := by
  have hnone : t.index.find? (fun e => e.key == key) = none := by
    rw [h.index, find?_eq_none]
    intro e he
    obtain ⟨r, hr, rfl⟩ := mem_map.1 he
    simpa [entry] using habsent r hr
  rw [seek, hnone]
  rfl

theorem eq_of_rowid (hr : r ∈ rows) (hs : s ∈ rows) (heq : s.rowid = r.rowid) : s = r := by
  have hrow := h.row_of_mem hs
  rw [heq, h.row_of_mem hr] at hrow
  exact (Option.some.inj hrow).symm

theorem rowid_lt_newRowid (hr : r ∈ t.table) : r.rowid < t.newRowid := by
  rw [newRowid]
  rcases hlast : t.table.getLast? with _ | last
  · rw [getLast?_eq_none_iff.1 hlast] at hr
    cases hr
  obtain ⟨front, hfront⟩ := getLast?_eq_some_iff.1 hlast
  have hrowids := h.rowids
  rw [hfront] at hr hrowids
  rcases mem_append.1 hr with hr | hr
  · have := (pairwise_append.1 hrowids).2.2 r hr last (mem_singleton_self _)
    simp only
    omega
  · rw [mem_singleton.1 hr]
    exact Int.lt_succ _

end

end Stores

theorem exists_orderedInsert {rows : List (TableRow κ β)}
    (hsorted : rows.Pairwise fun a b => a.key < b.key) (new : TableRow κ β)
    (habsent : ∀ r ∈ rows, r.key ≠ new.key) :
    ∃ rows' : List (TableRow κ β), rows'.Perm (new :: rows) ∧
      (rows'.Pairwise fun a b => a.key < b.key) ∧
      (rows.map entry).orderedInsert entryLE new.entry =
        rows'.map entry := by
  induction rows with
  | nil => exact ⟨[new], .refl _, pairwise_singleton _ _, rfl⟩
  | cons r rows ih =>
    obtain ⟨hr, hrows⟩ := pairwise_cons.1 hsorted
    obtain ⟨hne, habsent⟩ := forall_mem_cons.1 habsent
    rcases lt_or_gt_of_ne hne with hlt | hgt
    · obtain ⟨rows', hperm, hsorted', hmap⟩ := ih hrows habsent
      refine ⟨r :: rows', (hperm.cons r).trans (.swap ..), pairwise_cons.2 ⟨?_, hsorted'⟩, ?_⟩
      · intro s hs
        rcases mem_cons.1 (hperm.subset hs) with rfl | hs
        · exact hlt
        · exact hr s hs
      · have hnot : ¬entryLE new.entry r.entry := by
          rintro (h | h)
          · exact hlt.not_gt h
          · exact hne h.1.symm
        rw [map_cons, orderedInsert_of_not_le _ _ hnot, hmap, map_cons]
    · refine ⟨new :: r :: rows, .refl _, pairwise_cons.2 ⟨?_, hsorted⟩, ?_⟩
      · intro s hs
        rcases mem_cons.1 hs with rfl | hs
        · exact hgt
        · exact hgt.trans (hr s hs)
      · exact orderedInsert_cons_of_le _ _ (Or.inl hgt)

inductive Written (key : κ) (blob : β) (weight : Int) (rows rows' : List (TableRow κ β)) : Prop
  | inserted (rowid : Int) (habsent : ∀ r ∈ rows, r.key ≠ key)
      (hperm : rows'.Perm (⟨rowid, key, blob, weight⟩ :: rows))
  | deleted (r : TableRow κ β) (hkey : r.key = key) (hperm : rows.Perm (r :: rows'))
      (hweight : isize (r.weight + weight) ≤ 0)
  | updated (r : TableRow κ β) (rest : List (TableRow κ β)) (hkey : r.key = key)
      (hperm : rows.Perm (r :: rest))
      (hperm' : rows'.Perm (⟨r.rowid, key, blob, isize (r.weight + weight)⟩ :: rest))
      (hweight : 0 < isize (r.weight + weight))

namespace Stores

theorem insertNew (h : Stores t rows) (habsent : ∀ r ∈ rows, r.key ≠ key) (blob : β)
    (weight : Int) :
    ∃ rows', Stores (t.insertNew key blob weight) rows' ∧ Written key blob weight rows rows' := by
  obtain ⟨rows', hperm, hsorted, hmap⟩ :=
    exists_orderedInsert h.sorted ⟨t.newRowid, key, blob, weight⟩ habsent
  refine ⟨rows', ⟨?_, ?_, hsorted, ?_⟩, .inserted _ habsent hperm⟩
  · rw [StateTables.insertNew, h.index]
    exact hmap
  · exact hperm.trans ((h.table.cons _).trans (perm_append_singleton _ _).symm)
  · refine pairwise_append.2 ⟨h.rowids, pairwise_singleton _ _, ?_⟩
    intro r hr s hs
    rw [mem_singleton.1 hs]
    exact h.rowid_lt_newRowid hr

variable {front back : List (TableRow κ β)}

section

variable (h : Stores t (front ++ r :: back))

include h

theorem rowid_ne (hs : s ∈ front ++ back) : s.rowid ≠ r.rowid := by
  intro heq
  have hmem : r ∈ front ++ r :: back := mem_append_right _ mem_cons_self
  have hmem' : s ∈ front ++ r :: back := by
    rcases mem_append.1 hs with hs | hs
    · exact mem_append_left _ hs
    · exact mem_append_right _ (mem_cons_of_mem _ hs)
  have hsr := h.eq_of_rowid hmem hmem' heq
  obtain ⟨-, hback, hcross⟩ := pairwise_append.1 h.sorted
  rcases mem_append.1 hs with hs | hs
  · exact (hcross s hs r mem_cons_self).ne (congrArg _ hsr)
  · exact ((pairwise_cons.1 hback).1 s hs).ne' (congrArg _ hsr)

theorem delete : Stores (t.delete r.entry) (front ++ back) := by
  have hrows : (front ++ r :: back).filter (fun s => s.rowid != r.rowid) = front ++ back := by
    rw [filter_append, filter_cons_of_neg (by simp), ← filter_append,
      filter_eq_self]
    intro s hs
    simpa using h.rowid_ne hs
  refine ⟨?_, ?_, h.sorted.sublist ?_, h.rowids.filter _⟩
  · have hnotMem : r.entry ∉ front.map entry := by
      intro hmem
      obtain ⟨s, hs, heq⟩ := mem_map.1 hmem
      exact h.rowid_ne (mem_append_left _ hs) (congrArg IndexEntry.rowid heq)
    rw [StateTables.delete, h.index, map_append, map_cons,
      erase_append_right _ hnotMem, erase_cons_head, map_append]
  · have hfilter := h.table.filter fun s => s.rowid != r.rowid
    rwa [hrows] at hfilter
  · exact (sublist_cons_self _ _).append_left _

theorem updateExisting (blob : β) (weight : Int) :
    Stores (t.updateExisting r.rowid r.key blob weight)
      (front ++ ⟨r.rowid, r.key, blob, weight⟩ :: back) := by
  have hid : ∀ l : List (TableRow κ β), l ⊆ front ++ back →
      l.map (fun s => if s.rowid = r.rowid then ⟨r.rowid, r.key, blob, weight⟩ else s) = l := by
    intro l hl
    conv_rhs => rw [← map_id l]
    exact map_congr_left fun s hs => if_neg (h.rowid_ne (hl hs))
  have hrows : (front ++ r :: back).map
      (fun s => if s.rowid = r.rowid then ⟨r.rowid, r.key, blob, weight⟩ else s) =
      front ++ ⟨r.rowid, r.key, blob, weight⟩ :: back := by
    rw [map_append, map_cons, if_pos rfl, hid _ (subset_append_left ..),
      hid _ (subset_append_right ..)]
  refine ⟨?_, ?_, ?_, ?_⟩
  · rw [StateTables.updateExisting, h.index]
    simp only [map_append, map_cons]
    rfl
  · rw [← hrows]
    exact h.table.map _
  · have hkeys := h.sorted
    rw [← pairwise_map (f := key)] at hkeys ⊢
    rwa [map_append, map_cons] at hkeys ⊢
  · refine pairwise_map.2 (h.rowids.imp ?_)
    intro a b hab
    simp only [apply_ite rowid]
    split_ifs with ha hb hb
    · omega
    · omega
    · omega
    · exact hab

end

theorem writeRow (h : Stores t rows)
    (hleaf : ∀ e : IndexEntry κ, e.key = key → t.interior t.changes e = false) (blob : β)
    (weight : Int) :
    ∃ t' rows', t.writeRow key blob weight = .ok t' ∧ t'.interior = t.interior ∧
      Stores t' rows' ∧ Written key blob weight rows rows' := by
  by_cases habsent : ∀ r ∈ rows, r.key ≠ key
  · obtain ⟨rows', hstores, hwritten⟩ := h.insertNew habsent blob weight
    refine ⟨t.insertNew key blob weight, rows', ?_, rfl, hstores, hwritten⟩
    rw [StateTables.writeRow, h.seek_of_absent habsent]
  push Not at habsent
  obtain ⟨r, hr, rfl⟩ := habsent
  obtain ⟨front, back, rfl⟩ := append_of_mem hr
  have hwrite : t.writeRow r.key blob weight =
      if isize (r.weight + weight) ≤ 0 then .ok (t.delete r.entry)
      else .ok (t.updateExisting r.rowid r.key blob (isize (r.weight + weight))) := by
    rw [writeRow, h.seek_of_mem hr (hleaf _ rfl)]
    simp [entry, h.row_of_mem hr]
  by_cases hweight : isize (r.weight + weight) ≤ 0
  · rw [if_pos hweight] at hwrite
    exact ⟨_, _, hwrite, rfl, h.delete, .deleted r rfl perm_middle hweight⟩
  · rw [if_neg hweight] at hwrite
    exact ⟨_, _, hwrite, rfl, h.updateExisting blob _,
      .updated r _ rfl perm_middle perm_middle (by omega)⟩

end Stores

end PgMicro.Incremental
