import PgMicro.Paging.Contents

/-!
# A rollback to a savepoint restores the pages

The pager refines the store with savepoints, step by step, as long as no page is evicted that a
rollback has put back into the cache and that neither the WAL nor the database file holds.
-/

namespace PgMicro.Paging

open KeyedLog UndoLog Transition Function List Option Pager

variable {α : Type} {format : Format α} {n : Nat} {s s' : Pager α} {contents : Nat → α}
  {saves : List (SavepointKind × (Nat → α))} {page : Nat} {value : α}

namespace Pager

section

variable {target : Savepoint} {savepoints savepoints' : List Savepoint} {saved : Nat → α}
  {saves' : List (SavepointKind × (Nat → α))} {kind : SavepointKind}

theorem Holds.openSavepoint {deferredFkViolations : Int} (h : Holds format n s contents saves)
    (hn : n = format.databaseSize (contents 1)) :
    Holds format n (s.openSavepoint format kind deferredFkViolations) contents
      ((kind, contents) :: saves) := by
  have hoffset : (s.savepoints.head?.map Savepoint.writeOffset).getD 0 = s.subjournal.length :=
    h.journalEndOffset
  rw [Pager.openSavepoint, hoffset, h.image h.positive, ← hn]
  refine h.restack (h.stacked.push (.new kind s.subjournal.length n s.wal.length
    deferredFkViolations) hn h.positive rfl rfl rfl rfl) ?_
  rintro savepoint ⟨⟩
  rfl

theorem head_setWriteOffset {offset : Nat} {savepoint : Savepoint}
    (hmem : savepoint ∈ (setWriteOffset offset savepoints).head?) :
    savepoint.writeOffset = offset := by
  cases savepoints with
  | nil => cases hmem
  | cons older savepoints =>
    obtain rfl := some.inj hmem
    rfl

theorem Holds.continueAt (h : Holds format n s contents saves)
    (hnil : savepoints = [] → saves' = []) (hstacked : savepoints ≠ [] →
      Stacked format s.dirtyPages n s.subjournal s.wal contents savepoints saves') :
    Holds format n (s.continueAt s.subjournal.length savepoints) contents saves' := by
  cases savepoints with
  | nil =>
    rw [hnil rfl]
    exact h.restack (.nil rfl) fun _ hmem => nomatch hmem
  | cons savepoint savepoints =>
    exact h.restack ((hstacked (cons_ne_nil _ _)).setWriteOffset _) fun _ => head_setWriteOffset

variable {dbSize : Nat} {entries : List (Nat × α)} {rollbackBitset : Finset Nat}
  {cache : Nat → Option (Page α)}

theorem replay_of_mem (hmem : page ∈ rollbackBitset) :
    replay dbSize entries rollbackBitset cache page = cache page := by
  induction entries generalizing rollbackBitset cache with
  | nil => rfl
  | cons entry entries ih =>
    rw [replay]
    split
    · exact ih hmem
    next hnotMem =>
      split
      · exact ih hmem
      · rw [ih (Finset.mem_insert_of_mem hmem)]
        exact update_of_ne (ne_of_mem_of_not_mem hmem hnotMem) ..

theorem replay_eq (hnotMem : page ∉ rollbackBitset) (hle : page ≤ dbSize) :
    replay dbSize entries rollbackBitset cache page =
      ((entries.lookup page).map fun contents => ⟨contents, false, false⟩).or (cache page) := by
  induction entries generalizing rollbackBitset cache with
  | nil => rfl
  | cons entry entries ih =>
    obtain ⟨page', contents⟩ := entry
    rw [replay, lookup_cons]
    rcases eq_or_ne page page' with rfl | hne
    · rw [if_neg hnotMem, if_neg (by omega), beq_self_eq_true,
        replay_of_mem (Finset.mem_insert_self ..), update_self]
      rfl
    rw [beq_false_of_ne hne]
    split
    · exact ih hnotMem
    split
    · exact ih hnotMem
    · have hnotMem' : page ∉ insert page' rollbackBitset := by
        rw [Finset.mem_insert]
        exact fun h => h.elim hne hnotMem
      rw [ih hnotMem', update_of_ne hne]

theorem Holds.rollbackToSnapshot (h : Holds format n s contents saves)
    (hstacked : Stacked format s.dirtyPages n s.subjournal s.wal contents (target :: savepoints)
      ((kind, saved) :: saves'))
    {savepoints' : List Savepoint} {saves'' : List (SavepointKind × (Nat → α))}
    (hnew : Stacked format s.dirtyPages target.dbSize (s.subjournal.take target.startOffset)
      (s.wal.take target.walMaxFrame) saved savepoints' saves'')
    (hoffset : ∀ savepoint ∈ savepoints'.head?, savepoint.writeOffset = target.startOffset) :
    Holds format target.dbSize
      { s.rollbackToSnapshot target s.subjournal.length with savepoints := savepoints' } saved
      saves'' := by
  cases hstacked with
  | cons _ positive bounded start walStart span _ =>
    have hentries : (s.subjournal.drop target.startOffset).take
        (s.subjournal.length - target.startOffset) = s.subjournal.drop target.startOffset := by
      rw [← length_drop, take_length]
    rw [rollbackToSnapshot, hentries]
    generalize hdrop : s.subjournal.drop target.startOffset = entries at span
    -- a page without an image is as it was when the savepoint was opened
    have hread : ∀ page ≤ target.dbSize, entries.lookup page = none →
        s.readPageNoCache page = contents page →
        overlay s.dbFile (s.wal.take target.walMaxFrame) page = saved page := by
      intro page hle hnone heq
      rw [overlay_take (span.frames page hle hnone)]
      exact heq.trans (span.undoes.unchanged page hle hnone)
    have hcache : ∀ page ≤ target.dbSize,
        (if target.dbSize < page then none
          else replay target.dbSize entries ∅ s.pageCache page) =
          ((entries.lookup page).map fun contents => ⟨contents, false, false⟩).or
            (s.pageCache page) := by
      intro page hle
      rw [if_neg (by omega), replay_eq (Finset.notMem_empty _) hle]
    have hcached : ∀ page cached, (if target.dbSize < page then none
        else replay target.dbSize entries ∅ s.pageCache page) = some cached →
        page ≤ target.dbSize ∧
          (cached.contents = saved page ∧ cached.dirty = false ∧ cached.spilled = false ∨
          entries.lookup page = none ∧ s.pageCache page = some cached) := by
      intro page cached hcached
      rcases Nat.lt_or_ge target.dbSize page with hlt | hle
      · rw [if_pos hlt] at hcached
        cases hcached
      refine ⟨hle, ?_⟩
      rw [hcache page hle] at hcached
      cases hlookup : entries.lookup page with
      | some value =>
        rw [hlookup] at hcached
        cases hcached
        exact .inl ⟨span.undoes.image page hle value hlookup, rfl, rfl⟩
      | none =>
        rw [hlookup] at hcached
        exact .inr ⟨rfl, hcached⟩
    refine ⟨positive, ?_, ?_, ?_, ?_, ?_, ?_, ?_⟩
    · intro page cached hsome
      obtain ⟨hle, ⟨hcontents, -⟩ | ⟨hnone, hsame⟩⟩ := hcached page cached hsome
      · exact ⟨hle, hcontents⟩
      · exact ⟨hle, (h.cached page cached hsame).2.trans (span.undoes.unchanged page hle hnone)⟩
    · intro page cached hsome
      obtain ⟨hle, ⟨-, hdirty, hspilled⟩ | ⟨hnone, hsame⟩⟩ := hcached page cached hsome
      · rw [hdirty, hspilled]
        exact ⟨nofun, nofun⟩
      · obtain ⟨hmem, hspilled⟩ := h.flagged page cached hsame
        exact ⟨fun hdirty => Finset.mem_filter.2 ⟨hmem hdirty, hle⟩,
          fun hflag => hread page hle hnone (hspilled hflag)⟩
    · intro page hle hnone
      simp only at hnone
      rw [hcache page hle, or_eq_none_iff, map_eq_none_iff] at hnone
      exact hread page hle hnone.1 (h.uncached page (by omega) hnone.2)
    · intro page hle hnotMem
      have hnotMem' : page ∉ s.dirtyPages := fun hmem =>
        hnotMem (Finset.mem_filter.2 ⟨hmem, hle⟩)
      have hnone : entries.lookup page = none := by
        by_contra hlogged
        exact hnotMem' (span.dirty page hle hlogged)
      exact hread page hle hnone (h.clean page (by omega) hnotMem')
    · exact fun page hpage => (Finset.mem_filter.1 hpage).2
    · exact hnew.mono_dirty fun page hle hmem => Finset.mem_filter.2 ⟨hmem, hle⟩
    · intro savepoint hmem
      rw [hoffset savepoint hmem]
      exact (length_take_of_le start).symm

end

def Refines (format : Format α) (s : Pager α) (t : Store α) : Prop :=
  Holds format (t.dbSize format) s t.contents t.saved

section

variable {t : Store α}

section

variable (h : s.Refines format t)

include h

theorem Refines.modify (hle : page ≤ t.dbSize format)
    (hsize : page = 1 → format.databaseSize value = t.dbSize format) :
    (s.modify page value).Refines format
      { t with contents := update t.contents page value } := by
  have hdbSize : Store.dbSize format { t with contents := update t.contents page value } =
      t.dbSize format := by
    rw [Store.dbSize]
    rcases eq_or_ne 1 page with rfl | hne
    · exact hsize rfl
    · simp only [update_of_ne hne]
      rfl
  rw [Refines, hdbSize]
  exact Holds.modify h hle

theorem Refines.allocatePage {extra : Nat} :
    (s.allocatePage format extra).Refines format (t.allocatePage format extra) := by
  have hdbSize : Store.dbSize format (t.allocatePage format extra) =
      t.dbSize format + extra + 1 := format.databaseSize_set ..
  rw [Refines, hdbSize]
  exact Holds.allocatePage h rfl

theorem Refines.releaseSavepoint : s.releaseSavepoint.Refines format t.releaseSavepoint := by
  obtain ⟨cache, dirty, wal, dbFile, journal, savepoints⟩ := s
  obtain ⟨contents, saved⟩ := t
  have hstacked : Stacked format dirty _ journal wal contents savepoints saved := h.stacked
  have hoffset := h.offset
  cases savepoints with
  | nil =>
    cases hstacked with
    | nil => exact h
  | cons savepoint savepoints =>
    have hpop := hstacked.pop
    cases hstacked with
    | cons _ _ _ _ _ _ below =>
      rw [releaseSavepoint, Store.releaseSavepoint]
      simp only
      split
      · rw [show savepoint.writeOffset = journal.length from hoffset savepoint rfl]
        refine Holds.continueAt h ?_ hpop
        rintro rfl
        cases below
        rfl
      · exact h

theorem Refines.rollbackToNewestSavepoint :
    s.rollbackToNewestSavepoint.2.Refines format t.rollbackToNewestSavepoint := by
  obtain ⟨cache, dirty, wal, dbFile, journal, savepoints⟩ := s
  obtain ⟨contents, saved⟩ := t
  have hstacked : Stacked format dirty _ journal wal contents savepoints saved := h.stacked
  have hoffset := h.offset
  cases savepoints with
  | nil =>
    cases hstacked with
    | nil => exact h
  | cons savepoint savepoints =>
    have hstacked' := hstacked
    cases hstacked with
    | cons size _ _ _ _ _ below =>
      rw [rollbackToNewestSavepoint, Store.rollbackToNewestSavepoint]
      simp only
      split
      · rw [show savepoint.writeOffset = journal.length from hoffset savepoint rfl, Refines,
          Store.dbSize, ← size]
        exact Holds.rollbackToSnapshot h hstacked' (below.setWriteOffset _)
          fun _ => head_setWriteOffset
      · exact h

theorem Refines.fromNamed (name : String) :
    (fromNamed name s.savepoints = [] ∧ Store.fromNamed name t.saved = []) ∨
      ∃ target savepoints saved saves, fromNamed name s.savepoints = target :: savepoints ∧
        Store.fromNamed name t.saved = (target.kind, saved) :: saves ∧
        Stacked format s.dirtyPages (t.dbSize format) s.subjournal s.wal t.contents
          (target :: savepoints) ((target.kind, saved) :: saves) := by
  obtain ⟨hnil, hcons⟩ := h.stacked.fromNamed name
  cases hfrom : Paging.fromNamed name s.savepoints with
  | nil => exact .inl ⟨rfl, hnil hfrom⟩
  | cons target savepoints =>
    rw [hfrom] at hcons
    have hstacked := hcons (cons_ne_nil _ _)
    generalize Store.fromNamed name t.saved = saves at hstacked
    cases hstacked with
    | @cons _ _ _ _ saved _ _ saves size positive bounded start walStart span below =>
      exact .inr ⟨target, savepoints, saved, saves, rfl, rfl,
        .cons size positive bounded start walStart span below⟩

variable {name : String}

theorem Refines.releaseNamedSavepoint :
    (s.releaseNamedSavepoint name).2.Refines format (t.releaseNamedSavepoint name) := by
  rw [Pager.releaseNamedSavepoint, Store.releaseNamedSavepoint]
  obtain ⟨hnil, hnil'⟩ | ⟨target, savepoints, saved, saves, hfrom, hfrom', hstacked⟩ :=
    h.fromNamed name
  · rw [hnil, hnil']
    exact h
  rw [hfrom, hfrom']
  have hlength : savepoints = [] ↔ saves.length = 0 := by
    have := congrArg length hstacked.kinds
    simp only [map_cons, length_cons, length_map] at this
    rw [← length_eq_zero_iff]
    omega
  simp only [hlength]
  split
  · exact h
  · rw [h.journalEndOffset]
    refine Holds.continueAt h ?_ hstacked.pop
    intro hnil
    exact length_eq_zero_iff.1 (hlength.1 hnil)

theorem Refines.rollbackToNamedSavepoint :
    (s.rollbackToNamedSavepoint name).2.Refines format (t.rollbackToNamedSavepoint name) := by
  rw [Pager.rollbackToNamedSavepoint, Store.rollbackToNamedSavepoint]
  obtain ⟨hnil, hnil'⟩ | ⟨target, savepoints, saved, saves, hfrom, hfrom', hstacked⟩ :=
    h.fromNamed name
  · rw [hnil, hnil']
    exact h
  rw [hfrom, hfrom', h.journalEndOffset]
  have hstacked' := hstacked
  cases hstacked with
  | cons size positive _ start walStart _ below =>
    have hpush := (below.setWriteOffset target.startOffset).push target.fromSnapshot size positive
      rfl (length_take_of_le start).symm (length_take_of_le walStart).symm rfl
    rw [Refines, Store.dbSize, ← size]
    refine Holds.rollbackToSnapshot h hstacked' hpush ?_
    rintro savepoint ⟨⟩
    rfl

end

theorem exec_refines {a : Action α} (hmeets : s.EvictsReadable a) (h : s.Refines format t)
    (hexec : s.exec format a = some s') :
    ∃ t', t.exec format a = some t' ∧ s'.Refines format t' := by
  have hsize : format.databaseSize (s.image 1) = t.dbSize format := by
    rw [h.image h.positive, Store.dbSize]
  cases a with
  | readPage page =>
    simp only [exec, hsize, ite_none_right_eq_some, some.injEq] at hexec
    obtain ⟨hle, rfl⟩ := hexec
    exact ⟨t, rfl, (Holds.readPage h hle).1⟩
  | modify page value =>
    simp only [exec, hsize, ite_none_right_eq_some, some.injEq] at hexec
    obtain ⟨⟨hle, hvalue⟩, rfl⟩ := hexec
    exact ⟨_, rfl, h.modify hle hvalue⟩
  | allocatePage extra =>
    cases hexec
    exact ⟨_, rfl, h.allocatePage⟩
  | evict page =>
    simp only [exec, ite_none_right_eq_some, some.injEq] at hexec
    obtain ⟨hevictable, rfl⟩ := hexec
    exact ⟨t, rfl, Holds.evict h fun _ => Holds.readable h hevictable hmeets⟩
  | spill pages =>
    simp only [exec, ite_none_right_eq_some, some.injEq] at hexec
    obtain ⟨⟨-, hspillable⟩, rfl⟩ := hexec
    exact ⟨t, rfl, Holds.spill h hspillable⟩
  | openSavepoint kind deferredFkViolations =>
    cases hexec
    exact ⟨_, rfl, Holds.openSavepoint h rfl⟩
  | releaseSavepoint =>
    cases hexec
    exact ⟨_, rfl, h.releaseSavepoint⟩
  | releaseNamedSavepoint name =>
    cases hexec
    exact ⟨_, rfl, h.releaseNamedSavepoint⟩
  | rollbackToNewestSavepoint =>
    cases hexec
    exact ⟨_, rfl, h.rollbackToNewestSavepoint⟩
  | rollbackToNamedSavepoint name =>
    cases hexec
    exact ⟨_, rfl, h.rollbackToNamedSavepoint⟩

end

structure Begun (format : Format α) (s : Pager α) : Prop where
  dirtyPages : s.dirtyPages = ∅
  savepoints : s.savepoints = []
  subjournal : s.subjournal = []
  pageCache : ∀ page cached, s.pageCache page = some cached →
    page ≤ format.databaseSize (s.image 1) ∧ cached.contents = s.readPageNoCache page ∧
      cached.dirty = false
  positive : 1 ≤ format.databaseSize (s.image 1)

theorem Begun.refines (h : s.Begun format) : s.Refines format ⟨s.image, []⟩ where
  positive := h.positive
  cached page cached hcached := by
    refine ⟨(h.pageCache page cached hcached).1, ?_⟩
    change cached.contents = s.image page
    rw [image, hcached]
  flagged page cached hcached := by
    obtain ⟨-, hcontents, hdirty⟩ := h.pageCache page cached hcached
    rw [hdirty]
    refine ⟨fun hfalse => absurd hfalse Bool.false_ne_true, fun _ => ?_⟩
    change _ = s.image page
    rw [image, hcached]
    exact hcontents.symm
  uncached page _ hnone := by
    change _ = s.image page
    rw [image, hnone]
  clean page _ _ := by
    change _ = s.image page
    rw [image]
    cases hcached : s.pageCache page with
    | some cached => exact (h.pageCache page cached hcached).2.1.symm
    | none => rfl
  dirty page hpage := by
    rw [h.dirtyPages] at hpage
    exact absurd hpage (Finset.notMem_empty page)
  stacked := by
    rw [h.savepoints, h.subjournal]
    exact .nil rfl
  offset savepoint hmem := by
    rw [h.savepoints] at hmem
    cases hmem

/-- In every run in which a restored page is evicted only if it can be read back, the pager gives
the contents of the store with savepoints: in which a rollback brings back, for the pages up to
the size that the savepoint has, what they held when it was opened. This is what pages are read
and committed with, and no page beyond the size is dirty. -/
theorem rollback_restores_pages {actions : List (Action α)} (hbegun : s.Begun format)
    (hmeets : Meets (exec format) EvictsReadable s actions)
    (hrun : run (exec format) s actions = some s') :
    ∃ t, run (Store.exec format) ⟨s.image, []⟩ actions = some t ∧
      (∀ page ≤ t.dbSize format, s'.image page = t.contents page) ∧
      (∀ collected ∈ s'.collectedPages,
        collected.1 ≤ t.dbSize format ∧ collected.2 = t.contents collected.1) ∧
      ∀ page cached, s'.pageCache page = some cached → cached.dirty = true →
        page ≤ t.dbSize format := by
  obtain ⟨t, hrun', hrefines⟩ : ∃ t, run (Store.exec format) ⟨s.image, []⟩ actions = some t ∧
      s'.Refines format t := by
    refine run_simulates ?_ hmeets hbegun.refines hrun
    exact fun hmeets h hexec => exec_refines hmeets h hexec
  refine ⟨t, hrun', fun page hle => hrefines.image hle, ?_, ?_⟩
  · intro collected hcollected
    obtain ⟨page, hpage, rfl⟩ := mem_map.1 hcollected
    have hle := hrefines.dirty page ((Finset.mem_sort _).1 hpage)
    exact ⟨hle, hrefines.image hle⟩
  · intro page cached hcached _
    exact (hrefines.cached page cached hcached).1

def numbers : Format (Nat × Nat) where
  databaseSize := Prod.fst
  setDatabaseSize contents n := (n, contents.2)
  newPage := (0, 0)
  databaseSize_set _ _ := rfl

def threePages : Pager (Nat × Nat) where
  pageCache _ := none
  dirtyPages := ∅
  wal := []
  dbFile _ := (3, 0)
  subjournal := []
  savepoints := []

theorem threePages_begun : threePages.Begun numbers :=
  ⟨rfl, rfl, rfl, fun _ _ hcached => (some_ne_none _ hcached.symm).elim, by decide⟩

def spillAndRollBack : List (Action (Nat × Nat)) :=
  [.modify 2 (0, 1), .openSavepoint (.named "s" false) 0, .modify 2 (0, 2), .spill [2], .evict 2,
    .allocatePage 0, .openSavepoint .statement 0, .modify 2 (0, 3), .releaseSavepoint,
    .rollbackToNamedSavepoint "s"]

theorem rollback_restores_pages_spillAndRollBack :
    ∃ s', run (exec numbers) threePages spillAndRollBack = some s' ∧ s'.image 2 = (0, 1) ∧
      ∀ collected ∈ s'.collectedPages, collected.1 ≤ 3 := by
  obtain ⟨s', hrun⟩ := isSome_iff_exists.1
    (show (run (exec numbers) threePages spillAndRollBack).isSome by decide +kernel)
  obtain ⟨t, hrun', himage, hcollected, -⟩ := rollback_restores_pages threePages_begun
    (show Meets (exec numbers) EvictsReadable threePages spillAndRollBack by decide +kernel) hrun
  obtain ⟨t', hrun'', ht'⟩ := map_eq_some_iff.1
    (show (run (Store.exec numbers) ⟨threePages.image, []⟩ spillAndRollBack).map
      (fun t => (t.dbSize numbers, t.contents 2)) = some (3, (0, 1)) by decide +kernel)
  obtain rfl := some.inj (hrun'.symm.trans hrun'')
  obtain ⟨hsize, hcontents⟩ := Prod.mk.inj ht'
  refine ⟨s', hrun, (himage 2 (by rw [hsize]; decide)).trans hcontents, ?_⟩
  intro collected hmem
  rw [← hsize]
  exact (hcollected collected hmem).1

def rollBackAndEvict : List (Action (Nat × Nat)) :=
  [.modify 2 (0, 1), .openSavepoint (.named "s" false) 0, .modify 2 (0, 2),
    .rollbackToNamedSavepoint "s", .evict 2]

/-- It is then read, and committed, with the contents from before the transaction. -/
theorem rollBackAndEvict_loses_page :
    (∃ s', run (exec numbers) threePages rollBackAndEvict = some s' ∧ s'.image 2 = (3, 0) ∧
      s'.collectedPages = [(2, (3, 0))]) ∧
    ∃ t, run (Store.exec numbers) ⟨threePages.image, []⟩ rollBackAndEvict = some t ∧
      t.contents 2 = (0, 1) := by
  constructor
  · obtain ⟨s', hrun, hs'⟩ := map_eq_some_iff.1
      (show (run (exec numbers) threePages rollBackAndEvict).map
        (fun s => (s.image 2, s.collectedPages)) = some ((3, 0), [(2, (3, 0))]) by decide +kernel)
    exact ⟨s', hrun, Prod.mk.inj hs'⟩
  · exact map_eq_some_iff.1
      (show (run (Store.exec numbers) ⟨threePages.image, []⟩ rollBackAndEvict).map
        (fun t => t.contents 2) = some (0, 1) by decide +kernel)

end Pager

end PgMicro.Paging
