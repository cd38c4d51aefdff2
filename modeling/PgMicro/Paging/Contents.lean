import PgMicro.Paging.SavepointStore

/-!
# The contents that a pager holds

The contents of a page are those in the cache, or else those that the WAL and the database file
give; reading, changing, allocating, spilling and evicting pages keeps track of them.
-/

namespace PgMicro.Paging

open KeyedLog UndoLog Function List Finset

variable {α : Type} {format : Format α} {n : Nat} {s : Pager α} {contents : Nat → α}
  {saves : List (SavepointKind × (Nat → α))} {page : Nat} {value : α} {journal : List (Nat × α)}
  {cached : Page α}

namespace Pager

def EvictsReadable (s : Pager α) : Action α → Prop
  | .evict page => page ∈ s.dirtyPages → ∀ cached ∈ s.pageCache page, cached.dirty = false →
      cached.spilled = false → s.readPageNoCache page = cached.contents
  | _ => True

instance [DecidableEq α] (s : Pager α) : DecidablePred s.EvictsReadable := fun action => by
  unfold EvictsReadable
  split <;> infer_instance

structure Holds (format : Format α) (n : Nat) (s : Pager α) (contents : Nat → α)
    (saves : List (SavepointKind × (Nat → α))) : Prop where
  positive : 1 ≤ n
  cached : ∀ page cached, s.pageCache page = some cached → page ≤ n ∧
    cached.contents = contents page
  flagged : ∀ page cached, s.pageCache page = some cached →
    (cached.dirty = true → page ∈ s.dirtyPages) ∧
      (cached.spilled = true → s.readPageNoCache page = contents page)
  uncached : ∀ page ≤ n, s.pageCache page = none → s.readPageNoCache page = contents page
  clean : ∀ page ≤ n, page ∉ s.dirtyPages → s.readPageNoCache page = contents page
  dirty : ∀ page ∈ s.dirtyPages, page ≤ n
  stacked : Stacked format s.dirtyPages n s.subjournal s.wal contents s.savepoints saves
  offset : ∀ savepoint ∈ s.savepoints.head?, savepoint.writeOffset = s.subjournal.length

theorem pageCache_evict {page' : Nat} (hcached : (s.evict page).pageCache page' = some cached) :
    s.pageCache page' = some cached := by
  rcases eq_or_ne page' page with rfl | hne
  · exact absurd ((update_self ..).symm.trans hcached) (Option.some_ne_none _).symm
  · exact (update_of_ne hne ..).symm.trans hcached

theorem writePage_length {entry : Nat × α} :
    writePage journal journal.length entry = journal ++ [entry] := by
  rw [writePage, take_length, drop_eq_nil_of_le (Nat.le_succ _)]

def Logged (s : Pager α) (page : Nat) : Prop := Stacked.Logged s.subjournal s.savepoints page

theorem subjournal_frame (s : Pager α) (page : Nat) (contents : α) :
    (s.subjournalPageIfRequired page contents).pageCache = s.pageCache ∧
      (s.subjournalPageIfRequired page contents).dirtyPages = s.dirtyPages := by
  rw [subjournalPageIfRequired]
  split
  · exact ⟨rfl, rfl⟩
  · split
    · exact ⟨rfl, rfl⟩
    · split <;> exact ⟨rfl, rfl⟩

theorem addDirty_eq (s : Pager α) (page : Nat) (contents : α) :
    s.addDirty page contents =
      { ({ s with dirtyPages := insert page s.dirtyPages } : Pager α).subjournalPageIfRequired page
          contents with
        pageCache := update s.pageCache page ((s.pageCache page).map fun cached =>
          { cached with dirty := true, spilled := false }) } := by
  rw [addDirty, setDirty, (subjournal_frame ..).1]
  obtain ⟨cache, dirty, wal, dbFile, journal, savepoints⟩ := s
  cases savepoints with
  | nil => rfl
  | cons current savepoints =>
    simp only [subjournalPageIfRequired]
    split
    · rfl
    · split <;> rfl

structure Writable (s : Pager α) (page : Nat) : Prop where
  cached : ∃ cached, s.pageCache page = some cached ∧ cached.dirty = true ∧ cached.spilled = false
  dirty : page ∈ s.dirtyPages
  logged : s.Logged page

/-- The contents with new pages from `n` on. -/
def withNewPages (format : Format α) (n count : Nat) (contents : Nat → α) (page : Nat) : α :=
  if n < page ∧ page ≤ n + count then format.newPage else contents page

variable (h : Holds format n s contents saves)

include h

theorem Holds.image (hle : page ≤ n) : s.image page = contents page := by
  rw [Pager.image]
  cases hcached : s.pageCache page with
  | some cached => exact (h.cached page cached hcached).2
  | none => exact h.uncached page hle hcached

theorem Holds.journalEndOffset : s.journalEndOffset = s.subjournal.length := by
  rw [Pager.journalEndOffset]
  cases hsavepoints : s.savepoints with
  | nil =>
    have hstacked := h.stacked
    rw [hsavepoints] at hstacked
    cases hstacked with
    | nil empty => rw [empty]; rfl
  | cons savepoint savepoints =>
    exact h.offset savepoint (by rw [hsavepoints]; rfl)

theorem Holds.restack {savepoints : List Savepoint} {saves' : List (SavepointKind × (Nat → α))}
    (hstacked : Stacked format s.dirtyPages n journal s.wal contents savepoints saves')
    (hoffset : ∀ savepoint ∈ savepoints.head?, savepoint.writeOffset = journal.length) :
    Holds format n { s with subjournal := journal, savepoints } contents saves' :=
  ⟨h.positive, h.cached, h.flagged, h.uncached, h.clean, h.dirty, hstacked, hoffset⟩

theorem Holds.put (cached : Page α) (hle : page ≤ n)
    (hflagged : (cached.dirty = true → page ∈ s.dirtyPages) ∧
      (cached.spilled = true → s.readPageNoCache page = cached.contents))
    (hclean : page ∉ s.dirtyPages → s.readPageNoCache page = cached.contents)
    (hstacked : Stacked format s.dirtyPages n s.subjournal s.wal
      (update contents page cached.contents) s.savepoints saves) :
    Holds format n { s with pageCache := update s.pageCache page (some cached) }
      (update contents page cached.contents) saves where
  positive := h.positive
  cached page' cached' hcached' := by
    rcases eq_or_ne page' page with rfl | hne
    · simp only [update_self] at hcached' ⊢
      cases hcached'
      exact ⟨hle, rfl⟩
    · simp only [update_of_ne hne] at hcached' ⊢
      exact h.cached page' cached' hcached'
  flagged page' cached' hcached' := by
    rcases eq_or_ne page' page with rfl | hne
    · simp only [update_self] at hcached' ⊢
      cases hcached'
      exact hflagged
    · simp only [update_of_ne hne] at hcached' ⊢
      exact h.flagged page' cached' hcached'
  uncached page' hle' hnone := by
    rcases eq_or_ne page' page with rfl | hne
    · simp only [update_self] at hnone
      cases hnone
    · simp only [update_of_ne hne] at hnone ⊢
      exact h.uncached page' hle' hnone
  clean page' hle' hnotMem := by
    rcases eq_or_ne page' page with rfl | hne
    · rw [update_self]
      exact hclean hnotMem
    · rw [update_of_ne hne]
      exact h.clean page' hle' hnotMem
  dirty := h.dirty
  stacked := hstacked
  offset := h.offset

theorem Holds.recache (cached : Page α) (hle : page ≤ n)
    (hcontents : cached.contents = contents page)
    (hflagged : (cached.dirty = true → page ∈ s.dirtyPages) ∧
      (cached.spilled = true → s.readPageNoCache page = contents page)) :
    Holds format n { s with pageCache := update s.pageCache page (some cached) } contents
      saves := by
  have hupdate : update contents page cached.contents = contents := by
    rw [hcontents, update_eq_self]
  rw [← hcontents] at hflagged
  have hput := h.put cached hle hflagged
    (fun hnotMem => (h.clean page hle hnotMem).trans hcontents.symm)
    (by rw [hupdate]; exact h.stacked)
  rwa [hupdate] at hput

theorem Holds.readPage (hle : page ≤ n) :
    Holds format n (s.readPage page) contents saves ∧
      ∃ cached, (s.readPage page).pageCache page = some cached := by
  rw [Pager.readPage]
  cases hcached : s.pageCache page with
  | some cached => exact ⟨h, cached, hcached⟩
  | none =>
    exact ⟨h.recache _ hle (h.uncached page hle hcached) ⟨nofun, nofun⟩, _, update_self ..⟩

theorem Holds.evict (hreadable : page ≤ n → s.readPageNoCache page = contents page) :
    Holds format n (s.evict page) contents saves where
  positive := h.positive
  cached page' cached hcached := h.cached page' cached (pageCache_evict hcached)
  flagged page' cached hcached := h.flagged page' cached (pageCache_evict hcached)
  uncached page' hle hnone := by
    rcases eq_or_ne page' page with rfl | hne
    · exact hreadable hle
    · exact h.uncached page' hle ((update_of_ne hne ..).symm.trans hnone)
  clean := h.clean
  dirty := h.dirty
  stacked := h.stacked
  offset := h.offset

theorem Holds.readable (hevictable : s.Evictable page)
    (hmeets : s.EvictsReadable (.evict page)) : s.readPageNoCache page = contents page := by
  obtain ⟨cached, hcached, hflags, -⟩ := hevictable
  obtain ⟨hle, hcontents⟩ := h.cached page cached hcached
  cases hspilled : cached.spilled with
  | true => exact (h.flagged page cached hcached).2 hspilled
  | false =>
    rw [hspilled] at hflags
    rcases Decidable.em (page ∈ s.dirtyPages) with hmem | hnotMem
    · have hdirty := hflags.resolve_right Bool.noConfusion
      exact (hmeets hmem cached hcached hdirty hspilled).trans hcontents
    · exact h.clean page hle hnotMem

theorem Holds.subjournal (hdirty : page ∈ s.dirtyPages) :
    Holds format n (s.subjournalPageIfRequired page (contents page)) contents saves ∧
      (s.subjournalPageIfRequired page (contents page)).Logged page ∧
      ∀ page', s.Logged page' →
        (s.subjournalPageIfRequired page (contents page)).Logged page' := by
  have hstacked := h.stacked
  have hoffset := h.offset
  rw [subjournalPageIfRequired]
  cases hsavepoints : s.savepoints with
  | nil =>
    refine ⟨h, ?_, fun _ hlogged => hlogged⟩
    rw [Logged, hsavepoints]
    exact fun _ hnone => nomatch hnone
  | cons current savepoints =>
    rw [hsavepoints] at hstacked hoffset
    have hlength := hoffset current rfl
    simp only
    split
    next hlt =>
      refine ⟨h, ?_, fun _ hlogged => hlogged⟩
      rw [Logged, hsavepoints]
      rintro savepoint ⟨⟩ hle
      omega
    · split
      next hmem =>
        refine ⟨h, ?_, fun _ hlogged => hlogged⟩
        rw [Logged, hsavepoints]
        rintro savepoint ⟨⟩ _
        cases hstacked with
        | cons _ _ _ _ _ span _ => exact span.bitmap page hmem
      · have hstart : current.startOffset ≤ s.subjournal.length := by
          cases hstacked with
          | cons _ _ _ start _ _ _ => exact start
        rw [hlength, writePage_length]
        refine ⟨h.restack (hstacked.addImage hdirty) ?_, ?_, ?_⟩
        · rintro savepoint ⟨⟩
          rw [length_append, length_singleton]
        · rintro savepoint ⟨⟩ _
          rw [drop_append_of_le_length hstart]
          exact lookup_concat_ne_none
        · intro page' hlogged
          rw [Logged, hsavepoints] at hlogged
          rintro savepoint ⟨⟩ hle
          rw [drop_append_of_le_length hstart]
          exact fun hnone => hlogged current rfl hle (lookup_append_eq_none.1 hnone).1

theorem Holds.insertDirty (hle : page ≤ n) :
    Holds format n { s with dirtyPages := insert page s.dirtyPages } contents saves where
  positive := h.positive
  cached := h.cached
  flagged page' cached hcached :=
    (h.flagged page' cached hcached).imp_left fun hmem hdirty => mem_insert_of_mem (hmem hdirty)
  uncached := h.uncached
  clean page' hle' hnotMem := h.clean page' hle' fun hmem => hnotMem (mem_insert_of_mem hmem)
  dirty page' hpage' := by
    rcases mem_insert.1 hpage' with rfl | hmem
    · exact hle
    · exact h.dirty page' hmem
  stacked := h.stacked.mono_dirty fun _ _ hmem => mem_insert_of_mem hmem
  offset := h.offset

theorem Holds.addDirty (hcached : s.pageCache page = some cached) :
    Holds format n (s.addDirty page (contents page)) contents saves ∧
      (s.addDirty page (contents page)).Writable page := by
  obtain ⟨hle, hcontents⟩ := h.cached page cached hcached
  obtain ⟨hholds, hlogged, -⟩ :=
    (h.insertDirty hle).subjournal (mem_insert_self page s.dirtyPages)
  obtain ⟨hcache, hdirty⟩ := subjournal_frame { s with dirtyPages := insert page s.dirtyPages } page
    (contents page)
  rw [addDirty_eq, hcached]
  generalize ({ s with dirtyPages := insert page s.dirtyPages } : Pager α).subjournalPageIfRequired
    page (contents page) = t at hholds hlogged hcache hdirty
  have hmem : page ∈ t.dirtyPages := by
    rw [hdirty]
    exact mem_insert_self ..
  have hrecached := hholds.recache { cached with dirty := true, spilled := false } hle
    hcontents ⟨fun _ => hmem, nofun⟩
  rw [hcache] at hrecached
  exact ⟨hrecached, ⟨_, update_self .., rfl, rfl⟩, hmem, hlogged⟩

theorem Holds.write (hwritable : s.Writable page) :
    Holds format n (s.write page value) (update contents page value) saves := by
  obtain ⟨⟨cached, hcached, hdirty, hspilled⟩, hmem, hlogged⟩ := hwritable
  rw [Pager.write, hcached]
  refine h.put { cached with contents := value } (h.cached page cached hcached).1
    ⟨fun _ => hmem, ?_⟩ (fun hnotMem => absurd hmem hnotMem) (h.stacked.write hlogged)
  rw [hspilled]
  nofun

theorem Holds.modify (hle : page ≤ n) :
    Holds format n (s.modify page value) (update contents page value) saves := by
  obtain ⟨hread, cached, hcached⟩ := h.readPage hle
  obtain ⟨hholds, hwritable⟩ := hread.addDirty hcached
  rw [Pager.modify, hread.image hle]
  exact hholds.write hwritable

theorem subjournal_newPage : s.subjournalPageIfRequired (n + 1) value = s := by
  have hstacked := h.stacked
  rw [subjournalPageIfRequired]
  cases hsavepoints : s.savepoints with
  | nil => rfl
  | cons current savepoints =>
    rw [hsavepoints] at hstacked
    cases hstacked with
    | cons _ _ bounded _ _ _ _ => exact if_pos (Nat.lt_succ_of_le bounded)

theorem logged_newPage : s.Logged (n + 1) := by
  have hstacked := h.stacked
  rw [Logged]
  cases hsavepoints : s.savepoints with
  | nil => exact fun _ hnone => nomatch hnone
  | cons current savepoints =>
    rw [hsavepoints] at hstacked
    rintro savepoint ⟨⟩ hle
    cases hstacked with
    | cons _ _ bounded _ _ _ _ => omega

theorem Holds.extend :
    Holds format (n + 1) s (update contents (n + 1) (s.readPageNoCache (n + 1)))
      saves where
  positive := Nat.le_add_left ..
  cached page cached hcached := by
    obtain ⟨hle, hcontents⟩ := h.cached page cached hcached
    rw [update_of_ne (by omega)]
    exact ⟨by omega, hcontents⟩
  flagged page cached hcached := by
    have hle := (h.cached page cached hcached).1
    rw [update_of_ne (by omega)]
    exact h.flagged page cached hcached
  uncached page hle hnone := by
    rcases eq_or_ne page (n + 1) with rfl | hne
    · rw [update_self]
    · rw [update_of_ne hne]
      exact h.uncached page (by omega) hnone
  clean page hle hnotMem := by
    rcases eq_or_ne page (n + 1) with rfl | hne
    · rw [update_self]
    · rw [update_of_ne hne]
      exact h.clean page (by omega) hnotMem
  dirty page hpage := Nat.le_succ_of_le (h.dirty page hpage)
  stacked := (h.stacked.write (logged_newPage h)).mono_size (Nat.le_succ n)
  offset := h.offset

theorem insertNewPage_eq :
    s.insertNewPage format (n + 1) = { s with
      dirtyPages := insert (n + 1) s.dirtyPages
      pageCache := update s.pageCache (n + 1) (some ⟨format.newPage, true, false⟩) } := by
  rw [Pager.insertNewPage, Pager.addDirty, subjournal_newPage h, setDirty]
  simp [update_idem]

theorem Holds.insertNewPage :
    Holds format (n + 1) (s.insertNewPage format (n + 1))
      (update contents (n + 1) format.newPage) saves := by
  have hmem : n + 1 ∈ insert (n + 1) s.dirtyPages := mem_insert_self ..
  have hlogged : s.Logged (n + 1) := logged_newPage h
  have hdirty := h.extend.insertDirty (Nat.le_refl (n + 1))
  have hput := hdirty.put ⟨format.newPage, true, false⟩ (Nat.le_refl (n + 1))
    ⟨fun _ => hmem, nofun⟩ (fun hnotMem => absurd hmem hnotMem)
    (hdirty.stacked.write hlogged)
  rw [update_idem] at hput
  rw [insertNewPage_eq h]
  exact hput

theorem Holds.writable_insertNewPage (hwritable : s.Writable page) (hle : page ≤ n) :
    (s.insertNewPage format (n + 1)).Writable page := by
  obtain ⟨⟨cached, hcached, hflags⟩, hmem, hlogged⟩ := hwritable
  rw [insertNewPage_eq h]
  refine ⟨⟨cached, ?_, hflags⟩, mem_insert_of_mem hmem, hlogged⟩
  exact (update_of_ne (by omega) ..).trans hcached

theorem Holds.insertNewPages (hwritable : s.Writable 1) (count : Nat) :
    Holds format (n + count) ((range' (n + 1) count).foldl (Pager.insertNewPage format) s)
        (withNewPages format n count contents) saves ∧
      ((range' (n + 1) count).foldl (Pager.insertNewPage format) s).Writable 1 := by
  induction count generalizing n s contents with
  | zero =>
    have hcontents : withNewPages format n 0 contents = contents := by
      funext page
      exact if_neg (by omega)
    rw [hcontents]
    exact ⟨h, hwritable⟩
  | succ count ih =>
    have hcontents : withNewPages format n (count + 1) contents =
        withNewPages format (n + 1) count (update contents (n + 1) format.newPage) := by
      funext page
      rw [withNewPages, withNewPages]
      rcases eq_or_ne page (n + 1) with rfl | hne
      · rw [if_pos (by omega), update_self, ite_self]
      · rw [update_of_ne hne]
        congr 1
        rw [eq_iff_iff]
        omega
    rw [hcontents, range'_succ, foldl_cons, Nat.add_comm count 1, ← Nat.add_assoc]
    exact ih h.insertNewPage (h.writable_insertNewPage hwritable h.positive)

theorem Holds.allocatePage {extra : Nat} (hn : n = format.databaseSize (contents 1)) :
    Holds format (n + extra + 1) (s.allocatePage format extra)
      (Store.allocatePage format ⟨contents, saves⟩ extra).contents saves := by
  obtain ⟨hread, cached, hcached⟩ := h.readPage h.positive
  obtain ⟨hdirty, hwritable⟩ := hread.addDirty hcached
  obtain ⟨hholds, hwritable⟩ := hdirty.insertNewPages hwritable (extra + 1)
  have hone : withNewPages format n (extra + 1) contents 1 = contents 1 := by
    have := h.positive
    exact if_neg (by omega)
  have hcontents : (Store.allocatePage format ⟨contents, saves⟩ extra).contents =
      update (withNewPages format n (extra + 1) contents) 1
        (format.setDatabaseSize (contents 1) (n + extra + 1)) := by
    funext page
    rw [Store.allocatePage, Store.dbSize, ← hn]
    rcases eq_or_ne page 1 with rfl | hne
    · rfl
    · rw [update_of_ne hne]
      exact if_neg hne
  rw [hcontents, Pager.allocatePage, hread.image h.positive,
    hdirty.image h.positive, ← hn, hholds.image (by omega), hone]
  exact hholds.write hwritable

variable {pages : List Nat}

theorem Holds.subjournalPages (hdirty : ∀ page ∈ pages, page ∈ s.dirtyPages) :
    Holds format n (pages.foldl subjournalCached s) contents saves ∧
      (∀ page ∈ pages, (pages.foldl subjournalCached s).Logged page) ∧
      ∀ page, s.Logged page → (pages.foldl subjournalCached s).Logged page := by
  induction pages generalizing s with
  | nil => exact ⟨h, fun _ hmem => absurd hmem not_mem_nil, fun _ hlogged => hlogged⟩
  | cons page pages ih =>
    have hmem := hdirty page mem_cons_self
    obtain ⟨hholds, hlogged, hkept⟩ := h.subjournal hmem
    have himage : s.subjournalCached page = s.subjournalPageIfRequired page (contents page) := by
      rw [subjournalCached, h.image (h.dirty page hmem)]
    rw [foldl_cons, himage]
    obtain ⟨hholds', hlogged', hkept'⟩ := ih hholds fun page' hpage' => by
      rw [(subjournal_frame ..).2]
      exact hdirty page' (mem_cons_of_mem _ hpage')
    refine ⟨hholds', ?_, fun page' h' => hkept' page' (hkept page' h')⟩
    intro page' hpage'
    rcases mem_cons.1 hpage' with rfl | hpage'
    · exact hkept' page' hlogged
    · exact hlogged' page' hpage'

theorem Holds.appendFrames (hlogged : ∀ page ∈ pages, s.Logged page) :
    Holds format n { s with wal := s.wal ++ pages.map fun page => (page, contents page) } contents
        saves ∧
      ∀ page ∈ pages, overlay s.dbFile (s.wal ++ pages.map fun page => (page, contents page)) page =
        contents page := by
  have hread : ∀ page, overlay s.dbFile
    (s.wal ++ pages.map fun page => (page, contents page)) page =
      if page ∈ pages then contents page else s.readPageNoCache page := by
    intro page
    rw [overlay_append, overlay_graph, readPageNoCache]
  have hsame : ∀ page, s.readPageNoCache page = contents page →
      overlay s.dbFile (s.wal ++ pages.map fun page => (page, contents page)) page =
        contents page := by
    intro page heq
    rw [hread, heq, ite_self]
  refine ⟨⟨h.positive, h.cached, ?_, ?_, ?_, h.dirty, ?_, h.offset⟩, ?_⟩
  · intro page cached hcached
    exact (h.flagged page cached hcached).imp_right fun hspilled hflag =>
      hsame page (hspilled hflag)
  · exact fun page hle hnone => hsame page (h.uncached page hle hnone)
  · exact fun page hle hnotMem => hsame page (h.clean page hle hnotMem)
  · apply h.stacked.spill
    intro frame hframe
    obtain ⟨page, hpage, rfl⟩ := mem_map.1 hframe
    exact hlogged page hpage
  · intro page hpage
    rw [hread, if_pos hpage]

theorem Holds.setSpilled (hread : ∀ page ∈ pages, s.readPageNoCache page = contents page) :
    Holds format n { s with
      pageCache := fun page =>
        if page ∈ pages then
          (s.pageCache page).map fun cached => { cached with dirty := false, spilled := true }
        else s.pageCache page } contents saves := by
  have hcache : ∀ page cached, (if page ∈ pages then
      (s.pageCache page).map fun cached => { cached with dirty := false, spilled := true }
      else s.pageCache page) = some cached →
      ∃ cached', s.pageCache page = some cached' ∧ cached'.contents = cached.contents ∧
        (cached.dirty = true → cached' = cached) ∧ (page ∉ pages → cached' = cached) := by
    intro page cached hcached
    split at hcached
    next hmem =>
      obtain ⟨cached', hcached', rfl⟩ := Option.map_eq_some_iff.1 hcached
      exact ⟨cached', hcached', rfl, nofun, fun hnotMem => absurd hmem hnotMem⟩
    · exact ⟨cached, hcached, rfl, fun _ => rfl, fun _ => rfl⟩
  refine ⟨h.positive, ?_, ?_, ?_, h.clean, h.dirty, h.stacked, h.offset⟩
  · intro page cached hcached
    obtain ⟨cached', hcached', hcontents, -, -⟩ := hcache page cached hcached
    rw [← hcontents]
    exact h.cached page cached' hcached'
  · intro page cached hcached
    obtain ⟨cached', hcached', -, hdirty', hsame⟩ := hcache page cached hcached
    obtain ⟨hmem, hspilled⟩ := h.flagged page cached' hcached'
    refine ⟨fun hdirty => hmem (hdirty' hdirty ▸ hdirty), fun hflag => ?_⟩
    rcases Decidable.em (page ∈ pages) with hpage | hpage
    · exact hread page hpage
    · exact hspilled (hsame hpage ▸ hflag)
  · intro page hle hnone
    apply h.uncached page hle
    simp only at hnone
    split at hnone
    · exact Option.map_eq_none_iff.1 hnone
    · exact hnone

theorem Holds.spill (hspillable : ∀ page ∈ pages, s.Spillable page) :
    Holds format n (s.spill pages) contents saves := by
  have hdirty : ∀ page ∈ pages, page ∈ s.dirtyPages := by
    intro page hpage
    obtain ⟨cached, hcached, hflag, -, -⟩ := hspillable page hpage
    exact (h.flagged page cached hcached).1 hflag
  have hframes : (pages.map fun page => (page, s.image page)) =
      pages.map fun page => (page, contents page) := by
    apply map_congr_left
    intro page hpage
    rw [h.image (h.dirty page (hdirty page hpage))]
  obtain ⟨hholds, hlogged, -⟩ := h.subjournalPages hdirty
  obtain ⟨happended, hread⟩ := hholds.appendFrames hlogged
  rw [Pager.spill, hframes]
  exact happended.setSpilled hread

end Pager

end PgMicro.Paging
