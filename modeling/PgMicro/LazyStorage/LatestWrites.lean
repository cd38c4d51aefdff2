import PgMicro.LazyStorage.Storage

/-!
# Reads of the lazy storage return the latest write

A load writes the pages of the server over the file. If only pages are locked for it that were never
written, and no page is written while it is locked, the file keeps the latest writes and a read
returns them.
-/

namespace PgMicro.LazyStorage

open Transition List Option Function Storage PageStates

variable {P : Type} {c : Setup P} {written : Nat → Option P} {page : Nat} {data : P}

/-- What a read of the page has to return. -/
def expected (c : Setup P) (written : Nat → Option P) (page : Nat) : Option P :=
  (written page).or (c.server page)

open Files

section

variable [DecidableEq P] {f : Files P}

theorem Files.stored_put (f : Files P) (page q : Nat) (data : P) :
    (f.put page data).stored q = if q = page then some data else f.stored q := by
  rw [stored, stored, put]
  by_cases h : q = page
  · subst h
    cases f.dirty <;> simp
  · cases f.dirty <;> simp [h]

theorem Files.stored_truncate (f : Files P) (len q : Nat) :
    (f.truncate len).stored q = if q < len then f.stored q else none := by
  rw [stored, stored, truncate]
  by_cases h : q < len
  · cases f.dirty <;> simp [h]
  · simp [h]

structure Current (c : Setup P) (written : Nat → Option P) (f : Files P) : Prop where
  expected_of_stored : ∀ p v, f.stored p = some v → expected c written p = some v
  stored_of_written : ∀ p, written p ≠ none → f.stored p ≠ none

/-- A page that the storage loads is one that was never written, so the file keeps its pages. -/
theorem Current.put (h : Current c written f) (hdata : expected c written page = some data) :
    Current c written (f.put page data) ∧
      ∀ p v, f.stored p = some v → (f.put page data).stored p = some v := by
  simp only [stored_put]
  refine ⟨⟨fun p v hv => ?_, fun p hp => ?_⟩, fun p v hv => ?_⟩
  · rw [stored_put] at hv
    split at hv
    next hpage =>
      rw [hpage, hdata, hv]
    · exact h.expected_of_stored p v hv
  · rw [stored_put]
    split
    · nofun
    · exact h.stored_of_written p hp
  · split
    next hpage =>
      rw [← hdata, ← hpage, h.expected_of_stored p v hv]
    · exact hv

end

/-- One page of the page states, which the reader of the guard loads or another one. -/
structure PageOK (c : Setup P) (written : Nat → Option P) (page : Nat)
    (info : Option (PageInfo P)) (own other : Prop) : Prop where
  unwritten : info ≠ none → written page = none
  result : ∀ i ∈ info, ∀ d, i.loadResult = some (some d) → c.server page = some d
  held : own ∨ other → ∃ i, info = some i ∧ i.loadResult = none
  alone : own → ¬ other

/-- The page states with the guard of one reader. -/
def Guarded (c : Setup P) (written : Nat → Option P) (others : Nat → Prop)
    (g : PageStatesGuard P) : Prop :=
  ∀ page, PageOK c written page (g.pageStates page) (page ∈ g.pagesToLoad) (others page)

section

variable {others : Nat → Prop} {g : PageStatesGuard P}

section

variable (h : Guarded c written others g)

include h

theorem Guarded.unwritten (hpage : page ∈ g.pagesToLoad) : written page = none := by
  obtain ⟨info, hinfo, -⟩ := (h page).held (.inl hpage)
  exact (h page).unwritten (by simp [hinfo])

variable {toLoad : List Nat}

theorem Guarded.mono (hsub : ∀ q ∈ toLoad, q ∈ g.pagesToLoad) (toWait : List Nat) :
    Guarded c written others ⟨g.pageStates, toLoad, toWait⟩ := fun p =>
  ⟨(h p).unwritten, (h p).result, fun hp => (h p).held (hp.imp_left (hsub p)),
    fun hp => (h p).alone (hsub p hp)⟩

theorem Guarded.update {info : Option (PageInfo P)}
    (hinfo : PageOK c written page info (page ∈ toLoad) (others page))
    (hsub : ∀ q ∈ toLoad, q ≠ page → q ∈ g.pagesToLoad) (toWait : List Nat) :
    Guarded c written others ⟨update g.pageStates page info, toLoad, toWait⟩ := by
  intro p
  dsimp only
  by_cases hp : p = page
  · subst hp
    rwa [update_self]
  · rw [update_of_ne hp]
    exact ⟨(h p).unwritten, (h p).result, fun ho => (h p).held (ho.imp_left (hsub p · hp)),
      fun ho => (h p).alone (hsub p ho hp)⟩

theorem Guarded.loadStart (hpage : written page = none) {g' : PageStatesGuard P}
    {action : PageLoadAction} (hstart : g.loadStart page = some (g', action)) :
    Guarded c written others g' := by
  rw [PageStatesGuard.loadStart, PageStates.loadStart] at hstart
  split at hstart <;> cases hstart <;> rename_i heq <;> split at heq <;> cases heq
  next hfree =>
    refine h.update ⟨fun _ => hpage, ?_, fun _ => ⟨_, rfl, rfl⟩, fun _ ho => ?_⟩ ?_ _
    · rintro _ ⟨⟩ d ⟨⟩
    · obtain ⟨info, hinfo, -⟩ := (h page).held (.inr ho)
      cases hfree.symm.trans hinfo
    · intro q hq hne
      rcases mem_append.1 hq with hmem | hmem
      · exact hmem
      · exact absurd (mem_singleton.1 hmem) hne
  next hinfo =>
    refine h.update ⟨fun _ => hpage, ?_, fun ho => ?_, (h page).alone⟩ (fun q hq _ => hq) _
    · rintro _ ⟨⟩ d hd
      exact (h page).result _ hinfo d hd
    · obtain ⟨info, hinfo', hnone⟩ := (h page).held ho
      obtain rfl := some.inj (hinfo.symm.trans hinfo')
      exact ⟨_, rfl, hnone⟩

theorem Guarded.loadEnd (hpage : ¬ others page) {result : Option P}
    (hresult : ∀ d, result = some d → c.server page = some d) :
    Guarded c written others (g.loadEnd page result) := by
  have hmem (q : Nat) (hq : q ∈ g.pagesToLoad.filter (· ≠ page)) : q ∈ g.pagesToLoad :=
    (mem_filter.1 hq).1
  have hheld {info : Option (PageInfo P)} :
      page ∈ g.pagesToLoad.filter (· ≠ page) ∨ others page →
        ∃ i, info = some i ∧ i.loadResult = none := by
    simp [hpage]
  rw [PageStatesGuard.loadEnd, PageStates.loadEnd]
  split
  · exact h.mono hmem _
  next info hinfo =>
    split
    · refine h.update ⟨fun _ => (h page).unwritten (by simp [hinfo]), ?_, hheld, fun _ => hpage⟩
        (fun q hq _ => hmem q hq) _
      rintro _ ⟨⟩ d hd
      exact hresult d (some.inj hd)
    · exact h.update ⟨nofun, nofun, hheld, fun _ => hpage⟩ (fun q hq _ => hmem q hq) _

theorem Guarded.waitEnd (page : Nat) : Guarded c written others (g.waitEnd page) := by
  rw [PageStatesGuard.waitEnd, PageStates.waitEnd]
  split
  · exact h
  next info hinfo =>
    have hheld (ho : page ∈ g.pagesToLoad ∨ others page) : info.loadResult = none := by
      obtain ⟨info', hinfo', hnone⟩ := (h page).held ho
      obtain rfl := some.inj (hinfo.symm.trans hinfo')
      exact hnone
    split
    next hdone =>
      refine h.update ⟨nofun, nofun, fun ho => ?_, (h page).alone⟩ (fun q hq _ => hq) _
      rw [hheld ho] at hdone
      exact absurd hdone.2 nofun
    · refine h.update ⟨fun _ => (h page).unwritten (by simp [hinfo]), ?_, fun ho => ?_,
        (h page).alone⟩ (fun q hq _ => hq) _
      · rintro _ ⟨⟩ d hd
        exact (h page).result info hinfo d hd
      · exact ⟨_, rfl, hheld ho⟩

theorem Guarded.lockPages {pages : List Nat} (hpages : ∀ q ∈ pages, written q = none) :
    Guarded c written others (g.lockPages pages) := by
  refine foldlRecOn pages _ h fun g hg page hpage => ?_
  split
  next g' hstart =>
    exact (hg.loadStart (hpages page hpage) hstart).waitEnd page
  next g' hstart =>
    exact hg.loadStart (hpages page hpage) hstart
  · exact hg

end

theorem mem_lockPages (h : page ∈ g.pagesToLoad) (pages : List Nat) :
    page ∈ (g.lockPages pages).pagesToLoad := by
  refine foldlRecOn pages _ h
    (motive := fun g : PageStatesGuard P => page ∈ g.pagesToLoad) fun g hg q _ => ?_
  have hstart {g' : PageStatesGuard P} {action : PageLoadAction}
      (heq : g.loadStart q = some (g', action)) : page ∈ g'.pagesToLoad := by
    rw [PageStatesGuard.loadStart] at heq
    split at heq <;> cases heq
    · exact mem_append_left [q] hg
    · exact hg
  split
  next g' heq =>
    have hmem : page ∈ g'.pagesToLoad := hstart heq
    exact hmem
  next heq =>
    exact hstart heq
  · exact hg

theorem Guarded.drop (h : Guarded c written others g) :
    Guarded c written others ⟨g.drop, [], []⟩ := by
  have hwait : Guarded c written others (g.pagesToWait.foldl PageStatesGuard.waitEnd g) :=
    foldlRecOn _ _ h fun g hg page _ => hg.waitEnd page
  have hload : Guarded c written others _ := foldlRecOn _
    (fun g page => PageStatesGuard.loadEnd g page none) hwait fun g hg page hpage =>
      hg.loadEnd ((hwait page).alone hpage) (by rintro _ ⟨⟩)
  exact hload.mono (by simp) []

theorem Guarded.lazyLoadPages [DecidableEq P] (h : Guarded c written others g) {f : Files P}
    (hf : Current c written f) :
    Guarded c written others (lazyLoadPages c f g).2 ∧
      Current c written (lazyLoadPages c f g).1 ∧
      ∀ p v, f.stored p = some v → (lazyLoadPages c f g).1.stored p = some v := by
  refine foldlRecOn g.pagesToLoad _ (⟨h, hf, fun _ _ hv => hv⟩ : Guarded c written others g ∧
    Current c written f ∧ ∀ p v, f.stored p = some v → f.stored p = some v)
    (motive := fun fg : Files P × PageStatesGuard P => Guarded c written others fg.2 ∧
      Current c written fg.1 ∧ ∀ p v, f.stored p = some v → fg.1.stored p = some v)
    fun fg hfg page hpage => ?_
  obtain ⟨hg, hf', hkeeps⟩ := hfg
  dsimp only
  split
  · exact ⟨hg, hf', hkeeps⟩
  next data hdata =>
    have hexpected : expected c written page = some data := by
      rw [expected, h.unwritten hpage, hdata]
      rfl
    obtain ⟨hput, hstored⟩ := hf'.put hexpected
    exact ⟨hg.loadEnd ((h page).alone hpage) fun d hd => hdata.trans hd, hput,
      fun p v hv => hstored p v (hkeeps p v hv)⟩

end

namespace Storage

variable [DecidableEq P] {s s' : Storage P} {i : Nat}

def toLoad (s : Storage P) (i : Nat) : List Nat := ((s.readers i).map Reader.toLoad).getD []

def others (s : Storage P) (i page : Nat) : Prop := ∃ j, j ≠ i ∧ page ∈ s.toLoad j

/-- What holds of a reader where it yields. -/
def ReaderOK (c : Setup P) (written : Nat → Option P) : Reader P → Prop
  | .created _ | .waiting .. => True
  | .loading page toLoad _ => page ∈ toLoad
  | .prefetching page data _ _ => expected c written page = some data

structure Inv (c : Setup P) (s : Storage P) : Prop where
  files : Current c s.written s.files
  guarded : ∀ i, Guarded c s.written (s.others i) ⟨s.pageStates, s.toLoad i, []⟩
  reader : ∀ i, ∀ r ∈ s.readers i, ReaderOK c s.written r
  read : ∀ p d, s.completed = some (p, d) →
    d = none ∧ s.cleanFileSize ≤ p ∨ d = expected c s.written p

theorem Inv.unwritten (h : s.Inv c) {p : Nat} (hp : s.pageStates p ≠ none) : s.written p = none :=
  (h.guarded 0 p).unwritten hp

theorem Inv.guard (h : s.Inv c) {reader : Option (Reader P)} (hi : s.readers i = reader)
    (toWait : List Nat) : Guarded c s.written (s.others i)
      ⟨s.pageStates, (reader.map Reader.toLoad).getD [], toWait⟩ := by
  subst hi
  exact h.guarded i

section

variable {g : PageStatesGuard P} {files : Files P} {completed : Option (Nat × Option P)}
  (h : s.Inv c) (hg : Guarded c s.written (s.others i) g) (hfiles : Current c s.written files)

include h hg hfiles

theorem Inv.update {reader : Option (Reader P)}
    (hreader : (reader.map Reader.toLoad).getD [] = g.pagesToLoad)
    (hok : ∀ r ∈ reader, ReaderOK c s.written r)
    (hread : ∀ p d, completed = some (p, d) → d = expected c s.written p) :
    Inv c { s with files, completed, pageStates := g.pageStates
                   readers := update s.readers i reader } := by
  refine ⟨hfiles, fun j p => ?_, fun j r hr => ?_, fun p d hd => .inr (hread p d hd)⟩
  · obtain ⟨s', hs'⟩ : ∃ s' : Storage P, s' = { s with
        files, completed, pageStates := g.pageStates
        readers := Function.update s.readers i reader } := ⟨_, rfl⟩
    rw [← hs']
    have hself : s'.toLoad i = g.pagesToLoad := by
      simpa [toLoad, hs'] using hreader
    have hne {k : Nat} (hk : k ≠ i) : s'.toLoad k = s.toLoad k := by
      simp [toLoad, hs', hk]
    have hheld {k : Nat} (hk : p ∈ s'.toLoad k) : p ∈ g.pagesToLoad ∨ s.others i p := by
      by_cases hki : k = i
      · exact .inl (hself ▸ hki ▸ hk)
      · exact .inr ⟨k, hki, hne hki ▸ hk⟩
    refine ⟨hs' ▸ (hg p).unwritten, hs' ▸ (hg p).result, fun ho => ?_, ?_⟩
    · have := (hg p).held (ho.elim hheld fun ⟨k, _, hk⟩ => hheld hk)
      rwa [hs']
    · rintro hj ⟨k, hkj, hk⟩
      by_cases hji : j = i <;> by_cases hki : k = i
      · exact hkj (hki.trans hji.symm)
      · exact (hg p).alone (hself ▸ hji ▸ hj) ⟨k, hki, hne hki ▸ hk⟩
      · exact (hg p).alone (hself ▸ hki ▸ hk) ⟨j, hji, hne hji ▸ hj⟩
      · exact (h.guarded j p).alone (hne hji ▸ hj) ⟨k, hkj, hne hki ▸ hk⟩
  · by_cases hji : j = i
    · subst hji
      exact hok r (by simpa using hr)
    · exact h.reader j r (by simpa [hji] using hr)

theorem Inv.finish (hread : ∀ p d, completed = some (p, d) → d = expected c s.written p) :
    Inv c ({ s with files }.finish i g completed) :=
  h.update hg.drop hfiles rfl (by rintro _ ⟨⟩) hread

end

/-- The pages that a page points to and that no operation is on were never written. -/
def PointsToUnwritten (c : Setup P) (s : Storage P) (data : P) : Prop :=
  c.prefetch = true → ∀ refs ∈ c.pageRefs data, ∀ q ∈ refs,
    s.pageStates q = none → s.written q = none

theorem Inv.prefetch (h : s.Inv c) {g : PageStatesGuard P} (hg : Guarded c s.written (s.others i) g)
    {files : Files P} (hfiles : Current c s.written files)
    (hdata : expected c s.written page = some data) (hrefs : s.PointsToUnwritten c data)
    (hnone : s.completed = none) : Inv c ({ s with files }.prefetch c i page data g) := by
  have hread : ∀ p d, some (page, some data) = some (p, d) → d = expected c s.written p := by
    rintro p d ⟨⟩
    exact hdata.symm
  rw [Storage.prefetch]
  split
  · exact h.finish hg hfiles hread
  next refs heq =>
    have hlock : Guarded c s.written (s.others i) (g.lockPages refs) := by
      refine hg.lockPages fun q hq => ?_
      by_cases hbusy : s.pageStates q = none
      · rw [ite_eq_iff] at heq
        obtain ⟨hprefetch, heq⟩ | ⟨-, heq⟩ := heq
        · exact hrefs hprefetch refs heq q hq hbusy
        · cases heq
      · exact h.unwritten hbusy
    dsimp only
    split
    · exact h.finish hlock hfiles hread
    · refine h.update hlock hfiles rfl ?_ (fun p d hd => ?_)
      · rintro _ ⟨⟩
        exact hdata
      · rw [hnone] at hd
        cases hd

variable {reader : Reader P}

theorem resume_stored (h : s.Inv c) (hi : s.readers i = some reader) (p : Nat) (v : P)
    (hv : s.files.stored p = some v) : (s.resume c i reader).files.stored p = some v := by
  have hfiles (page : Nat) (data : P) (files : Files P) (g : PageStatesGuard P) :
      ({ s with files }.prefetch c i page data g).files = files := by
    rw [prefetch]
    split
    · rfl
    · dsimp only
      split <;> rfl
  cases reader with
  | created page =>
    rw [resume]
    split <;> exact hv
  | waiting page toLoad toWait =>
    rw [resume]
    split
    · exact hv
    · exact hv
    · exact (hfiles page _ s.files _).symm ▸ hv
  | loading page toLoad toWait =>
    have hload := ((h.guard hi toWait).lazyLoadPages h.files).2.2 p v hv
    rw [resume]
    dsimp only
    split
    · exact hload
    · exact (hfiles page _ _ _).symm ▸ hload
  | prefetching page data toLoad toWait =>
    exact ((h.guard hi toWait).lazyLoadPages h.files).2.2 p v hv

/-- The pages that a resumption locks were never written, as far as no operation is on them. -/
def LocksUnwritten (c : Setup P) (s : Storage P) : Reader P → Prop
  | .created page => s.pageStates page = none → ∀ q ∈ page :: c.segmentPages page,
      s.pageStates q = none → s.written q = none
  | .waiting page _ _ => ∀ data, s.pageStates.loadResult page = some (some data) →
      s.PointsToUnwritten c data
  | .loading page _ _ => ∀ data, c.server page = some data → s.PointsToUnwritten c data
  | .prefetching .. => True

theorem Inv.resume (h : s.Inv c) (hnone : s.completed = none) (hi : s.readers i = some reader)
    (hlocks : s.LocksUnwritten c reader) : (s.resume c i reader).Inv c := by
  have hread : ∀ p d, s.completed = some (p, d) → d = expected c s.written p := by simp [hnone]
  cases reader with
  | created page =>
    have hg := h.guard hi []
    rw [resume]
    split
    · exact h.finish hg h.files nofun
    next g hstart =>
      have hpage : s.written page = none := by
        apply h.unwritten
        intro hfree
        simp [PageStatesGuard.loadStart, loadStart, hfree] at hstart
      refine h.update (hg.loadStart hpage hstart) h.files rfl ?_ hread
      rintro _ ⟨⟩
      trivial
    next g hstart =>
      obtain ⟨hfree, hmem⟩ : s.pageStates page = none ∧ page ∈ g.pagesToLoad := by
        rw [PageStatesGuard.loadStart, loadStart] at hstart
        split at hstart <;> cases hstart
        rename_i heq
        split at heq <;> cases heq
        exact ⟨by assumption, mem_singleton.2 rfl⟩
      have hpages : ∀ q ∈ page :: c.segmentPages page, s.written q = none := by
        intro q hq
        by_cases hbusy : s.pageStates q = none
        · exact hlocks hfree q hq hbusy
        · exact h.unwritten hbusy
      have hg' := (hg.loadStart (hpages page mem_cons_self) hstart).lockPages
        fun q hq => hpages q (mem_cons_of_mem page hq)
      refine h.update hg' h.files rfl ?_ hread
      rintro _ ⟨⟩
      exact mem_lockPages hmem _
  | waiting page toLoad toWait =>
    have hg := h.guard hi toWait
    rw [resume]
    split
    · exact h
    · exact h.finish hg h.files nofun
    next data hresult =>
      obtain ⟨info, hinfo, hdata⟩ := bind_eq_some_iff.1 hresult
      refine h.prefetch hg h.files ?_ (hlocks data hresult) hnone
      rw [expected, h.unwritten (by simp [hinfo]), (h.guarded i page).result info hinfo data hdata]
      rfl
  | loading page toLoad toWait =>
    obtain ⟨hg, hfiles, -⟩ := (h.guard hi toWait).lazyLoadPages h.files
    have hexpected : expected c s.written page = c.server page := by
      rw [expected, (h.guard hi toWait).unwritten (h.reader i _ hi)]
      rfl
    rw [resume]
    dsimp only
    split
    next hserver =>
      refine h.finish hg hfiles ?_
      rintro p d ⟨⟩
      rw [hexpected, hserver]
    next data hserver =>
      exact h.prefetch hg hfiles (hexpected.trans hserver) (hlocks data hserver) hnone
  | prefetching page data toLoad toWait =>
    obtain ⟨hg, hfiles, -⟩ := (h.guard hi toWait).lazyLoadPages h.files
    refine h.finish hg hfiles ?_
    rintro p d ⟨⟩
    exact (h.reader i _ hi).symm

/-- A read of the page has its data and waits for the pages it prefetches. -/
def Prefetching (s : Storage P) (page : Nat) : Prop :=
  ∃ i data toLoad toWait, s.readers i = some (.prefetching page data toLoad toWait)

theorem Inv.write (h : s.Inv c) (hnone : s.completed = none) (hfree : s.pageStates page = none)
    (hreader : ¬ s.Prefetching page) (data : P) : (s.write page data).Inv c := by
  have hexpected {p : Nat} (hp : p ≠ page) :
      expected c (s.write page data).written p = expected c s.written p := by
    simp [expected, Storage.write, hp]
  have hself : expected c (s.write page data).written page = some data := by
    simp [expected, Storage.write]
  refine ⟨⟨fun p v hv => ?_, fun p hp => ?_⟩, fun i p => ?_, fun i r hr => ?_, ?_⟩
  · rw [Storage.write, stored_put] at hv
    split at hv
    next hp =>
      rw [hp, hself, hv]
    next hp =>
      rw [hexpected hp]
      exact h.files.expected_of_stored p v hv
  · rw [Storage.write, stored_put]
    split
    · nofun
    next hne =>
      exact h.files.stored_of_written p (by simpa [Storage.write, hne] using hp)
  · refine ⟨fun hp => ?_, (h.guarded i p).result, (h.guarded i p).held, (h.guarded i p).alone⟩
    have hne : p ≠ page := by
      rintro rfl
      exact hp hfree
    simpa [Storage.write, hne] using h.unwritten hp
  · cases r with
    | created | waiting | loading => exact h.reader i _ hr
    | prefetching page' data' toLoad toWait =>
      have hne : page' ≠ page := by
        rintro rfl
        exact hreader ⟨i, data', toLoad, toWait, hr⟩
      exact (hexpected hne).trans (h.reader i _ hr)
  · intro p d hd
    cases hnone.symm.trans hd

theorem Inv.writePages (h : s.Inv c) (hnone : s.completed = none) {first : Nat} {buffers : List P}
    (hquiet : ∀ page, first ≤ page → page < first + buffers.length →
      s.pageStates page = none ∧ ¬ s.Prefetching page) :
    (s.writePages first buffers).Inv c := by
  induction buffers generalizing s first with
  | nil => exact h
  | cons data buffers ih =>
    have hfirst := hquiet first (Nat.le_refl _) (by simp)
    refine ih (h.write hnone hfirst.1 hfirst.2 data) hnone fun page hle hlt => ?_
    exact hquiet page (by omega) (by simp; omega)

/-- Loads are of pages that were never written, writes are of pages that no read is busy with, and
no written page is cut off. -/
def Allowed (c : Setup P) (s : Storage P) : Action P → Prop
  | .readPage .. => True
  | .resume i => ∀ reader ∈ s.readers i, s.LocksUnwritten c reader
  | .writePage page _ => s.pageStates page = none → ¬ s.Prefetching page
  | .writePages first buffers => ∀ page, first ≤ page → page < first + buffers.length →
      s.pageStates page = none ∧ ¬ s.Prefetching page
  | .truncate len => ∀ page, len ≤ page → s.written page = none

theorem Inv.exec (h : s.Inv c) {a : Action P} (ha : s.Allowed c a) (hexec : s.exec c a = some s') :
    s'.Inv c := by
  have hs : Inv c { s with completed := none } := { h with read := nofun }
  cases a with
  | readPage i page =>
    rw [Storage.exec] at hexec
    split at hexec
    next hsize =>
      cases hexec
      refine { hs with read := ?_ }
      rintro p d ⟨⟩
      exact .inl ⟨rfl, hsize⟩
    · split at hexec
      next hstored =>
        cases hexec
        refine { hs with read := ?_ }
        rintro p d ⟨⟩
        exact .inr (h.files.expected_of_stored page _ hstored).symm
      next hfree =>
        cases hexec
        refine hs.update (hs.guard hfree []) h.files rfl ?_ nofun
        rintro _ ⟨⟩
        trivial
      · cases hexec
  | resume i =>
    obtain ⟨reader, hi, rfl⟩ := map_eq_some_iff.1 hexec
    exact hs.resume rfl hi (ha reader hi)
  | writePage page data =>
    obtain rfl := some.inj hexec
    rw [writePage, writeStart]
    split
    · exact hs
    next pageStates hstart =>
      split at hstart <;> cases hstart
      rename_i hfree
      have hback : writeEnd
          (Function.update s.pageStates page (some ⟨.write, none, 0⟩)) page = s.pageStates := by
        rw [writeEnd, update_idem, ← hfree]
        exact update_eq_self page s.pageStates
      rw [hback]
      exact hs.write rfl hfree (ha hfree) data
  | writePages first buffers =>
    obtain rfl := some.inj hexec
    exact hs.writePages rfl ha
  | truncate len =>
    obtain rfl := some.inj hexec
    refine { hs with files := ⟨fun p v hv => ?_, fun p hp => ?_⟩, read := nofun }
    · rw [stored_truncate] at hv
      split at hv
      · exact h.files.expected_of_stored p v hv
      · cases hv
    · rw [stored_truncate, if_pos (Nat.lt_of_not_le fun hle => hp (ha p hle))]
      exact h.files.stored_of_written p hp

/-- The storage after the bootstrap: what it holds is of the server revision. -/
structure Bootstrapped (c : Setup P) (s : Storage P) : Prop where
  stored : ∀ p v, s.files.stored p = some v → c.server p = some v
  pageStates : s.pageStates = fun _ => none
  readers : s.readers = fun _ => none
  written : s.written = fun _ => none
  completed : s.completed = none

theorem Bootstrapped.inv (h : s.Bootstrapped c) : s.Inv c := by
  have hload (i : Nat) : s.toLoad i = [] := by rw [toLoad, h.readers]; rfl
  refine ⟨⟨fun p v hv => ?_, ?_⟩, fun i p => ⟨?_, ?_, ?_, ?_⟩, ?_, ?_⟩
  · rw [expected, h.written]
    exact h.stored p v hv
  · simp [h.written]
  · simp [h.pageStates]
  · simp [h.pageStates]
  · simp [hload, others]
  · simp [hload]
  · simp [h.readers]
  · simp [h.completed]

/-- In a run whose steps are all allowed, a read that completes returns the latest write of its
page or the server's page, or finds the end of the file, and a load keeps the pages that are in
the file. -/
theorem completed_read_latest {as : List (Action P)} (h : s.Bootstrapped c)
    (hallowed : Meets (exec c) (Allowed c) s as) (hrun : run (exec c) s as = some s') :
    (∀ p d, s'.completed = some (p, d) →
      d = none ∧ s'.cleanFileSize ≤ p ∨ d = expected c s'.written p) ∧
    ∀ i s'', s'.exec c (.resume i) = some s'' →
      ∀ p v, s'.files.stored p = some v → s''.files.stored p = some v := by
  have hinv : s'.Inv c :=
    run_preserves (fun ha hi hexec => Inv.exec hi ha hexec) hallowed h.inv hrun
  refine ⟨hinv.read, fun i s'' hexec p v hv => ?_⟩
  obtain ⟨reader, hi, rfl⟩ := map_eq_some_iff.1 hexec
  have hnone : Inv c { s' with completed := none } := { hinv with read := nofun }
  exact resume_stored hnone hi p v hv

end Storage

section

def fourPages : Setup Nat where
  segmentSize := 2 * pageSize
  prefetch := false
  server page := if page < 4 then some page else none
  pageRefs _ := none

def firstPageOnly : Storage Nat where
  files := ⟨fun page => if page = 0 then some 0 else none, none⟩
  cleanFileSize := 4
  pageStates _ := none
  readers _ := none
  written _ := none
  completed := none

theorem firstPageOnly_bootstrapped : firstPageOnly.Bootstrapped fourPages := by
  refine ⟨fun p v hv => ?_, rfl, rfl, rfl, rfl⟩
  by_cases hp : p = 0
  · subst hp
    exact hv
  · simp [firstPageOnly, stored, hp] at hv

/-- Page 0 is written, the segment of the missing page 2 is loaded, and page 0 is read. -/
def writeLoadRead : List (Action Nat) :=
  [.writePage 0 99, .readPage 0 2, .resume 0, .resume 0, .readPage 1 0]

theorem completed_read_latest_written :
    ∃ s, run (exec fourPages) firstPageOnly writeLoadRead = some s ∧
      s.completed = some (0, some 99) ∧ expected fourPages s.written 0 = some 99 := by
  obtain ⟨s, hrun, hread⟩ := map_eq_some_iff.1
    (show (run (exec fourPages) firstPageOnly writeLoadRead).map
      completed = some (some (0, some 99)) by decide +kernel)
  refine ⟨s, hrun, hread, ?_⟩
  refine (((completed_read_latest firstPageOnly_bootstrapped ?_ hrun).1 0 _
    hread).resolve_left nofun).symm
  refine ⟨fun _ => ?_, ?_⟩
  · rintro ⟨_, _, _, _, ⟨⟩⟩
  rintro _ ⟨⟩
  refine ⟨trivial, ?_⟩
  rintro _ ⟨⟩
  refine ⟨?_, ?_⟩
  · rintro _ ⟨⟩ _ q hq _
    have hne : ∀ q ∈ 2 :: fourPages.segmentPages 2, q ≠ 0 := by decide
    exact Function.update_of_ne (hne q hq) _ _
  · rintro _ ⟨⟩
    refine ⟨?_, fun _ _ => ⟨trivial, fun _ _ => trivial⟩⟩
    rintro _ ⟨⟩ data _ ⟨⟩

/-- Page 3 is written by a checkpoint, the missing page 2 is read, and its segment brings the
server's page 3 back. -/
theorem segment_load_loses_write :
    firstPageOnly.Bootstrapped fourPages ∧
    ∃ s, run (exec fourPages) firstPageOnly
        [.writePage 3 99, .readPage 0 2, .resume 0, .resume 0, .readPage 1 3] = some s ∧
      s.completed = some (3, some 3) ∧ expected fourPages s.written 3 = some 99 := by
  refine ⟨firstPageOnly_bootstrapped, ?_⟩
  obtain ⟨s, hrun, h⟩ := map_eq_some_iff.1
    (show (run (exec fourPages) firstPageOnly
        [.writePage 3 99, .readPage 0 2, .resume 0, .resume 0, .readPage 1 3]).map
      (fun s => (s.completed, expected fourPages s.written 3)) =
        some (some (3, some 3), some 99) by decide +kernel)
  exact ⟨s, hrun, Prod.mk.inj h⟩

end

end PgMicro.LazyStorage
