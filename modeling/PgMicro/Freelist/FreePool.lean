import PgMicro.Freelist.TrunkChain

/-!
# The freelist is the pool of unused pages

The invariant says what the trunk chain lists and where in a call the pager stands.
-/

namespace PgMicro.Freelist

open List World Function Nat Pager

variable {l : List Nat} {a : Action} {size pageId : Nat} {p' p : Pager} {cfg : Config}
  {pool : Pool} {answer : Answer}

/-- `allocate_page` is not running: at its start, or where `DatabaseFull` left it. -/
def Pager.AtRest (p : Pager) : Prop :=
  p.allocatePageState = .start ∨
    p.allocatePageState = .allocateNewPage p.header.databaseSize ∧
      p.header.databaseSize + 1 < 2 ^ 32

/-- Where the running call of `allocate_page` stands. -/
def Pager.Allocating (p : Pager) : Prop :=
  match p.allocatePageState with
  | .start => False
  | .searchAvailableFreeListLeaf trunkPage =>
    trunkPage = p.header.freelistTrunkPage ∧ trunkPage ≠ 0
  | .reuseFreelistLeaf trunkPage leafPage number =>
    trunkPage = p.header.freelistTrunkPage ∧ trunkPage ≠ 0 ∧
      leafPage = (p.pages trunkPage).leaf 0 ∧ number = (p.pages trunkPage).leafCount ∧ number ≠ 0
  | .allocateNewPage currentDbSize =>
    currentDbSize = p.header.databaseSize ∧ p.header.databaseSize + 1 < 2 ^ 32

/-- Where the running call of `free_page` stands. -/
def Pager.Freeing (p : Pager) : Prop :=
  (p.freePageState = .addToTrunk ∧ p.header.freelistTrunkPage ≠ 0) ∨ p.freePageState = .newTrunk

/-- The invariant. Only `free_page` counts a page ahead. -/
def Inv (cfg : Config) (w : World) : Prop :=
  match w.running with
  | none =>
    Represents cfg w.pager w.pool 0 ∧ w.pager.freePageState = .start ∧ w.pager.AtRest
  | some (.freePage _) => Represents cfg w.pager w.pool 1 ∧ w.pager.Freeing ∧ w.pager.AtRest
  | some .allocatePage =>
    Represents cfg w.pager w.pool 0 ∧ w.pager.freePageState = .start ∧ w.pager.Allocating

/-- Only pages in use are freed, and no page is asked for when the database has as many pages
as a `u32` can number and none is free. -/
def Permitted (w : World) : Action → Prop
  | .freePage pageId => pageId ∈ w.pool.allocated
  | .allocatePage _ =>
    w.pager.header.databaseSize < 2 ^ 32 - 1 ∨ w.pager.header.freelistTrunkPage ≠ 0

/-- What an answer of `allocate_page` may be. -/
structure Answers (cfg : Config) (p : Pager) (pool : Pool) (p' : Pager) (pageId : Nat) : Prop where
  origin : (pageId ∈ pool.free ∧ p'.pages pageId = .zero) ∨
    (p.header.databaseSize < pageId ∧ pageId = p'.header.databaseSize ∧
      ∀ n, p.header.databaseSize < n → n < pageId → some n = cfg.pendingBytePageId)
  notPage1 : pageId ≠ 1
  notPending : some pageId ≠ cfg.pendingBytePageId
  notAllocated : pageId ∉ pool.allocated

open Page

section

theorem Represents.freePage_start (h : Represents cfg p pool 0) (hstate : p.freePageState = .start)
    (hrest : p.AtRest) (hid : pageId ∈ pool.allocated)
    (harm : p.freePage cfg pageId = (p', answer)) :
    answer = .again ∧ Represents cfg p' pool 1 ∧ p'.Freeing ∧ p'.AtRest := by
  obtain ⟨hlow, hhigh, -, -⟩ := (h.allocated pageId).1 hid
  rw [freePage, hstate] at harm
  dsimp only at harm
  rw [if_neg (by omega)] at harm
  cases harm
  refine ⟨rfl, ⟨h.page1, ?_, h.free, h.allocated⟩, ?_, hrest⟩
  · obtain ⟨l, hlists, hl, hmem, hcount⟩ := h.listed
    exact ⟨l, hlists, hl, hmem, congrArg (· + 1) hcount⟩
  · rw [Pager.Freeing]
    dsimp only
    split
    next hne =>
      exact .inl ⟨rfl, hne⟩
    · exact .inr rfl

theorem Represents.freePage_running (h : Represents cfg p pool 1) (hfreeing : p.Freeing)
    (hrest : p.AtRest) (hid : pageId ∈ pool.allocated)
    (harm : p.freePage cfg pageId = (p', answer)) :
    (answer = .again ∧ Represents cfg p' pool 1 ∧ p'.Freeing ∧ p'.AtRest) ∨
      (answer = .freed ∧ Represents cfg p' (pool.freePage pageId) 0 ∧
        p'.freePageState = .start ∧ p'.AtRest) := by
  obtain ⟨hlow, -, -, hnotfree⟩ := (h.allocated pageId).1 hid
  obtain ⟨l, hlists, hl, hmem, hcount⟩ := h.listed
  have hout : pageId ∉ l := fun hin => hnotfree ((hmem pageId).1 hin)
  rw [freePage] at harm
  rcases hfreeing with ⟨hstate, htrunk⟩ | hstate
  · rw [hstate] at harm
    dsimp only at harm
    split at harm
    next hroom =>
      cases harm
      obtain ⟨rest, rfl, -, htail⟩ := hlists.uncons htrunk
      have hhead : p.header.freelistTrunkPage ∉ rest := fun hin =>
        (nodup_cons.1 hl).1 (mem_append_right _ hin)
      refine .inr ⟨rfl, h.freed hid hl hmem hcount (htail.head hhead htrunk _ ?_ ?_) ?_ rfl rfl,
        rfl,
        hrest⟩
      · rw [nextTrunk_setLeaf, nextTrunk_setLeafCount]
      · rw [leafCount_setLeaf, leafCount_setLeafCount]
        exact hroom
      · rw [leaves_add, append_assoc, singleton_append]
        exact (perm_middle.cons _).trans (List.Perm.swap ..)
    · cases harm
      exact .inl ⟨rfl, ⟨h.page1, h.listed, h.free, h.allocated⟩, .inr rfl, hrest⟩
  · rw [hstate] at harm
    cases harm
    have hnew := hlists.head hout (by omega)
      (((p.pages pageId).setNextTrunk p.header.freelistTrunkPage).setLeafCount 0) rfl
      (zero_le _)
    rw [leaves_of_leafCount _ rfl, nil_append] at hnew
    exact .inr ⟨rfl, h.freed hid hl hmem hcount hnew (List.Perm.refl _) rfl rfl, rfl, hrest⟩

theorem Represents.answers_reused (h : Represents cfg p pool 0) (hfree : pageId ∈ pool.free)
    (hzero : p'.pages pageId = .zero) : Answers cfg p pool p' pageId := by
  obtain ⟨hlow, -, hpending⟩ := h.free pageId hfree
  refine ⟨.inl ⟨hfree, hzero⟩, by omega, hpending, ?_⟩
  intro halloc
  exact ((h.allocated pageId).1 halloc).2.2.2 hfree

theorem pendingBytePageId_lt {n : Nat} (h : some n = cfg.pendingBytePageId) : n + 1 < 2 ^ 32 := by
  rw [Config.pendingBytePageId] at h
  split at h
  · cases h
  · have := div_le_self 0x40000000 cfg.pageSize
    cases h
    omega

theorem newPageId_cases (cfg : Config) (hsize : size + 1 < 2 ^ 32) :
    (newPageId cfg size = size + 1 ∧ some (size + 1) ≠ cfg.pendingBytePageId) ∨
      (newPageId cfg size = size + 2 ∧ some (size + 1) = cfg.pendingBytePageId) := by
  rw [newPageId, mod_eq_of_lt hsize]
  split
  next hpending =>
    rw [mod_eq_of_lt (pendingBytePageId_lt hpending)]
    exact .inr ⟨rfl, hpending⟩
  next hpending =>
    exact .inl ⟨rfl, hpending⟩

theorem newPageId_spec (cfg : Config) (hsize : size + 1 < 2 ^ 32) :
    size < newPageId cfg size ∧ some (newPageId cfg size) ≠ cfg.pendingBytePageId ∧
      ∀ n, size < n → n < newPageId cfg size → some n = cfg.pendingBytePageId := by
  rcases newPageId_cases cfg hsize with ⟨heq, hne⟩ | ⟨heq, hpending⟩
  · rw [heq]
    refine ⟨by omega, hne, fun n _ _ => by omega⟩
  rw [heq]
  refine ⟨by omega, ?_, ?_⟩
  · rw [← hpending]
    simp
  · intro n _ _
    obtain rfl : n = size + 1 := by omega
    exact hpending

section

variable {env : Pager.Surroundings} (h : Represents cfg p pool 0)

include h

theorem Represents.allocatePage_start (hstate : p.allocatePageState = .start)
    (hfree : p.freePageState = .start)
    (hpermitted : p.header.databaseSize < 2 ^ 32 - 1 ∨ p.header.freelistTrunkPage ≠ 0)
    (harm : p.allocatePage cfg env = some (p', answer)) :
    answer = .again ∧ Represents cfg p' pool 0 ∧ p'.freePageState = .start ∧ p'.Allocating := by
  rw [allocatePage, hstate] at harm
  dsimp only at harm
  split at harm
  next hzero =>
    cases harm
    refine ⟨rfl, ⟨h.page1, h.listed, h.free, h.allocated⟩, hfree, rfl, ?_⟩
    dsimp only
    omega
  next hne =>
    cases harm
    exact ⟨rfl, ⟨h.page1, h.listed, h.free, h.allocated⟩, hfree, rfl, hne⟩

theorem Represents.allocateNewPage
    (hstate : p.allocatePageState = .allocateNewPage p.header.databaseSize)
    (hsize : p.header.databaseSize + 1 < 2 ^ 32) (hfree : p.freePageState = .start)
    (harm : p.allocatePage cfg env = some (p', answer)) :
    ((∃ e, answer = .error e) ∧ Represents cfg p' pool 0 ∧ p'.freePageState = .start ∧ p'.AtRest) ∨
      ∃ n, answer = .allocated n ∧ Represents cfg p' (pool.allocatePage n) 0 ∧
        p'.freePageState = .start ∧ p'.AtRest ∧ Answers cfg p pool p' n := by
  obtain ⟨hend, hpending, hskip⟩ := newPageId_spec cfg hsize
  have hpage1 := h.page1
  have hfirst : (p.header.databaseSize + 1) % 2 ^ 32 = p.header.databaseSize + 1 :=
    mod_eq_of_lt hsize
  rw [allocatePage, hstate] at harm
  dsimp only at harm
  rw [hfirst] at harm
  split at harm
  · cases harm
  -- the pending-byte page, if it is written, is behind the end
  generalize hq : (if some (p.header.databaseSize + 1) = cfg.pendingBytePageId then
    p.setPage (p.header.databaseSize + 1) env.buffer else p) = q at harm
  have hheader : q.header = p.header := by
    rw [← hq]
    split <;> rfl
  have hrestState : q.allocatePageState = p.allocatePageState ∧
      q.freePageState = p.freePageState := by
    rw [← hq]
    split <;> exact ⟨rfl, rfl⟩
  have hkept : ∀ n ≤ p.header.databaseSize, q.pages n = p.pages n := by
    intro n hn
    rw [← hq]
    split
    · exact update_of_ne (by omega) ..
    · rfl
  split at harm
  · cases harm
    refine .inl ⟨⟨_, rfl⟩, h.written hkept hheader, hrestState.2.trans hfree, .inr ?_⟩
    rw [hrestState.1, hheader]
    exact ⟨hstate, hsize⟩
  split at harm
  · cases harm
  cases harm
  refine .inr ⟨_, rfl, h.extended hend hpending hskip ?_ ?_, hrestState.2.trans hfree, .inl rfl,
    ⟨.inr ⟨hend, rfl, hskip⟩, by omega, hpending, ?_⟩⟩
  · intro n hn
    exact (update_of_ne (by omega) ..).trans (hkept n hn)
  · dsimp only [setPage]
    rw [hheader]
  · intro halloc
    have := ((h.allocated _).1 halloc).2.1
    omega

theorem Represents.allocatePage_running (hallocating : p.Allocating)
    (hfree : p.freePageState = .start) (harm : p.allocatePage cfg env = some (p', answer)) :
    (answer = .again ∧ Represents cfg p' pool 0 ∧ p'.freePageState = .start ∧ p'.Allocating) ∨
      ((∃ e, answer = .error e) ∧ Represents cfg p' pool 0 ∧ p'.freePageState = .start ∧
        p'.AtRest) ∨
      ∃ n, answer = .allocated n ∧ Represents cfg p' (pool.allocatePage n) 0 ∧
        p'.freePageState = .start ∧ p'.AtRest ∧ Answers cfg p pool p' n := by
  obtain ⟨l, hlists, hl, hmem, hcount⟩ := h.listed
  rw [Pager.Allocating] at hallocating
  cases hstate : p.allocatePageState with
  | start =>
    rw [hstate] at hallocating
    exact hallocating.elim
  | allocateNewPage currentDbSize =>
    rw [hstate] at hallocating
    obtain ⟨rfl, hsize⟩ := hallocating
    exact .inr (h.allocateNewPage hstate hsize hfree harm)
  | searchAvailableFreeListLeaf trunkPage =>
    rw [hstate] at hallocating
    obtain ⟨rfl, htrunk⟩ := hallocating
    rw [allocatePage, hstate] at harm
    dsimp only at harm
    split at harm
    next hleaves =>
      cases harm
      exact .inl ⟨rfl, ⟨h.page1, h.listed, h.free, h.allocated⟩, hfree, rfl, htrunk, rfl, rfl,
        hleaves⟩
    next hleaves =>
      cases harm
      obtain ⟨rest, rfl, -, htail⟩ := hlists.uncons htrunk
      rw [leaves_of_leafCount _ (not_not.1 hleaves), nil_append] at hl hmem hcount
      have hout := (nodup_cons.1 hl).1
      have hin := (hmem _).1 mem_cons_self
      exact .inr (.inr ⟨_, rfl, h.reused hl hmem hcount (htail.update hout .zero)
        (List.Perm.refl _) rfl rfl, hfree, .inl rfl,
        h.answers_reused hin (Function.update_self ..)⟩)
  | reuseFreelistLeaf trunkPage leafPage count =>
    rw [hstate] at hallocating
    obtain ⟨rfl, htrunk, rfl, rfl, hleaves⟩ := hallocating
    rw [allocatePage, hstate] at harm
    cases harm
    obtain ⟨rest, rfl, hfits, htail⟩ := hlists.uncons htrunk
    rw [leaves_shift _ hleaves, cons_append] at hl hmem hcount
    -- the leaf is neither the trunk nor a page of the rest
    have hswap := hl.perm (List.Perm.swap _ _ _)
    obtain ⟨hleaf, hnodup⟩ := nodup_cons.1 hswap
    have hne : p.header.freelistTrunkPage ≠ (p.pages p.header.freelistTrunkPage).leaf 0 :=
      fun heq => hleaf (heq ▸ mem_cons_self)
    have hrest : (p.pages p.header.freelistTrunkPage).leaf 0 ∉ rest :=
      fun hin => hleaf (mem_cons_of_mem _ (mem_append_right _ hin))
    have hhead : p.header.freelistTrunkPage ∉ rest :=
      fun hin => (nodup_cons.1 hnodup).1 (mem_append_right _ hin)
    have hin := (hmem _).1 (mem_cons_of_mem _ mem_cons_self)
    have htrunkPage : (p.setPage ((p.pages p.header.freelistTrunkPage).leaf 0) .zero).pages
        p.header.freelistTrunkPage = p.pages p.header.freelistTrunkPage :=
      Function.update_of_ne hne ..
    refine .inr (.inr ⟨_, rfl, h.reused hl hmem hcount ((htail.update hrest .zero).head hhead
      htrunk _ ?_ ?_) ?_ rfl rfl, hfree, .inl rfl, h.answers_reused hin ?_⟩)
    · rw [nextTrunk_setLeafCount, nextTrunk_shiftLeaves, htrunkPage]
    · rw [leafCount_setLeafCount]
      omega
    · rw [htrunkPage]
      exact List.Perm.swap ..
    · exact (Function.update_of_ne hne.symm ..).trans (Function.update_self ..)

end

end

instance (w : World) : DecidablePred (Permitted w)
  | .freePage pageId => inferInstanceAs (Decidable (pageId ∈ w.pool.allocated))
  | .allocatePage _ => inferInstanceAs (Decidable (_ ∨ _))

open Transition

section

variable {w w' : World}

theorem Inv.pollFree {pageId : Nat} (h : Inv cfg w) (hid : pageId ∈ w.pool.allocated)
    (hpoll : w.poll cfg (.freePage pageId) = some (w', answer)) :
    Inv cfg w' ∧ ∀ n, answer ≠ .allocated n := by
  obtain ⟨p, running, pool⟩ := w
  rw [poll] at hpoll
  split at hpoll
  case isFalse => cases hpoll
  rename_i hturn
  cases harm : p.freePage cfg pageId with
  | mk p' answer' =>
    simp only [harm] at hpoll
    cases hpoll
    rcases hturn with hturn | hturn <;> obtain rfl := hturn
    · obtain ⟨hrep, hstate, hrest⟩ := h
      obtain ⟨rfl, hrep', hfreeing, hrest'⟩ := hrep.freePage_start hstate hrest hid harm
      exact ⟨⟨hrep', hfreeing, hrest'⟩, fun n => Answer.noConfusion⟩
    · obtain ⟨hrep, hfreeing, hrest⟩ := h
      rcases hrep.freePage_running hfreeing hrest hid harm with
        ⟨rfl, hrep', hfreeing', hrest'⟩ | ⟨rfl, hrep', hstate, hrest'⟩
      · exact ⟨⟨hrep', hfreeing', hrest'⟩, fun n => Answer.noConfusion⟩
      · exact ⟨⟨hrep', hstate, hrest'⟩, fun n => Answer.noConfusion⟩

theorem Inv.pollAllocate {env : Pager.Surroundings} (h : Inv cfg w)
    (hpermitted : Permitted w (.allocatePage env))
    (hpoll : w.poll cfg (.allocatePage env) = some (w', answer)) :
    Inv cfg w' ∧ ∀ n, answer = .allocated n → Answers cfg w.pager w.pool w'.pager n := by
  obtain ⟨p, running, pool⟩ := w
  rw [poll] at hpoll
  split at hpoll
  case isFalse => cases hpoll
  rename_i hturn
  obtain ⟨⟨p', answer'⟩, harm, heq⟩ := Option.map_eq_some_iff.1 hpoll
  cases heq
  -- a call that starts either takes the first arm or goes on where the last one failed
  have hdone : ((∃ e, answer = .error e) ∧ Represents cfg p' pool 0 ∧ p'.freePageState = .start ∧
      p'.AtRest) ∨ (∃ n, answer = .allocated n ∧ Represents cfg p' (pool.allocatePage n) 0 ∧
        p'.freePageState = .start ∧ p'.AtRest ∧ Answers cfg p pool p' n) →
      Inv cfg (receive ⟨p, running, pool⟩ p' .allocatePage answer) ∧
        ∀ n, answer = .allocated n → Answers cfg p pool
          (receive ⟨p, running, pool⟩ p' .allocatePage answer).pager n := by
    rintro (⟨⟨e, rfl⟩, hrep, hfree, hrest⟩ | ⟨n, rfl, hrep, hfree, hrest, hanswers⟩)
    · exact ⟨⟨hrep, hfree, hrest⟩, fun n => Answer.noConfusion⟩
    · refine ⟨⟨hrep, hfree, hrest⟩, fun m hm => ?_⟩
      cases hm
      exact hanswers
  rcases hturn with hturn | hturn <;> obtain rfl := hturn
  · obtain ⟨hrep, hfree, hrest⟩ := h
    rcases hrest with hstate | ⟨hstate, hsize⟩
    · obtain ⟨rfl, hrep', hfree', halloc⟩ := hrep.allocatePage_start hstate hfree hpermitted harm
      exact ⟨⟨hrep', hfree', halloc⟩, fun n => Answer.noConfusion⟩
    · exact hdone (hrep.allocateNewPage hstate hsize hfree harm)
  · obtain ⟨hrep, hfree, halloc⟩ := h
    rcases hrep.allocatePage_running halloc hfree harm with ⟨rfl, hrep', hfree', halloc'⟩ | hrest
    · exact ⟨⟨hrep', hfree', halloc'⟩, fun n => Answer.noConfusion⟩
    · exact hdone hrest

theorem Inv.poll (h : Inv cfg w) (hpermitted : Permitted w a)
    (hpoll : w.poll cfg a = some (w', answer)) :
    Inv cfg w' ∧ ∀ n, answer = .allocated n → Answers cfg w.pager w.pool w'.pager n := by
  cases a with
  | freePage pageId =>
    obtain ⟨hinv, hnone⟩ := h.pollFree hpermitted hpoll
    exact ⟨hinv, fun n hn => absurd hn (hnone n)⟩
  | allocatePage env => exact h.pollAllocate hpermitted hpoll

theorem Inv.exec (hpermitted : Permitted w a) (h : Inv cfg w) (hexec : w.exec cfg a = some w') :
    Inv cfg w' := by
  obtain ⟨⟨w'', answer⟩, hpoll, rfl⟩ := Option.map_eq_some_iff.1 hexec
  exact (h.poll hpermitted hpoll).1

structure Begun (cfg : Config) (w : World) : Prop where
  running : w.running = none
  free : w.pager.freePageState = .start
  allocate : w.pager.allocatePageState = .start
  represents : Represents cfg w.pager w.pool 0

theorem Begun.inv (h : Begun cfg w) : Inv cfg w := by
  rw [Inv, h.running]
  exact ⟨h.represents, h.free, .inl h.allocate⟩

theorem Inv.represents (h : Inv cfg w) :
    ∃ ahead, Represents cfg w.pager w.pool ahead ∧ (w.running = none → ahead = 0) := by
  rw [Inv] at h
  split at h
  · exact ⟨0, h.1, fun _ => rfl⟩
  next hrunning =>
    refine ⟨1, h.1, fun hnone => ?_⟩
    rw [hnone] at hrunning
    cases hrunning
  · exact ⟨0, h.1, fun _ => rfl⟩

/-- However pages are freed and allocated, the freelist is the pool of the pages that are not in
use, and every page handed out comes from it or from the end of the file. -/
theorem freelist_is_pool {as : List Action} (hbegun : Begun cfg w)
    (hmeets : Transition.Meets (exec cfg) Permitted w as) (hrun : run (exec cfg) w as = some w') :
    (∃ ahead, Represents cfg w'.pager w'.pool ahead ∧ (w'.running = none → ahead = 0)) ∧
      ∀ a w'' n, Permitted w' a → w'.poll cfg a = some (w'', .allocated n) →
        Answers cfg w'.pager w'.pool w''.pager n := by
  have hinv : Inv cfg w' := run_preserves Inv.exec hmeets hbegun.inv hrun
  refine ⟨hinv.represents, fun a w'' n hpermitted hpoll => ?_⟩
  exact (hinv.poll hpermitted hpoll).2 n rfl

end

def smallConfig : Config := ⟨512, 512⟩

def anyPage : Pager.Surroundings := ⟨0xfffffffe, fun _ => false, .zero⟩

def threePages : World :=
  ⟨⟨⟨3, 0, 0⟩, fun _ => .zero, .start, .start⟩, none, ⟨∅, {2, 3}⟩⟩

theorem threePages_begun : Begun smallConfig threePages := by
  refine ⟨rfl, rfl, rfl, by decide, ⟨[], .nil rfl, nodup_nil, fun n => by simp [threePages],
    rfl⟩, fun n hn => absurd hn (Finset.notMem_empty n), fun n => ?_⟩
  simp only [threePages, smallConfig, Config.pendingBytePageId, Finset.mem_insert,
    Finset.mem_singleton, Finset.notMem_empty, not_false_eq_true, and_true]
  constructor
  · rintro (rfl | rfl) <;> decide
  · rintro ⟨hlow, hhigh, -⟩
    omega

def freeAndReuse : List Action :=
  [.freePage 3, .freePage 3, .freePage 2, .freePage 2, .allocatePage anyPage,
    .allocatePage anyPage, .allocatePage anyPage]

theorem freelist_is_pool_freeAndReuse :
    ∃ w, run (exec smallConfig) threePages freeAndReuse = some w ∧
      w.pool.free = {3} ∧ ∃ ahead, Represents smallConfig w.pager w.pool ahead := by
  obtain ⟨w, hrun, hfree⟩ := Option.map_eq_some_iff.1 (show
    (run (exec smallConfig) threePages freeAndReuse).map
      (fun w => decide (w.pool.free = {3})) = some true by decide +kernel)
  obtain ⟨⟨ahead, hrep, -⟩, -⟩ := freelist_is_pool threePages_begun
    (show Transition.Meets (exec smallConfig) Permitted threePages freeAndReuse by
      decide +kernel) hrun
  exact ⟨w, hrun, of_decide_eq_true hfree, ahead, hrep⟩

/-- As many pages as a `u32` can number, all in use. -/
def largestDatabase : World :=
  ⟨⟨⟨2 ^ 32 - 1, 0, 0⟩, fun _ => .zero, .start, .start⟩, none,
    ⟨∅, (Finset.Icc 2 (2 ^ 32 - 1)).filter fun n => some n ≠ smallConfig.pendingBytePageId⟩⟩

theorem largestDatabase_begun : Begun smallConfig largestDatabase := by
  refine ⟨rfl, rfl, rfl, by decide, ⟨[], .nil rfl, nodup_nil,
    fun n => by simp [largestDatabase], rfl⟩, fun n hn => absurd hn (Finset.notMem_empty n),
    fun n => ?_⟩
  simp [largestDatabase, Finset.mem_filter, Finset.mem_Icc, Finset.notMem_empty,
    not_false_eq_true, and_true, and_assoc]

/-- There the number of the new page wraps around, and page 0 is handed out. -/
theorem largestDatabase_hands_out_page_zero :
    Begun smallConfig largestDatabase ∧
      ∃ w w', largestDatabase.exec smallConfig (.allocatePage anyPage) = some w ∧
        w.poll smallConfig (.allocatePage anyPage) = some (w', .allocated 0) ∧
        w'.pager.header.databaseSize = 0 ∧
        ¬ Answers smallConfig w.pager w.pool w'.pager 0 := by
  refine ⟨largestDatabase_begun, _, _, rfl, rfl, rfl, ?_⟩
  intro hanswers
  rcases hanswers.origin with ⟨hin, -⟩ | ⟨hlt, -⟩
  · exact Finset.notMem_empty 0 hin
  · exact absurd hlt (Nat.not_lt_zero _)

end PgMicro.Freelist
