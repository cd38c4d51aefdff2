import PgMicro.Storage.PageCache

/-!
# The cache spills and evicts

The estimate is never more than the pages that may be evicted once the unfinished spills are left
out, so a full cache asks for a spill when none may, and evicts while one may.
-/

namespace PgMicro.Eviction

open Function List PageCache

variable {c c' : PageCache} {key count n : Nat} {queue : List Nat} {e : PageCacheEntry}

def Page.accounted (p : Page) : Bool := p.countedAsEvictable && !p.isWritten

/-- A dirty page is neither spilled nor written. -/
def PageCacheEntry.Sound (e : PageCacheEntry) : Prop :=
  e.refBit ≤ refMax ∧ (e.page.isDirty → ¬e.page.isSpilled ∧ ¬e.page.isWritten)

/-- Each page is under its number, and the estimate is no more than the pages that are clean or
spilled and whose spill is not unfinished. -/
structure Valid (c : PageCache) : Prop where
  nodup : c.queue.Nodup
  named : ∀ key ∈ c.queue, (c.page key).id = key
  sound : ∀ e ∈ c.queue.map c.entry, e.Sound
  counted : c.evictableCount ≤ (c.queue.map c.entry).countP (·.page.accounted)
  fits : c.queue.length ≤ c.capacity
  threshold : c.spillThreshold < c.capacity

/-- What the pager puts into the cache. -/
def Page.Insertable (p : Page) (key : Nat) : Prop :=
  p.id = key ∧ ¬(p.isDirty ∧ p.isSpilled) ∧ ¬p.isWritten

instance (p : Page) (key : Nat) : Decidable (p.Insertable key) :=
  inferInstanceAs (Decidable (_ ∧ _))

theorem Page.Insertable.dirty {p : Page} (h : p.Insertable key) (hdirty : p.isDirty) :
    ¬p.isSpilled ∧ ¬p.isWritten :=
  ⟨fun hspilled => h.2.1 ⟨hdirty, hspilled⟩, h.2.2⟩

theorem toNat_eq_ite (b : Bool) : b.toNat = if b then 1 else 0 := Bool.cond_eq_ite ..

theorem accounted_le (p : Page) : p.accounted.toNat ≤ p.countedAsEvictable.toNat := by
  cases h : p.countedAsEvictable <;> simp [Page.accounted, h, Bool.toNat_le]

theorem accounted_eq {p : Page} (h : ¬p.isWritten) : p.accounted = p.countedAsEvictable := by
  simp [Page.accounted, h]

theorem counted_of_evictable {p : Page} (h : p.evictable) : p.countedAsEvictable := by
  simp only [Page.evictable, Bool.and_eq_true] at h
  simp [Page.countedAsEvictable, h]

theorem defaultSpillThreshold_lt {capacity : Nat} (h : 2 ≤ capacity) :
    defaultSpillThreshold capacity < capacity := by
  have := Nat.mod_le (capacity * 90) (2 ^ 64)
  unfold defaultSpillThreshold
  omega

namespace Valid

variable (h : Valid c)

include h

theorem remove (hperm : c.queue ~ key :: queue)
    (hcount : count ≤ c.evictableCount - (c.page key).accounted.toNat) :
    Valid { c with queue, evictableCount := count } := by
  have hnodup := nodup_cons.1 (hperm.nodup_iff.1 h.nodup)
  have hlen := hperm.length_eq
  have hcounted := h.counted
  rw [(hperm.map c.entry).countP_eq, map_cons, countP_cons] at hcounted
  refine ⟨hnodup.2, fun k hk => h.named k (hperm.mem_iff.2 (mem_cons_of_mem _ hk)),
    fun e he => h.sound e ((hperm.map c.entry).mem_iff.2 (mem_cons_of_mem _ he)), ?_,
    Nat.le_trans (hlen ▸ Nat.le_succ _) h.fits, h.threshold⟩
  refine Nat.le_trans hcount (Nat.sub_le_iff_le_add.2 ?_)
  rwa [page, toNat_eq_ite]

theorem insertEntry (hnew : key ∉ c.queue) (hroom : c.queue.length < c.capacity)
    (hperm : queue ~ key :: c.queue) (hid : e.page.id = key) (hsound : e.Sound)
    (hcount : count ≤ c.evictableCount + e.page.accounted.toNat) :
    Valid { c.setEntry key e with queue, evictableCount := count } := by
  have hother : ∀ k ∈ c.queue, update c.entry key e k = c.entry k := fun k hk =>
    update_of_ne (ne_of_mem_of_not_mem hk hnew) ..
  have hentry : queue.map (update c.entry key e) ~ e :: c.queue.map c.entry := by
    simpa [map_congr_left hother] using
      hperm.map (update c.entry key e)
  refine ⟨hperm.nodup_iff.2 (nodup_cons.2 ⟨hnew, h.nodup⟩), fun k hk => ?_,
    fun a ha => (forall_mem_cons (p := PageCacheEntry.Sound)).2 ⟨hsound, h.sound⟩ a
      (hentry.mem_iff.1 ha), ?_,
    Nat.le_trans (Nat.le_of_eq hperm.length_eq) hroom, h.threshold⟩
  · cases hperm.mem_iff.1 hk with
    | head => simpa [page, setEntry] using hid
    | tail _ hk => simpa [page, setEntry, hother k hk] using h.named k hk
  · refine Nat.le_trans hcount (Nat.le_trans (Nat.add_le_add_right h.counted _) (Nat.le_of_eq ?_))
    exact hentry.countP_eq _ ▸ by rw [countP_cons, toNat_eq_ite]

/-- The entry of a cached page is exchanged: it leaves the ring and comes back. -/
theorem setEntry (hmem : key ∈ c.queue) (hid : e.page.id = key) (hsound : e.Sound)
    (hcount : count ≤ c.evictableCount - (c.page key).accounted.toNat + e.page.accounted.toNat) :
    Valid { c.setEntry key e with evictableCount := count } := by
  have hperm := perm_cons_erase hmem
  exact (h.remove hperm (Nat.le_refl _)).insertEntry (h.nodup.not_mem_erase)
    (Nat.lt_of_lt_of_le (Nat.lt_of_succ_le (Nat.le_of_eq hperm.length_eq.symm)) h.fits)
    hperm hid hsound hcount

theorem page_dirty (hmem : key ∈ c.queue) (hdirty : (c.page key).isDirty) :
    ¬(c.page key).isSpilled ∧ ¬(c.page key).isWritten :=
  (h.sound _ (mem_map_of_mem hmem)).2 hdirty

theorem setPage {f : Page → Page} (hid : (f (c.page key)).id = (c.page key).id)
    (hdirty : key ∈ c.queue → (f (c.page key)).isDirty →
      ¬(f (c.page key)).isSpilled ∧ ¬(f (c.page key)).isWritten)
    (hcount : key ∈ c.queue → count ≤
      c.evictableCount - (c.page key).accounted.toNat + (f (c.page key)).accounted.toNat)
    (hrest : key ∉ c.queue → count = c.evictableCount) :
    Valid ({ c with evictableCount := count }.setPage key f) := by
  unfold PageCache.setPage
  split
  next hmem =>
    exact h.setEntry hmem (hid.trans (h.named key hmem))
      ⟨(h.sound (c.entry key) (mem_map_of_mem hmem)).1, hdirty hmem⟩ (hcount hmem)
  next hmem => exact hrest hmem ▸ h

theorem bumpRef (hmem : key ∈ c.queue) : Valid (c.setEntry key (c.entry key).bumpRef) :=
  h.setEntry hmem (h.named key hmem) ⟨Nat.min_le_right .., h.page_dirty hmem⟩
    (Nat.sub_le_iff_le_add.1 (Nat.le_refl _))

end Valid

/-- The entries differ in reference bits only, which are no greater. -/
def Lowers (c : PageCache) (entry : Nat → PageCacheEntry) : Prop :=
  ∀ k, (entry k).page = c.page k ∧ (entry k).refBit ≤ (c.entry k).refBit

theorem Lowers.refl : Lowers c c.entry := fun _ => ⟨rfl, Nat.le_refl _⟩

/-- A sweep moves the hand and clears reference bits, and takes out at most one page. -/
def Swept (c : PageCache) (r : Result Nat) : Prop :=
  ∃ entry queue, r.2 = { c with entry, queue } ∧ Lowers c entry ∧
    match r.1 with
    | .ok key => (c.page key).evictable ∧ c.queue ~ key :: queue
    | .error _ => c.queue ~ queue

variable {entry : Nat → PageCacheEntry}

theorem Swept.of_next {r : Result Nat} (hq : c.queue = key :: queue) (hentry : Lowers c entry)
    (h : Swept { c with entry, queue := queue ++ [key] } r) : Swept c r := by
  obtain ⟨entry', queue', heq, hentry', hr⟩ := h
  have hperm : c.queue ~ queue ++ [key] := hq ▸ (perm_append_singleton key queue).symm
  refine ⟨entry', queue', heq, fun k => ?_, ?_⟩
  · exact ⟨(hentry' k).1.trans (hentry k).1, Nat.le_trans (hentry' k).2 (hentry k).2⟩
  · split at hr
    · exact ⟨(hentry _).1 ▸ hr.1, hperm.trans hr.2⟩
    · exact hperm.trans hr

theorem lowers_decrementRef : Lowers c (c.setEntry key (c.entry key).decrementRef).entry := by
  intro k
  by_cases hk : k = key
  · subst hk
    simp [setEntry, PageCacheEntry.decrementRef, page]
  · simp [setEntry, hk, page]

theorem sweep_swept : Swept c (sweep n c) := by
  fun_induction sweep n c with
  | case1 | case2 => exact ⟨_, _, rfl, .refl, .rfl⟩
  | case3 n c key queue hq hev hbit => exact ⟨_, _, rfl, .refl, hev, hq ▸ .rfl⟩
  | case4 n c key queue hq hev hbit ih => exact Swept.of_next hq lowers_decrementRef ih
  | case5 n c key queue hq hev ih => exact Swept.of_next hq .refl ih

/-- An evictable entry is reached with a cleared bit after at most `refBit` whole rounds. -/
theorem sweep_finds {before after : List Nat} (hq : c.queue = before ++ key :: after)
    (hev : (c.page key).evictable) {bit len : Nat} (hbit : (c.entry key).refBit ≤ bit)
    (hlen : before.length + after.length + 1 = len) (hn : bit * len + before.length < n) :
    ∃ k, (sweep n c).1 = .ok k := by
  induction n generalizing c before after bit with
  | zero => omega
  | succ n ih =>
    cases before with
    | nil =>
      simp only [sweep, hq, nil_append, hev, if_true]
      split
      · exact ⟨key, rfl⟩
      next hne =>
        obtain ⟨b, rfl⟩ := Nat.exists_eq_succ_of_ne_zero (by omega : bit ≠ 0)
        simp only [Nat.succ_mul] at hn hlen
        refine @ih _ _ [] rfl ?_ b ?_ (by simpa using hlen) (by omega)
        · exact (congrArg _ (lowers_decrementRef key).1).trans hev
        · simpa [setEntry, PageCacheEntry.decrementRef] using hbit
    | cons x before =>
      have hnext {entry : Nat → PageCacheEntry} (hentry : Lowers c entry) :=
        @ih { c with entry, queue := before ++ key :: after ++ [x] } before (after ++ [x])
          (append_assoc ..) ((congrArg _ (hentry key).1).trans hev) bit
          (Nat.le_trans (hentry key).2 hbit)
      simp only [length_append, length_cons, length_nil] at hlen hn hnext
      simp only [sweep, hq, cons_append]
      repeat' split
      · exact ⟨x, rfl⟩
      · exact hnext lowers_decrementRef (by omega) (by omega)
      · exact hnext .refl (by omega) (by omega)

theorem evictOne_cases : (∃ entry queue error, Lowers c entry ∧ c.queue ~ queue ∧
      c.evictOne = (.error error, { c with entry, queue })) ∨
    ∃ entry queue key, Lowers c entry ∧ (c.page key).evictable ∧ c.queue ~ key :: queue ∧
      c.evictOne = (.ok (), { c with entry, queue, evictableCount := c.evictableCount - 1 }) := by
  unfold evictOne
  split
  · exact .inl ⟨c.entry, c.queue, _, .refl, .rfl, rfl⟩
  obtain ⟨entry, queue, heq, hentry, hr⟩ :=
    sweep_swept (c := c) (n := c.queue.length * (refMax + 1))
  generalize sweep (c.queue.length * (refMax + 1)) c = r at *
  obtain ⟨r, c'⟩ := r
  subst heq
  cases r with
  | error e => exact .inl ⟨entry, queue, e, hentry, hr, rfl⟩
  | ok key => exact .inr ⟨entry, queue, key, hentry, hr.1, hr.2, rfl⟩

theorem evictOne_ok (hrefs : ∀ e ∈ c.queue.map c.entry, e.refBit ≤ refMax) (hmem : key ∈ c.queue)
    (hev : (c.page key).evictable) : c.evictOne.1 = .ok () := by
  obtain ⟨before, after, hq⟩ := append_of_mem hmem
  have hlen : before.length + after.length + 1 = c.queue.length := by
    simp only [hq, length_append, length_cons]
    omega
  obtain ⟨k, hk⟩ := sweep_finds hq hev (hrefs _ (mem_map_of_mem hmem)) hlen
    (by rw [Nat.mul_add, Nat.mul_comm refMax]; omega : _ < c.queue.length * (refMax + 1))
  rw [evictOne, if_neg (ne_nil_of_mem hmem)]
  generalize sweep (c.queue.length * (refMax + 1)) c = r at *
  obtain ⟨r, c'⟩ := r
  cases hk
  rfl

/-- What a removal leaves. -/
structure Keeps (c c' : PageCache) : Prop where
  valid : Valid c'
  capacity : c'.capacity = c.capacity
  queue : c'.queue ⊆ c.queue

variable {α β : Type} {P : PageCache → Prop}

theorem andThen_rule {r : Result α} {next : α → PageCache → Result β} (herror : P r.2)
    (hok : ∀ a, r.1 = .ok a → P (next a r.2).2) : P (r.andThen next).2 := by
  obtain ⟨_ | a, c⟩ := r
  · exact herror
  · exact hok a rfl

section

variable (h : Valid c)

include h

theorem Valid.keeps : Keeps c c := ⟨h, rfl, fun _ hk => hk⟩

theorem Valid.lower (hentry : Lowers c entry) : Valid { c with entry } where
  nodup := h.nodup
  named := fun k hk => (congrArg _ (hentry k).1).trans (h.named k hk)
  sound := by
    simp only [mem_map, forall_exists_index, and_imp, forall_apply_eq_imp_iff₂]
    intro k hk
    obtain ⟨hbit, hdirty⟩ := h.sound _ (mem_map_of_mem hk)
    exact ⟨Nat.le_trans (hentry k).2 hbit, (hentry k).1 ▸ hdirty⟩
  counted := by simpa [comp_def, (hentry _).1, page] using h.counted
  fits := h.fits
  threshold := h.threshold

theorem evictOne_keeps : Keeps c c.evictOne.2 ∧
    (c.evictOne.1 = .ok () → c.evictOne.2.queue.length + 1 = c.queue.length) := by
  obtain ⟨entry, queue, error, hentry, hperm, heq⟩ |
    ⟨entry, queue, key, hentry, hev, hperm, heq⟩ := evictOne_cases (c := c)
  all_goals
    rw [heq]
    have hlow := h.lower hentry
  · refine ⟨⟨⟨hperm.nodup_iff.1 h.nodup, fun k hk => hlow.named k (hperm.mem_iff.2 hk),
      fun e he => hlow.sound e ((hperm.map entry).mem_iff.2 he), ?_, ?_, h.threshold⟩, rfl,
      hperm.symm.subset⟩, nofun⟩
    · exact (hperm.map entry).countP_eq _ ▸ hlow.counted
    · exact hperm.length_eq ▸ h.fits
  · refine ⟨⟨hlow.remove hperm ?_, rfl, fun k hk => hperm.mem_iff.2 (mem_cons_of_mem _ hk)⟩,
      fun _ => hperm.length_eq.symm⟩
    exact Nat.sub_le_sub_left (Bool.toNat_le _) _

theorem evictMany_keeps : Keeps c (c.evictMany n).2 ∧
    ((c.evictMany n).1 = .ok () → (c.evictMany n).2.queue.length + n = c.queue.length) := by
  induction n generalizing c with
  | zero => exact ⟨h.keeps, fun _ => rfl⟩
  | succ n ih =>
    obtain ⟨hone, hlen⟩ := evictOne_keeps h
    rw [evictMany]
    generalize c.evictOne = r at *
    obtain ⟨_ | _, c1⟩ := r
    · exact ⟨hone, nofun⟩
    · obtain ⟨hmany, hlen'⟩ := ih hone.valid
      refine ⟨⟨hmany.valid, hmany.capacity.trans hone.capacity,
        fun k hk => hone.queue (hmany.queue hk)⟩, fun hok => ?_⟩
      exact (congrArg (· + 1) (hlen' hok)).trans (hlen rfl)

theorem delete_keeps (key : Nat) : Keeps c (c.delete key).2 ∧
    ((c.delete key).1 = .ok () → key ∉ (c.delete key).2.queue) := by
  unfold delete
  dsimp only
  repeat' split
  next hnot => exact ⟨h.keeps, fun _ => hnot⟩
  iterate 3 exact ⟨h.keeps, nofun⟩
  next hmem _ _ _ =>
    exact ⟨⟨h.remove (perm_cons_erase (not_not.1 hmem))
      (Nat.sub_le_sub_left (accounted_le _) _), rfl, erase_subset⟩, fun _ => h.nodup.not_mem_erase⟩

theorem insertNew_valid {p : Page} (hp : p.Insertable key) (hnew : key ∉ c.queue) :
    Valid (c.insertNew key p).2 := by
  obtain ⟨hkeeps, hlen⟩ := evictMany_keeps h (n := 1 - (c.capacity - c.queue.length))
  unfold insertNew makeRoomFor
  split
  · exact h
  refine andThen_rule hkeeps.valid fun _ hok => ?_
  refine hkeeps.valid.insertEntry (fun hk => hnew (hkeeps.queue hk)) ?_ ?_ hp.1
    ⟨Nat.zero_le _, hp.dirty⟩ (Nat.le_of_eq (by rw [accounted_eq hp.2.2]))
  · have := hlen hok
    have := h.fits
    rw [hkeeps.capacity]
    omega
  · exact perm_middle.trans (.of_eq (by rw [take_append_drop]))

theorem insert_valid {p : Page} {updateInPlace : Bool} {r : Result Unit} (hp : p.Insertable key)
    (hr : c.insert key p updateInPlace = some r) : Valid r.2 := by
  unfold PageCache.insert at hr
  dsimp only at hr
  split at hr
  next hnew =>
    cases hr
    exact insertNew_valid h hp hnew
  next hmem =>
    have hmem := not_not.1 hmem
    repeat' split at hr
    all_goals cases hr
    · obtain ⟨hkeeps, hgone⟩ := delete_keeps h key
      exact andThen_rule hkeeps.valid fun _ hok => insertNew_valid hkeeps.valid hp (hgone hok)
    · refine h.setEntry hmem hp.1 ⟨Nat.min_le_right .., hp.dirty⟩ ?_
      have hold := accounted_le (c.page key)
      rw [accounted_eq hp.2.2]
      cases hcounted : (c.page key).countedAsEvictable <;> cases p.countedAsEvictable <;>
        rw [hcounted] at hold <;>
        simp only [recount, Bool.toNat_true, Bool.toNat_false] at hold ⊢ <;> omega
    · exact h.bumpRef hmem

theorem truncate_valid {keys : List Nat} : Valid (c.truncate keys).2 := by
  induction keys generalizing c with
  | nil => exact h
  | cons key keys ih =>
    have hkeeps := (delete_keeps h key).1
    exact andThen_rule hkeeps.valid fun _ _ => ih hkeeps.valid

theorem get_valid : Valid (c.get key).2 := by
  have hdelete := (delete_keeps h key).1
  unfold PageCache.get
  dsimp only
  repeat' split
  · exact h
  · exact andThen_rule hdelete.valid fun _ _ => hdelete.valid
  next hmem _ => exact h.bumpRef (not_not.1 hmem)

theorem resize_valid {newCap : Nat} (hcap : 2 ≤ newCap) : Valid (c.resize newCap).2 := by
  obtain ⟨hkeeps, hlen⟩ := evictMany_keeps h (n := c.queue.length - newCap)
  unfold resize
  split
  · exact h
  refine andThen_rule hkeeps.valid fun _ hok => ?_
  have := hlen hok
  exact { hkeeps.valid with
    fits := (by omega : (c.evictMany (c.queue.length - newCap)).2.queue.length ≤ newCap)
    threshold := defaultSpillThreshold_lt hcap }

theorem addDirty_valid (hr : c.addDirty key = some c') : Valid c' := by
  obtain ⟨⟨hmem, -⟩, hr⟩ := Option.ite_none_right_eq_some.1 hr
  cases hr
  have hid := h.named key hmem
  have hpage := h.page_dirty hmem
  have hset {count : Nat} := @Valid.setPage c key count h
    ({ · with isDirty := true, isSpilled := false, isWritten := false }) rfl fun _ _ => by simp
  split
  · exact hset (fun _ => by simp_all [Page.accounted, Page.countedAsEvictable]) (absurd hmem)
  · rw [notifyPageDirty, notify]
    split
    · exact hset (fun _ => Nat.le_add_right_of_le (Nat.sub_le_sub_left (Bool.toNat_le _) _))
        (absurd hmem)
    · exact hset (fun _ => by simp_all [Page.accounted, Page.countedAsEvictable]) (absurd hmem)

theorem spillWritten_valid {handle id : Nat}
    (hpage : id ∈ c.queue → (c.page id).handle = handle → (c.page id).isDirty) :
    Valid (c.spillWritten handle id) := by
  rw [spillWritten]
  refine h.setPage (by split <;> rfl) (fun hmem => ?_) (fun hmem => ?_) fun _ => rfl
  · split
    · simp
    · exact h.page_dirty hmem
  · split
    next hhandle =>
      have hdirty := hpage hmem hhandle
      have hspilled := (h.page_dirty hmem hdirty).1
      simp [Page.accounted, Page.countedAsEvictable, hdirty, hspilled]
    · exact Nat.sub_le_iff_le_add.1 (Nat.le_refl _)

theorem finishSpill_valid {handle id : Nat}
    (hpage : id ∈ c.queue → (c.page id).handle = handle) : Valid (c.finishSpill handle id) := by
  have hwritten (hmem : id ∈ c.queue) (hwritten : (c.page id).isWritten) :
      ¬(c.page id).isDirty := fun hdirty => (h.page_dirty hmem hdirty).2 hwritten
  rw [finishSpill, notifyPageSpilled, notify]
  split
  next hne =>
    rw [if_neg fun hmem => hne (hpage hmem.1)]
    exact h
  split
  · split
    next hmem =>
      exact h.setPage rfl (fun _ => by simp_all) (fun _ => by
        simp_all [Page.accounted, Page.countedAsEvictable]) (absurd hmem.1)
    next hmem =>
      exact h.setPage rfl (fun _ => by simp_all) (fun hid => by
        simp_all [Page.accounted, Page.countedAsEvictable]) fun _ => rfl
  · exact h

end

/-- The condition: pages are cached under their numbers, a page that is being spilled is not marked
clean before it has been written and stays the one under its number until the spill is finished, and
there is room for two pages. -/
def Allowed (c : PageCache) : Event → Prop
  | .insert key p | .upsertPage key p => p.Insertable key
  | .spillWritten handle id => id ∈ c.queue → (c.page id).handle = handle → (c.page id).isDirty
  | .finishSpill handle id => id ∈ c.queue → (c.page id).handle = handle
  | .resize newCap => 2 ≤ newCap
  | _ => True

instance (c : PageCache) : DecidablePred (Allowed c) := fun e => by
  cases e <;> unfold Allowed <;> infer_instance

theorem exec_valid {event : Event} (hallowed : Allowed c event) (h : Valid c)
    (hexec : exec c event = some c') : Valid c' := by
  cases event with
  | insert key p | upsertPage key p =>
    obtain ⟨r, hr, rfl⟩ := Option.map_eq_some_iff.1 hexec
    exact insert_valid h hallowed hr
  | get key => exact Option.some.inj hexec ▸ get_valid h
  | delete key => exact Option.some.inj hexec ▸ (delete_keeps h key).1.valid
  | makeRoomFor n =>
    cases hexec
    unfold makeRoomFor
    split
    · exact h
    · exact (evictMany_keeps h).1.valid
  | truncate maxPageNum keys =>
    obtain ⟨-, hexec⟩ := Option.ite_none_right_eq_some.1 hexec
    exact Option.some.inj hexec ▸ truncate_valid h
  | resize newCap => exact Option.some.inj hexec ▸ resize_valid h hallowed
  | clear clearDirty =>
    cases hexec
    unfold clear
    split
    · exact h
    · exact ⟨nodup_nil, nofun, nofun, Nat.le_refl _, Nat.zero_le _, h.threshold⟩
  | addDirty key => exact addDirty_valid h hexec
  | spillWritten handle id => exact Option.some.inj hexec ▸ spillWritten_valid h hallowed
  | finishSpill handle id => exact Option.some.inj hexec ▸ finishSpill_valid h hallowed
  | clearDirty key =>
    cases hexec
    refine h.setPage rfl (fun _ => by simp)
      (fun _ => Nat.sub_le_iff_le_add.1 (Nat.sub_le_sub_left ?_ _)) fun _ => rfl
    by_cases hid : (c.page key).id = 1 <;> cases hw : (c.page key).isWritten <;>
      simp [Page.accounted, Page.countedAsEvictable, hid, hw, Bool.toNat_le]
  | setSpillEnabled enabled => exact Option.some.inj hexec ▸ { h with }
  | setFlags key =>
    cases hexec
    exact h.setPage rfl h.page_dirty (fun _ => Nat.sub_le_iff_le_add.1 (Nat.le_refl _)) fun _ => rfl

def SpillsWhenFull (c : PageCache) : Prop :=
  c.queue.length = c.capacity → c.spillEnabled →
    (∀ key ∈ c.queue, (c.page key).id ≠ 1 → (c.page key).isDirty ∧ ¬(c.page key).isSpilled) →
    c.needsSpill

def EvictsExactly (c : PageCache) : Prop :=
  (c.evictOne.1 = .ok () ↔ ∃ key ∈ c.queue, (c.page key).evictable) ∧
    ∀ key ∈ c.queue, key ∉ c.evictOne.2.queue →
      let p := c.page key
      p.id ≠ 1 ∧ ¬p.isLocked ∧ p.pinCount = 0 ∧ p.strongCount = 1 ∧ (p.isDirty → p.isSpilled)

theorem Valid.spillsWhenFull (h : Valid c) : SpillsWhenFull c := by
  intro hfull henabled hdirty
  have hnone : ∀ key ∈ c.queue, ¬(c.page key).countedAsEvictable := by
    intro key hkey
    have := hdirty key hkey
    simp only [Page.countedAsEvictable]
    grind
  have hzero : c.evictableCount = 0 := by
    have := h.counted
    rwa [countP_eq_zero.2 (by simp_all [page, Page.accounted]), Nat.le_zero] at this
  have hevictable : c.countEvictablePages = 0 :=
    countP_eq_zero.2 fun key hkey hev => hnone key hkey (counted_of_evictable hev)
  have := h.threshold
  simp only [needsSpill, henabled]
  simp
  omega

theorem Valid.evictsExactly (h : Valid c) : EvictsExactly c := by
  refine ⟨⟨fun hok => ?_, fun ⟨key, hmem, hev⟩ =>
    evictOne_ok (fun e he => (h.sound e he).1) hmem hev⟩,
    fun key hmem hgone => ?_⟩
  all_goals obtain ⟨entry, queue, error, hentry, hperm, heq⟩ |
    ⟨entry, queue, victim, hentry, hev, hperm, heq⟩ := evictOne_cases (c := c)
  · rw [heq] at hok
    cases hok
  · exact ⟨victim, hperm.mem_iff.2 mem_cons_self, hev⟩
  · rw [heq] at hgone
    exact absurd (hperm.mem_iff.1 hmem) hgone
  · rw [heq] at hgone
    cases hperm.mem_iff.1 hmem with
    | head =>
      simp only [Page.evictable] at hev
      grind
    | tail _ hmem => exact absurd hmem hgone

variable {capacity : Nat} {spillEnabled : Bool} {events : List Event}

open Transition in
theorem spills_and_evicts (hcap : 2 ≤ capacity)
    (hmeets : Meets exec Allowed (newWithSpill capacity spillEnabled entry) events)
    (hrun : run exec (newWithSpill capacity spillEnabled entry) events = some c) :
    SpillsWhenFull c ∧ EvictsExactly c := by
  have h := run_preserves exec_valid hmeets
    ⟨nodup_nil, nofun, nofun, Nat.le_refl _, Nat.zero_le _, defaultSpillThreshold_lt hcap⟩ hrun
  exact ⟨h.spillsWhenFull, h.evictsExactly⟩

def Page.fresh (handle id : Nat) : Page := ⟨handle, id, true, false, false, false, false, 0, 1⟩

def small (capacity : Nat) : PageCache := .newWithSpill capacity true fun key => ⟨.fresh key key, 0⟩

def fill : List Event :=
  [.insert 2 (.fresh 2 2), .insert 3 (.fresh 3 3), .addDirty 2, .addDirty 3]

open Transition in
/-- Page 2 is spilled and then made dirty again. -/
theorem spills_and_evicts_two :
    Meets exec Allowed (small 2) (fill ++ [.spillWritten 2 2, .finishSpill 2 2, .addDirty 2]) ∧
    ∃ c, run exec (small 2) (fill ++ [.spillWritten 2 2, .finishSpill 2 2, .addDirty 2]) = some c ∧
      c.queue.length = c.capacity ∧ SpillsWhenFull c ∧ EvictsExactly c := by
  have hmeets : Meets exec Allowed (small 2)
    (fill ++ [.spillWritten 2 2, .finishSpill 2 2, .addDirty 2]) := by decide
  exact ⟨hmeets, _, rfl, rfl, spills_and_evicts (Nat.le_refl 2) hmeets rfl⟩

/-- With room for one page only, a spill is never asked for. With room for two, page 2 is exchanged
while its spill is written, and the end of the spill counts the new page a second time. -/
theorem full_without_spill :
    (∃ c, Transition.run exec (small 1) [.insert 2 (.fresh 2 2), .addDirty 2] = some c ∧
      ¬SpillsWhenFull c) ∧
    ∃ c, Transition.run exec (small 2)
      (fill ++ [.upsertPage 2 (.fresh 9 2), .spillWritten 2 2, .finishSpill 2 2, .addDirty 2]) =
        some c ∧ ¬SpillsWhenFull c :=
  ⟨⟨_, rfl, fun h => absurd (h rfl rfl (by decide)) (by decide)⟩,
    _, rfl, fun h => absurd (h rfl rfl (by decide)) (by decide)⟩

end PgMicro.Eviction
