import Mathlib.Data.List.AList
import Mathlib.Data.List.Sort
import PgMicro.KeyedLog.Positions

/-!
# The page index of the WAL

`frame_cache` maps a page to the frames that hold it, in the order in which they were entered.
-/

namespace PgMicro.Wal

open KeyedLog Option

variable {lo hi : Nat}

abbrev PageNo := Nat

abbrev FrameCache := AList fun _ : PageNo => List Nat

namespace FrameCache

variable {cache : FrameCache} {page page' : PageNo} {frame m n : Nat}

def cacheFrame (cache : FrameCache) (page : PageNo) (frame : Nat) : FrameCache :=
  match cache.lookup page with
  | some frames => cache.insert page (frames ++ [frame])
  | none => cache.insert page [frame]

def retainEntry (keep : List Nat → List Nat) (entry : Sigma fun _ : PageNo => List Nat) :
    Option (Sigma fun _ : PageNo => List Nat) :=
  let frames := keep entry.2
  if frames.isEmpty then none else some ⟨entry.1, frames⟩

theorem keys_filterMap_sublist (keep : List Nat → List Nat)
    (entries : List (Sigma fun _ : PageNo => List Nat)) :
    (entries.filterMap (retainEntry keep)).keys.Sublist entries.keys := by
  induction entries with
  | nil => exact .slnil
  | cons entry entries ih =>
    rw [List.filterMap_cons]
    split
    · exact .cons _ ih
    next kept hkept =>
      rw [retainEntry] at hkept
      split at hkept
      · cases hkept
      · cases hkept
        exact .cons_cons _ ih

def retain (cache : FrameCache) (keep : List Nat → List Nat) : FrameCache :=
  ⟨cache.entries.filterMap (retainEntry keep),
    (keys_filterMap_sublist keep cache.entries).nodup cache.nodupKeys⟩

/-- Frames beyond `maxFrame` are popped. -/
def rollbackCache (cache : FrameCache) (maxFrame : Nat) : FrameCache :=
  cache.retain (List.rdropWhile (maxFrame < ·))

def findFrame (cache : FrameCache) (page : PageNo) (minFrame maxFrame : Nat)
    (frameWatermark : Option Nat) : Option Nat :=
  let (lo, hi) := frameWatermark.elim (minFrame, maxFrame) fun x => (0, x)
  (cache.lookup page).bind (latestIn lo hi)

def iterLatestFrames (cache : FrameCache) (minFrame maxFrame : Nat) : List (PageNo × Nat) :=
  (cache.entries.filterMap fun entry =>
    (latestIn minFrame maxFrame entry.2).map fun frame => (entry.1, frame)).mergeSort
      fun a b => a.1 ≤ b.1

def frames (cache : FrameCache) (page : PageNo) : List Nat := (cache.lookup page).getD []

def extend (cache : FrameCache) (page : PageNo) (frames : List Nat) : FrameCache :=
  cache.insert page (cache.frames page ++ frames)

theorem frames_extend {frames : List Nat} : (cache.extend page frames).frames page' =
    cache.frames page' ++ if page = page' then frames else [] := by
  rcases eq_or_ne page' page with rfl | hne
  · rw [extend, if_pos rfl, FrameCache.frames, AList.lookup_insert, getD_some]
  · rw [extend, if_neg hne.symm, List.append_nil, FrameCache.frames, AList.lookup_insert_ne hne]
    rfl

theorem cacheFrame_eq : cache.cacheFrame page frame = cache.extend page [frame] := by
  rw [cacheFrame, extend, frames]
  cases cache.lookup page <;> rfl

theorem frames_cacheFrame : (cache.cacheFrame page frame).frames page' =
    cache.frames page' ++ if page = page' then [frame] else [] := by
  rw [cacheFrame_eq, frames_extend]

theorem lookup_retain (keep : List Nat → List Nat) : (cache.retain keep).lookup page =
    ((cache.lookup page).map keep).filter (! ·.isEmpty) := by
  apply ext
  intro frames
  rw [← mem_def, ← mem_def, AList.mem_lookup_iff, retain, List.mem_filterMap,
    mem_filter_iff, mem_map]
  constructor
  · rintro ⟨entry, hentry, hkept⟩
    rw [retainEntry] at hkept
    split at hkept
    · cases hkept
    next hne =>
      cases hkept
      exact ⟨⟨_, AList.mem_lookup_iff.2 hentry, rfl⟩, by simpa using hne⟩
  · rintro ⟨⟨frames', hframes', rfl⟩, hne⟩
    refine ⟨⟨page, frames'⟩, AList.mem_lookup_iff.1 hframes', ?_⟩
    rw [retainEntry, if_neg (by simpa using hne)]

theorem frames_retain {keep : List Nat → List Nat} (hnil : keep [] = []) :
    (cache.retain keep).frames page = keep (cache.frames page) := by
  rw [frames, frames, lookup_retain]
  cases cache.lookup page with
  | none => exact hnil.symm
  | some frames =>
    rw [map_some, filter_some, getD_some]
    split
    · rfl
    next hempty =>
      rw [Bool.not_eq_true, Bool.not_eq_false', List.isEmpty_iff] at hempty
      exact hempty.symm

theorem findFrame_none : cache.findFrame page lo hi none = latestIn lo hi (cache.frames page) := by
  rw [findFrame, frames]
  cases cache.lookup page <;> rfl

theorem mem_iterLatestFrames :
    (page, frame) ∈ cache.iterLatestFrames lo hi ↔
    cache.findFrame page lo hi none = some frame := by
  rw [iterLatestFrames, List.mem_mergeSort, List.mem_filterMap, findFrame]
  simp only [elim_none, bind_eq_some_iff, map_eq_some_iff, Prod.mk.injEq]
  constructor
  · rintro ⟨⟨_, frames⟩, hentry, _, hlatest, rfl, rfl⟩
    exact ⟨frames, AList.mem_lookup_iff.2 hentry, hlatest⟩
  · rintro ⟨frames, hlookup, hlatest⟩
    exact ⟨⟨page, frames⟩, AList.mem_lookup_iff.1 hlookup, frame, hlatest, rfl, rfl⟩

theorem pairwise_iterLatestFrames (cache : FrameCache) (lo hi : Nat) :
    (cache.iterLatestFrames lo hi).Pairwise (·.1 < ·.1) := by
  have hkeys : ((cache.entries.filterMap fun entry =>
      (latestIn lo hi entry.2).map fun frame => (entry.1, frame)).map Prod.fst).Sublist
      cache.entries.keys := by
    generalize cache.entries = entries
    induction entries with
    | nil => exact .slnil
    | cons entry entries ih =>
      rw [List.filterMap_cons]
      cases latestIn lo hi entry.2 with
      | none => exact .cons _ ih
      | some frame => exact .cons_cons _ ih
  have hnodup := ((List.mergeSort_perm _ fun a b : PageNo × Nat => a.1 ≤ b.1).map
    Prod.fst).nodup_iff.2 (hkeys.nodup cache.nodupKeys)
  have hsorted := @List.pairwise_mergeSort _ (fun a b : PageNo × Nat => a.1 ≤ b.1)
    (fun a b c hab hbc => decide_eq_true (Nat.le_trans (of_decide_eq_true hab)
      (of_decide_eq_true hbc)))
    (fun a b => by
      rw [Bool.or_eq_true, decide_eq_true_eq, decide_eq_true_eq]
      exact Nat.le_total ..)
    (cache.entries.filterMap fun entry =>
      (latestIn lo hi entry.2).map fun frame => (entry.1, frame))
  rw [List.Nodup, List.pairwise_map] at hnodup
  refine (hsorted.and hnodup).imp ?_
  rintro a b ⟨hle, hne⟩
  exact Nat.lt_of_le_of_ne (of_decide_eq_true hle) hne

def Indexes (cache : FrameCache) (log : Nat → Option PageNo) (n : Nat) : Prop :=
  ∀ page, cache.frames page = positions log n page

namespace Indexes

variable {log log' : Nat → Option PageNo}

theorem empty : Indexes ∅ log 0 := fun _ => rfl

section

variable (h : Indexes cache log n)

include h

theorem congr (hlog : ∀ f, 1 ≤ f → f ≤ n → log f = log' f) : Indexes cache log' n :=
  fun page => (h page).trans (positions_congr hlog)

theorem cacheFrame (hpage : log (n + 1) = some page) :
    Indexes (cache.cacheFrame page (n + 1)) log (n + 1) := by
  intro page'
  rw [frames_cacheFrame, positions_succ, h page', hpage]
  simp [some.injEq]

theorem rollbackCache (hle : m ≤ n) : Indexes (cache.rollbackCache m) log m := by
  intro page
  rw [FrameCache.rollbackCache, frames_retain rfl, h page, positions_rdropWhile hle]

theorem findFrame (hlo : 1 ≤ lo) (hhi : hi ≤ n) :
    cache.findFrame page lo hi none = some frame ↔ IsLatest log page lo hi frame := by
  rw [findFrame_none, h page, latestIn_positions hlo hhi]

theorem findFrame_eq_none (hlo : 1 ≤ lo) (hhi : hi ≤ n) :
    cache.findFrame page lo hi none = none ↔ ∀ f, lo ≤ f → f ≤ hi → log f ≠ some page := by
  rw [findFrame_none, h page, latestIn_positions_eq_none hlo hhi]

end

end Indexes

end FrameCache

end PgMicro.Wal
