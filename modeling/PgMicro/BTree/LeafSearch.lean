import PgMicro.BTree.Descent

/-!
# The search of a leaf

The binary search of a leaf goes to the right of a low cell and to the left of any other. As the
cells ascend, it ends on the first cell it was looking for, the last one when it goes backwards, or
behind the edge of the leaf it came from.
-/

namespace PgMicro.BTree

open Loop BTreeCursor Option Nat SeekOp List

instance : Fintype SeekOp where
  elems := {.ge true, .ge false, .gt, .le true, .le false, .lt}
  complete := by rintro (_ | _) <;> decide +revert

namespace SeekOp

variable {op : SeekOp} {x y : Ordering}

/-- A key that the search comes to only after those it is not looking for. -/
def ahead (op : SeekOp) (x : Ordering) : Bool :=
  match op.iterationDirection with
  | .forwards => !op.low x
  | .backwards => op.low x

def Beyond (op : SeekOp) (x y : Ordering) : Prop :=
  match op.iterationDirection with
  | .forwards => Ascends x y
  | .backwards => Ascends y x

theorem not_found_of_not_ahead (h : op.ahead x = false) : op.found x = false := by
  decide +revert

theorem low_of_ascends (hasc : Ascends x y) (h : op.low y = true) : op.low x = true := by
  rw [Ascends] at hasc
  decide +revert

theorem not_found_beyond (hbeyond : op.Beyond x y) (hahead : op.ahead x = true)
    (h : op.found x = false) : op.found y = false := by
  cases hdir : op.iterationDirection <;> simp only [Beyond, hdir, Ascends] at hbeyond <;>
    decide +revert

theorem found_of_ahead (heq : op.eqOnly = false) (h : op.ahead x = true) : op.found x = true := by
  decide +revert

theorem found_iff_eq (heq : op.eqOnly = true) : op.found x = true ↔ x = .eq := by
  decide +revert

end SeekOp

namespace LeafPageBinarySearchState

variable (op : SeekOp) (cmp : Ordering) (state : LeafPageBinarySearchState)

theorem narrow_minCellIdx : (narrow op cmp state).minCellIdx =
    if op.low cmp then state.curCellIdx + 1 else state.minCellIdx := by
  rcases op with (_ | _) | _ | (_ | _) | _ <;> cases cmp <;> rfl

theorem narrow_maxCellIdx : (narrow op cmp state).maxCellIdx =
    if op.low cmp then state.maxCellIdx else state.curCellIdx - 1 := by
  rcases op with (_ | _) | _ | (_ | _) | _ <;> cases cmp <;> rfl

theorem narrow_nearestMatchingCell : (narrow op cmp state).nearestMatchingCell =
    if op.found cmp then some state.curCellIdx.toNat else state.nearestMatchingCell := by
  rcases op with (_ | _) | _ | (_ | _) | _ <;> cases cmp <;> rfl

theorem narrow_eqSeen : (narrow op cmp state).eqSeen = state.eqSeen := by
  rcases op with (_ | _) | _ | (_ | _) | _ <;> cases cmp <;> rfl

theorem narrow_target : (narrow op cmp state).targetCellWhenNotFound =
    state.targetCellWhenNotFound ∨
    op = .ge true ∧ cmp = .gt ∨ op = .le true ∧ cmp = .lt := by
  rcases op with (_ | _) | _ | (_ | _) | _ <;> cases cmp <;>
    simp [narrow, found, iterationDirection]

theorem narrow_tieBreaker : narrow op (cmp.then op.tieBreaker) state = narrow op cmp state := by
  rcases op with (_ | _) | _ | (_ | _) | _ <;> cases cmp <;> rfl

end LeafPageBinarySearchState

open LeafPageBinarySearchState

variable {κ : Type} (cmp : κ → Ordering) (op : SeekOp) (cells : List κ) {eqSeen : Bool}
  {state : LeafPageBinarySearchState} {n i : Nat}

def edge : Int :=
  match op.iterationDirection with
  | .forwards => cells.length
  | .backwards => -1

def SeekOp.past (x : Ordering) : Prop :=
  match op.iterationDirection with
  | .forwards => x = .gt
  | .backwards => x = .lt

/-- The cell next to those from `lo` to `hi`, in the direction of the search. -/
def candidate (lo hi : Nat) : Option Nat :=
  match op.iterationDirection with
  | .forwards => some hi
  | .backwards => if lo = 0 then none else some (lo - 1)

def foundAt (n : Nat) : Bool := (cells[n]?).any fun x => op.found (cmp x)

/-- The state of a search that is left with the cells from `lo` to `hi`. -/
structure Narrowed (lo hi : Nat) (eqSeen : Bool) (state : LeafPageBinarySearchState) : Prop where
  min_eq : state.minCellIdx = lo
  max_eq : state.maxCellIdx = (hi : Int) - 1
  lo_le : lo ≤ hi
  hi_le : hi ≤ cells.length
  eqSeen_eq : state.eqSeen = eqSeen
  low : ∀ i x, i < lo → cells[i]? = some x → op.low (cmp x) = true
  high : ∀ i x, hi ≤ i → cells[i]? = some x → op.low (cmp x) = false
  nearest : state.nearestMatchingCell = (candidate op lo hi).filter (foundAt cmp op cells)
  target : state.targetCellWhenNotFound = edge op cells ∨
    op.eqOnly = true ∧ ∃ x ∈ cells, op.past (cmp x)

variable {cmp op cells}

theorem narrowed_initial (eqSeen : Bool) :
    Narrowed cmp op cells 0 cells.length eqSeen (initial op cells.length eqSeen) where
  min_eq := rfl
  max_eq := rfl
  lo_le := zero_le _
  hi_le := le_refl _
  eqSeen_eq := rfl
  low := by simp
  high := by
    intro i x hle hx
    rw [getElem?_eq_none_iff.2 hle] at hx
    cases hx
  nearest := by
    rw [candidate]
    cases op.iterationDirection <;> simp [initial, foundAt, filter_some]
  target := .inl rfl

theorem ascends_of_lt (hasc : cells.Pairwise fun x y => Ascends (cmp x) (cmp y)) {j : Nat}
    (hlt : i < j) {x y : κ} (hx : cells[i]? = some x) (hy : cells[j]? = some y) :
    Ascends (cmp x) (cmp y) := by
  obtain ⟨hi, rfl⟩ := List.getElem?_eq_some_iff.1 hx
  obtain ⟨hj, rfl⟩ := List.getElem?_eq_some_iff.1 hy
  exact pairwise_iff_getElem.1 hasc i j hi hj hlt

theorem foundAt_eq {x : κ} (hx : cells[n]? = some x) :
    foundAt cmp op cells n = op.found (cmp x) := by
  rw [foundAt, hx, any_some]

theorem candidate_narrow {lo hi : Nat} {x : Ordering} :
    candidate op (if op.low x then n + 1 else lo) (if op.low x then hi else n) =
      if op.ahead x then some n else candidate op lo hi := by
  rw [candidate, candidate, ahead]
  cases op.iterationDirection <;> cases op.low x <;> simp

theorem beyond_candidate (hasc : cells.Pairwise fun x y => Ascends (cmp x) (cmp y)) {lo hi m : Nat}
    (hlo : lo ≤ m) (hhi : m < hi) (hn : candidate op lo hi = some n) {x y : κ}
    (hx : cells[m]? = some x) (hy : cells[n]? = some y) : op.Beyond (cmp x) (cmp y) := by
  rw [candidate] at hn
  rw [SeekOp.Beyond]
  split at hn
  · cases hn
    exact ascends_of_lt hasc hhi hx hy
  · split at hn <;> cases hn
    exact ascends_of_lt hasc (by omega) hy hx

section

variable {x : κ} {lo hi : Nat}

theorem Narrowed.curCellIdx_eq (h : Narrowed cmp op cells lo hi eqSeen state)
    (hlt : lo < hi) : state.curCellIdx = ((lo + hi - 1) / 2 : Nat) := by
  rw [curCellIdx, h.min_eq, h.max_eq]
  omega

variable (hasc : cells.Pairwise fun x y => Ascends (cmp x) (cmp y))

include hasc

theorem Narrowed.nearest_narrow (h : Narrowed cmp op cells lo hi eqSeen state)
    (hlo : lo ≤ n) (hhi : n < hi) (hcur : state.curCellIdx = n) (hx : cells[n]? = some x) :
    (state.narrow op (cmp x)).nearestMatchingCell =
      (if op.ahead (cmp x) then some n else candidate op lo hi).filter (foundAt cmp op cells) := by
  rw [narrow_nearestMatchingCell, hcur, Int.toNat_natCast, h.nearest]
  cases hahead : op.ahead (cmp x) with
  | false => simp [not_found_of_not_ahead hahead]
  | true =>
    rw [if_pos rfl, filter_some, foundAt_eq hx]
    cases hfound : op.found (cmp x) with
    | true => rfl
    | false =>
      -- an older match would be beyond a cell that is none
      simp only [Bool.false_eq_true, if_false, filter_eq_none_iff, Bool.not_eq_true]
      intro m hm
      rw [foundAt, any_eq_false_iff_get]
      intro hy
      exact not_found_beyond (beyond_candidate hasc hlo hhi hm hx (some_get hy).symm)
        hahead hfound

theorem Narrowed.narrow (h : Narrowed cmp op cells lo hi eqSeen state) (hlt : lo < hi)
    (hx : cells[(lo + hi - 1) / 2]? = some x) :
    Narrowed cmp op cells (if op.low (cmp x) then (lo + hi - 1) / 2 + 1 else lo)
      (if op.low (cmp x) then hi else (lo + hi - 1) / 2) eqSeen (state.narrow op (cmp x)) := by
  have hcur := h.curCellIdx_eq hlt
  have hi_le := h.hi_le
  constructor
  case min_eq =>
    rw [narrow_minCellIdx, hcur, h.min_eq]
    split <;> rfl
  case max_eq =>
    rw [narrow_maxCellIdx, hcur, h.max_eq]
    split <;> rfl
  case lo_le => split <;> omega
  case hi_le => split <;> omega
  case eqSeen_eq => rw [narrow_eqSeen, h.eqSeen_eq]
  case low =>
    intro i y hi hy
    split at hi
    next hlow =>
      rcases lt_or_eq_of_le (le_of_lt_succ hi) with hi | rfl
      · exact low_of_ascends (ascends_of_lt hasc hi hy hx) hlow
      · rwa [← some.inj (hx.symm.trans hy)]
    · exact h.low i y hi hy
  case high =>
    intro i y hi hy
    split at hi
    · exact h.high i y hi hy
    next hlow =>
      rcases lt_or_eq_of_le hi with hi | rfl
      · by_contra hne
        rw [Bool.not_eq_false] at hne
        exact hlow (low_of_ascends (ascends_of_lt hasc hi hx hy) hne)
      · rwa [← some.inj (hx.symm.trans hy), ← Bool.not_eq_true]
  case nearest =>
    rw [candidate_narrow]
    exact h.nearest_narrow hasc (by omega) (by omega) hcur hx
  case target =>
    have hmem := mem_of_getElem? hx
    rcases narrow_target op (cmp x) state with heq | ⟨rfl, hgt⟩ | ⟨rfl, hlt⟩
    · rw [heq]
      exact h.target
    · exact .inr ⟨rfl, x, hmem, hgt⟩
    · exact .inr ⟨rfl, x, hmem, hlt⟩

end

variable (cmp op cells)

inductive Answers (eqSeen : Bool) : Int → SeekResult → Prop
  | found {n : Nat} {x : κ} (cell : cells[n]? = some x) (matching : op.found (cmp x) = true)
      (first : op.iterationDirection = .forwards → ∀ y ∈ cells.take n, op.found (cmp y) = false)
      (last : op.iterationDirection = .backwards →
        ∀ y ∈ cells.drop (n + 1), op.found (cmp y) = false) :
      Answers eqSeen n .found
  | missing {idx : Int} (none : ∀ x ∈ cells, op.found (cmp x) = false)
      (target : idx = edge op cells ∨ op.eqOnly = true ∧ ∃ x ∈ cells, op.past (cmp x)) :
      Answers eqSeen idx (if op.eqOnly = true ∧ ¬ eqSeen then .notFound else .tryAdvance)

variable {cmp op cells}

section

variable {slot : Nat} (h : Narrowed cmp op cells slot slot eqSeen state)

include h

theorem Narrowed.ahead_iff {x : κ} (hx : cells[i]? = some x) :
    op.ahead (cmp x) = true ↔
      if op.iterationDirection = .forwards then slot ≤ i else i < slot := by
  rw [ahead]
  rcases lt_or_ge i slot with hi | hi
  · cases op.iterationDirection <;> simp [h.low i x hi hx, hi]
  · cases op.iterationDirection <;> simp [h.high i x hi hx, hi]

theorem Narrowed.exists_candidate (hasc : cells.Pairwise fun x y => Ascends (cmp x) (cmp y)) {x : κ}
    (hx : cells[i]? = some x) (hahead : op.ahead (cmp x) = true) :
    ∃ n y, candidate op slot slot = some n ∧ cells[n]? = some y ∧ op.ahead (cmp y) = true ∧
      (y = x ∨ op.Beyond (cmp y) (cmp x)) := by
  have hi := (List.getElem?_eq_some_iff.1 hx).1
  have hle := h.hi_le
  rw [h.ahead_iff hx] at hahead
  simp only [candidate, SeekOp.Beyond]
  cases hdir : op.iterationDirection with
  | forwards =>
    rw [hdir, if_pos rfl] at hahead
    have hy := List.getElem?_eq_getElem (lt_of_le_of_lt hahead hi)
    refine ⟨slot, _, rfl, hy, (h.ahead_iff hy).2 (by simp [hdir]), ?_⟩
    rcases eq_or_lt_of_le hahead with rfl | hlt
    · exact .inl (some.inj (hy.symm.trans hx))
    · exact .inr (ascends_of_lt hasc hlt hy hx)
  | backwards =>
    rw [hdir, if_neg (by simp)] at hahead
    have hy := List.getElem?_eq_getElem (show slot - 1 < cells.length by omega)
    refine ⟨slot - 1, _, if_neg (by omega), hy, (h.ahead_iff hy).2 (by simp [hdir]; omega), ?_⟩
    rcases eq_or_lt_of_le (le_sub_one_of_lt hahead) with rfl | hlt
    · exact .inl (some.inj (hy.symm.trans hx))
    · exact .inr (ascends_of_lt hasc hlt hx hy)

theorem Narrowed.answers_some (hn : state.nearestMatchingCell = some n) :
    Answers cmp op cells eqSeen n .found := by
  rw [h.nearest, filter_eq_some_iff, candidate, foundAt, Option.any_eq_true] at hn
  obtain ⟨hn, x, hx, hfound⟩ := hn
  have hno {i : Nat} {y : κ} (hy : cells[i]? = some y)
      (hi : ¬ if op.iterationDirection = .forwards then slot ≤ i else i < slot) :
      op.found (cmp y) = false :=
    not_found_of_not_ahead (Bool.not_eq_true _ ▸ (h.ahead_iff hy).not.2 hi)
  refine .found hx hfound (fun hdir y hy => ?_) (fun hdir y hy => ?_) <;> rw [hdir] at hn hno
  · cases hn
    obtain ⟨i, hi, hy⟩ := List.mem_take_iff_getElem.1 hy
    exact hno (List.getElem?_eq_some_iff.2 ⟨by omega, hy⟩) (by simp; omega)
  · obtain ⟨i, hi, hy⟩ := List.mem_drop_iff_getElem.1 hy
    refine hno (List.getElem?_eq_some_iff.2 ⟨by omega, hy⟩) ?_
    simp only at hn
    split at hn <;> cases hn
    simp
    omega

theorem Narrowed.answers_none (hasc : cells.Pairwise fun x y => Ascends (cmp x) (cmp y))
    (hn : state.nearestMatchingCell = none) :
    Answers cmp op cells eqSeen state.targetCellWhenNotFound
      (if op.eqOnly = true ∧ ¬ eqSeen then .notFound else .tryAdvance) := by
  refine .missing (fun x hx => ?_) h.target
  obtain ⟨i, hx⟩ := getElem?_of_mem hx
  rw [h.nearest, filter_eq_none_iff] at hn
  cases hahead : op.ahead (cmp x) with
  | false => exact not_found_of_not_ahead hahead
  | true =>
    -- the cell next to the end of the search is none that is looked for
    obtain ⟨n, y, hcandidate, hy, hahead', hbeyond⟩ := h.exists_candidate hasc hx hahead
    have hnext : op.found (cmp y) = false := by
      rw [← foundAt_eq hy]
      exact Bool.not_eq_true _ ▸ hn n hcandidate
    rcases hbeyond with rfl | hbeyond
    · exact hnext
    · exact not_found_beyond hbeyond hahead' hnext

end

section

variable (op) (page : Nat) (count : Option Nat) (below : List NodeState) (goingUpwards : Bool)

theorem indexLeaf_ends [Types.UncasedStr] {comparer : Types.RecordCompare}
    {keyValues : List Types.Value} {indexInfo : Types.IndexInfo} {cells : List (List UInt8)}
    {cmp : List UInt8 → Ordering}
    (hcmp : ∀ x ∈ cells, compareUnwrap comparer keyValues indexInfo op x =
      some ((cmp x).then op.tieBreaker))
    (hasc : cells.Pairwise fun x y => Ascends (cmp x) (cmp y)) {eqSeen : Bool} {lo hi : Nat}
    {state : LeafPageBinarySearchState} (h : Narrowed cmp op cells lo hi eqSeen state) (idx : Int)
    (hasRecord : Bool) :
    ∃ idx' hasRecord' result, Answers cmp op cells eqSeen idx' result ∧
      (result = .found → hasRecord' = true) ∧
      Ends (indexbtreeSeekInner comparer keyValues indexInfo op cells)
        (⟨⟨page, idx, count⟩ :: below, goingUpwards, hasRecord⟩, state)
        (⟨⟨page, idx', count⟩ :: below, goingUpwards, hasRecord'⟩, result) := by
  rcases lt_or_eq_of_le h.lo_le with hlt | rfl
  · have hmid : (lo + hi - 1) / 2 < cells.length := lt_of_lt_of_le (by omega) h.hi_le
    have hcur := h.curCellIdx_eq hlt
    have hx := getElem?_eq_getElem hmid
    obtain ⟨idx', hasRecord', result, hanswers, hrecord, hends⟩ := indexLeaf_ends hcmp hasc
      (h.narrow hasc hlt hx) ((lo + hi - 1) / 2 : Nat) hasRecord
    refine ⟨idx', hasRecord', result, hanswers, hrecord, .goOn ?_ hends⟩
    rw [indexbtreeSeekInner]
    simp only [hcur, Int.toNat_natCast, hx, h.min_eq, h.max_eq]
    rw [if_neg (by omega)]
    simp only [bind_eq_bind, bind_some, hcmp _ (getElem_mem hmid),
      narrow_tieBreaker]
    rfl
  · have hover : state.minCellIdx > state.maxCellIdx := by
      rw [h.min_eq, h.max_eq]
      omega
    cases hn : state.nearestMatchingCell with
    | some n =>
      refine ⟨n, true, .found, h.answers_some hn, fun _ => rfl, .stop ?_⟩
      rw [indexbtreeSeekInner]
      simp only [if_pos hover, hn]
      rfl
    | none =>
      refine ⟨state.targetCellWhenNotFound, state.targetIsCell cells.length, _,
        h.answers_none hasc hn, ?_, .stop ?_⟩
      · split <;> simp
      · rw [indexbtreeSeekInner]
        simp only [if_pos hover, hn, h.eqSeen_eq]
        split <;> rfl
termination_by hi - lo
decreasing_by split <;> omega

theorem tableLeaf_ends {rowid : Int64} {cells : List Int64}
    (hsorted : cells.Pairwise fun x y => x.toInt < y.toInt) (hasc : cells.Pairwise fun x y =>
      Ascends (compare x.toInt rowid.toInt) (compare y.toInt rowid.toInt)) {lo hi : Nat}
    {state : LeafPageBinarySearchState}
    (h : Narrowed (fun x => compare x.toInt rowid.toInt) op cells lo hi false state) (idx : Int)
    (hasRecord : Bool) :
    ∃ idx' hasRecord' result,
      Answers (fun x => compare x.toInt rowid.toInt) op cells false idx' result ∧
      (result = .found → hasRecord' = true) ∧
      Ends (tablebtreeSeekInner rowid op cells)
        (⟨⟨page, idx, count⟩ :: below, goingUpwards, hasRecord⟩, state)
        (⟨⟨page, idx', count⟩ :: below, goingUpwards, hasRecord'⟩, result) := by
  rcases lt_or_eq_of_le h.lo_le with hlt | rfl
  · have hmid : (lo + hi - 1) / 2 < cells.length := lt_of_lt_of_le (by omega) h.hi_le
    have hcur := h.curCellIdx_eq hlt
    have hx := getElem?_eq_getElem hmid
    have hround : tablebtreeSeekInner rowid op cells
        (⟨⟨page, idx, count⟩ :: below, goingUpwards, hasRecord⟩, state) =
          if op.found (compare cells[(lo + hi - 1) / 2].toInt rowid.toInt) ∧ op.eqOnly then
            some (.stop (⟨⟨page, ((lo + hi - 1) / 2 : Nat), count⟩ :: below, goingUpwards, true⟩,
              .found))
          else some (.goOn (⟨⟨page, idx, count⟩ :: below, goingUpwards, hasRecord⟩,
            state.narrow op (compare cells[(lo + hi - 1) / 2].toInt rowid.toInt))) := by
      rw [tablebtreeSeekInner]
      simp only [hcur, Int.toNat_natCast, hx, h.min_eq, h.max_eq]
      rw [if_neg (by omega)]
      rfl
    by_cases hexact : op.found (compare cells[(lo + hi - 1) / 2].toInt rowid.toInt) = true ∧
        op.eqOnly = true
    · rw [if_pos hexact] at hround
      refine ⟨((lo + hi - 1) / 2 : Nat), true, .found, .found hx hexact.1 ?_ ?_, fun _ => rfl,
        .stop hround⟩
      all_goals
        intro _ y hy
        by_contra hne
        rw [Bool.not_eq_false, found_iff_eq hexact.2, compare_eq_iff_eq] at hne
        have heq := (found_iff_eq hexact.2).1 hexact.1
        rw [compare_eq_iff_eq] at heq
      · obtain ⟨i, hi, rfl⟩ := mem_take_iff_getElem.1 hy
        have := pairwise_iff_getElem.1 hsorted i _ (by omega) hmid (by omega)
        omega
      · obtain ⟨i, hlen, rfl⟩ := mem_drop_iff_getElem.1 hy
        have := pairwise_iff_getElem.1 hsorted _ ((lo + hi - 1) / 2 + 1 + i) hmid (by omega)
          (by omega)
        omega
    · rw [if_neg hexact] at hround
      obtain ⟨idx', hasRecord', result, hanswers, hrecord, hends⟩ := tableLeaf_ends hsorted hasc
        (h.narrow hasc hlt hx) idx hasRecord
      exact ⟨idx', hasRecord', result, hanswers, hrecord, .goOn hround hends⟩
  · have hover : state.minCellIdx > state.maxCellIdx := by
      rw [h.min_eq, h.max_eq]
      omega
    cases hn : state.nearestMatchingCell with
    | some n =>
      refine ⟨n, true, .found, h.answers_some hn, fun _ => rfl, .stop ?_⟩
      rw [tablebtreeSeekInner]
      simp only [if_pos hover, hn]
      rfl
    | none =>
      refine ⟨state.targetCellWhenNotFound,
        if op.eqOnly then state.targetIsCell cells.length else hasRecord, _,
        h.answers_none hasc hn, ?_, .stop ?_⟩
      · split <;> simp
      · rw [tablebtreeSeekInner]
        simp only [if_pos hover, hn, Bool.false_eq_true, not_false_eq_true, and_true]
        split <;> rfl
termination_by hi - lo
decreasing_by split <;> omega

end

end PgMicro.BTree
