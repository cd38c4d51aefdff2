import PgMicro.BTree.Neighbours

/-!
# The way down to the leaf of a key

On each interior page a binary search ends between two cells, with the leaf on the right of the
first and on the left of the second. What this says about the entries on both sides is for a tree to
tell (`Guided`); the way down keeps the entries before its place apart from those after it.
-/

namespace PgMicro.BTree

open Loop BTreeCursor List Step

def SeekOp.low : SeekOp → Ordering → Bool
  | .ge _, cmp => cmp.isLT
  | .gt, cmp => cmp.isLE
  | .le _, cmp => cmp.isLE
  | .lt, cmp => cmp.isLT

def Ascends (x y : Ordering) : Prop := (x = .gt → y = .gt) ∧ (y = .lt → x = .lt)

variable {κ : Type} {left eq : κ → Bool} {depth page : Nat} {state : CursorSeekState}

/-- A search among the cells of an interior page has ended in front of the cell `slot`. -/
structure Searched (left eq : κ → Bool) (cells : List (Nat × κ)) (slot : Nat)
    (eqSeen eqSeen' : Bool) : Prop where
  slot_le : slot ≤ cells.length
  front : ∀ i cell, i + 1 = slot → cells[i]? = some cell →
    left cell.2 = false ∧ (eq cell.2 = true → eqSeen' = true)
  behind : ∀ cell, cells[slot]? = some cell →
    left cell.2 = true ∧ (eq cell.2 = true → eqSeen' = true)
  seen : eqSeen' = true → eqSeen = true ∨ ∃ cell ∈ cells, eq cell.2 = true
  kept : eqSeen = true → eqSeen' = true

def retreats (pages : Pages κ) (dir : IterationDirection) : Bool :=
  pages.isIndex && decide (dir = .backwards)

section

variable {pages : Pages κ} {probe : κ → Option (Bool × Bool)} (dir : IterationDirection)
  {right : Nat} {cells : List (Nat × κ)} (below : List NodeState) (goingUpwards hasRecord : Bool)

theorem moveStep_probe (hpage : pages.page page = .interior cells right) {lo hi : Nat}
    (hlt : lo < hi) {cell : Nat × κ} (hcell : cells[(lo + hi - 1) / 2]? = some cell)
    {isOnLeft isEq : Bool} (hprobe : probe cell.2 = some (isOnLeft, isEq)) (idx : Int)
    (count nearest : Option Nat) (eqSeen : Bool) :
    ∃ idx', moveStep pages probe dir (⟨⟨page, idx, count⟩ :: below, goingUpwards, hasRecord⟩,
        .interiorPageBinarySearch ⟨lo, (hi : Int) - 1, nearest, eqSeen⟩) =
      some (.goOn (⟨⟨page, idx', count⟩ :: below, goingUpwards, hasRecord⟩,
        .interiorPageBinarySearch
          (if isOnLeft then
            ⟨lo, ((lo + hi - 1) / 2 : Nat) - 1, some ((lo + hi - 1) / 2), eqSeen || isEq⟩
          else ⟨((lo + hi - 1) / 2 + 1 : Nat), (hi : Int) - 1, nearest, eqSeen || isEq⟩))) := by
  have hmid : ((lo : Int) + ((hi : Int) - 1)) / 2 = ((lo + hi - 1) / 2 : Nat) := by omega
  refine ⟨if pages.isIndex then ((lo + hi - 1) / 2 : Nat) else idx, ?_⟩
  rw [moveStep]
  simp only [hpage, CursorSeekState.onInterior, moveInner, hmid, Int.toNat_natCast, hcell]
  rw [if_neg (by omega)]
  simp only [Option.bind_eq_bind, Option.bind_some, hprobe]
  cases isOnLeft <;> cases pages.isIndex <;> rfl

/-- The search of a page, from bounds that have been narrowed down to `lo` and `hi` on. -/
theorem search_ends (hpage : pages.page page = .interior cells right)
    (hprobe : ∀ cell ∈ cells, probe cell.2 = some (left cell.2, eq cell.2)) (count : Option Nat)
    (eqSeen0 : Bool) (lo hi : Nat) (hle : lo ≤ hi) (hhi : hi ≤ cells.length) (idx : Int)
    (eqSeen : Bool) (hfront : ∀ i cell, i + 1 = lo → cells[i]? = some cell →
      left cell.2 = false ∧ (eq cell.2 = true → eqSeen = true))
    (hbehind : ∀ cell, cells[hi]? = some cell →
      left cell.2 = true ∧ (eq cell.2 = true → eqSeen = true))
    (hseen : eqSeen = true → eqSeen0 = true ∨ ∃ cell ∈ cells, eq cell.2 = true)
    (hkept : eqSeen0 = true → eqSeen = true) :
    ∃ slot eqSeen' idx', Searched left eq cells slot eqSeen0 eqSeen' ∧
      ∀ b, Ends (moveStep pages probe dir) (⟨⟨page, idx', count⟩ :: below, goingUpwards, hasRecord⟩,
          .interiorPageBinarySearch
            ⟨slot, (slot : Int) - 1, if slot < cells.length then some slot else none, eqSeen'⟩) b →
        Ends (moveStep pages probe dir) (⟨⟨page, idx, count⟩ :: below, goingUpwards, hasRecord⟩,
          .interiorPageBinarySearch
            ⟨lo, (hi : Int) - 1, if hi < cells.length then some hi else none, eqSeen⟩) b := by
  rcases Nat.lt_or_eq_of_le hle with hlt | rfl
  · have hmid : (lo + hi - 1) / 2 < cells.length := by omega
    have hcell := getElem?_eq_getElem hmid
    have hmem := getElem_mem hmid
    obtain ⟨idx1, hstep⟩ := moveStep_probe dir below goingUpwards hasRecord hpage hlt hcell
      (hprobe _ hmem) idx count
      (if hi < cells.length then some hi else none) eqSeen
    have hseen' : (eqSeen || eq cells[(lo + hi - 1) / 2].2) = true →
        eqSeen0 = true ∨ ∃ cell ∈ cells, eq cell.2 = true := by
      intro hor
      rcases Bool.or_eq_true_iff.1 hor with hold | hnew
      · exact hseen hold
      · exact .inr ⟨_, hmem, hnew⟩
    have hkept' (h : eqSeen0 = true) : (eqSeen || eq cells[(lo + hi - 1) / 2].2) = true := by
      rw [hkept h, Bool.true_or]
    have hweaken {cell : Nat × κ} (h : eq cell.2 = true → eqSeen = true) (heq : eq cell.2 = true) :
        (eqSeen || eq cells[(lo + hi - 1) / 2].2) = true := by rw [h heq, Bool.true_or]
    cases hleft : left cells[(lo + hi - 1) / 2].2 with
    | true =>
      obtain ⟨slot, eqSeen', idx', hsearched, hends⟩ := search_ends hpage hprobe count eqSeen0
        lo ((lo + hi - 1) / 2) (by omega) hmid.le idx1
        (eqSeen || eq cells[(lo + hi - 1) / 2].2)
        (fun i cell hi hcell => ⟨(hfront i cell hi hcell).1, hweaken (hfront i cell hi hcell).2⟩)
        (by
          intro cell h
          rw [hcell] at h
          cases h
          exact ⟨hleft, fun heq => by rw [heq, Bool.or_true]⟩)
        hseen' hkept'
      refine ⟨slot, eqSeen', idx', hsearched, fun b h => .goOn hstep ?_⟩
      have := hends b h
      rw [if_pos hmid] at this
      rw [hleft, if_pos rfl]
      exact this
    | false =>
      obtain ⟨slot, eqSeen', idx', hsearched, hends⟩ := search_ends hpage hprobe count eqSeen0
        ((lo + hi - 1) / 2 + 1) hi (by omega) hhi idx1
        (eqSeen || eq cells[(lo + hi - 1) / 2].2)
        (by
          intro i cell hi h
          obtain rfl : i = (lo + _ - 1) / 2 := Nat.succ_injective hi
          rw [hcell] at h
          cases h
          exact ⟨hleft, fun heq => by rw [heq, Bool.or_true]⟩)
        (fun cell hcell => ⟨(hbehind cell hcell).1, hweaken (hbehind cell hcell).2⟩)
        hseen' hkept'
      refine ⟨slot, eqSeen', idx', hsearched, fun b h => .goOn hstep ?_⟩
      rw [hleft, if_neg (by simp)]
      exact hends b h
  · exact ⟨lo, eqSeen, idx, ⟨hhi, hfront, hbehind, hseen, hkept⟩, fun b h => h⟩
termination_by hi - lo

theorem move_level (steps : List (Step κ)) (hsub : Subtree pages (depth + 1) page)
    (hpage : pages.page page = .interior cells right) (hroom : steps.length + 1 < btcursorMaxDepth)
    (hprobe : ∀ cell ∈ cells, probe cell.2 = some (left cell.2, eq cell.2)) (idx : Int)
    {eqSeen : Bool}
    (hstate : state.onInterior cells.length = ⟨0, (cells.length : Int) - 1, none, eqSeen⟩) :
    ∃ slot eqSeen', Searched left eq cells slot eqSeen eqSeen' ∧
      ∀ b, Ends (moveStep pages probe dir)
          (⟨⟨childAt cells right slot, -1, none⟩ ::
            (⟨page, cells, right, slot⟩ :: steps).map (node (retreats pages dir)),
            goingUpwards, hasRecord⟩, .movingBetweenPages eqSeen') b →
        Ends (moveStep pages probe dir)
          (⟨⟨page, idx, none⟩ :: steps.map (node (retreats pages dir)), goingUpwards,
            hasRecord⟩, state) b := by
  obtain ⟨slot, eqSeen', idx', hsearched, hends⟩ := search_ends dir
    (steps.map (node (retreats pages dir))) goingUpwards hasRecord hpage hprobe none eqSeen 0
    cells.length (Nat.zero_le _) (Nat.le_refl _) idx eqSeen (by omega) (by simp) .inl id
  refine ⟨slot, eqSeen', hsearched, fun b h => ?_⟩
  rw [if_neg (Nat.lt_irrefl _)] at hends
  refine .of_body_eq ?_ (hends b (.goOn ?_ h))
  · rw [moveStep, moveStep]
    simp only [hpage, hstate]
    rfl
  · have hpush (i : Int) : push pages
      ⟨⟨page, i, none⟩ :: steps.map (node (retreats pages dir)),
        goingUpwards, hasRecord⟩ (childAt cells right slot) (-1) = some _ :=
      push_child hsub hpage (by rw [length_map]; exact hroom) (-1)
    rw [moveStep]
    simp only [hpage, CursorSeekState.onInterior, moveInner]
    rw [if_pos (by omega), map_cons, node, slotIdx, retreats]
    rcases Nat.lt_or_eq_of_le hsearched.slot_le with hlt | rfl
    · have hcell := getElem?_eq_getElem hlt
      have hchild : childAt cells right slot = cells[slot].1 := by rw [childAt, hcell]
      rw [hchild] at hpush ⊢
      simp only [if_pos hlt, hcell, Option.bind_eq_bind, Option.bind_some, setCellIndex, retreat,
        modifyHead_cons, Bool.and_eq_true, decide_eq_true_eq]
      split
      all_goals
        rw [retreats] at hpush
        rw [hpush]
        rfl
    · have hchild : childAt cells right cells.length = right := by
        rw [childAt, getElem?_eq_none_iff.2 (Nat.le_refl _)]
      rw [hchild] at hpush ⊢
      simp only [if_neg (Nat.lt_irrefl _), Option.bind_eq_bind, setCellIndex, modifyHead_cons]
      rw [retreats] at hpush
      rw [hpush]
      rfl

end

variable (pages : Pages κ) (cmp : κ → Ordering) (op : SeekOp)

structure Guided (left eq : κ → Bool) (Good : Nat → Nat → Prop) : Prop where
  child : ∀ {depth page cells right}, Good (depth + 1) page →
    pages.page page = .interior cells right → ∀ slot, Good depth (childAt cells right slot)
  low : ∀ {depth page cells right slot eqSeen eqSeen'}, Good (depth + 1) page →
    pages.page page = .interior cells right → Searched left eq cells slot eqSeen eqSeen' →
      ∀ e ∈ leftOf pages depth cells slot, op.low (cmp e) = true
  high : ∀ {depth page cells right slot eqSeen eqSeen'}, Good (depth + 1) page →
    pages.page page = .interior cells right → Searched left eq cells slot eqSeen eqSeen' →
      ∀ e ∈ rightOf pages depth cells right slot, op.low (cmp e) = false
  seen : ∀ {depth page cells right slot eqSeen eqSeen'}, Good (depth + 1) page →
    pages.page page = .interior cells right → Searched left eq cells slot eqSeen eqSeen' →
      op.eqOnly = true → (eqSeen' = true ↔ eqSeen = true ∨
        ∃ e ∈ leftOf pages depth cells slot ++ rightOf pages depth cells right slot, cmp e = .eq)

structure Placed (depth : Nat) (steps : List (Step κ)) (eqSeen : Bool) : Prop where
  low : ∀ e ∈ before pages depth steps, op.low (cmp e) = true
  high : ∀ e ∈ after pages depth steps, op.low (cmp e) = false
  seen : op.eqOnly = true →
    (eqSeen = true ↔ ∃ e ∈ before pages depth steps ++ after pages depth steps, cmp e = .eq)

variable {pages cmp op} {Good : Nat → Nat → Prop} {root : Nat} {steps : List (Step κ)}
  {eqSeen : Bool}

theorem Placed.step (hguided : Guided pages cmp op left eq Good)
    (hplaced : Placed pages cmp op (depth + 1) steps eqSeen) (hgood : Good (depth + 1) page)
    {cells : List (Nat × κ)} {right slot : Nat} {eqSeen' : Bool}
    (hpage : pages.page page = .interior cells right)
    (hsearched : Searched left eq cells slot eqSeen eqSeen') :
    Placed pages cmp op depth (⟨page, cells, right, slot⟩ :: steps) eqSeen' where
  low := by
    intro e he
    rcases mem_append.1 he with he | he
    · exact hplaced.low e he
    · exact hguided.low hgood hpage hsearched e he
  high := by
    intro e he
    rcases mem_append.1 he with he | he
    · exact hguided.high hgood hpage hsearched e he
    · exact hplaced.high e he
  seen := by
    intro heq
    rw [hguided.seen hgood hpage hsearched heq, hplaced.seen heq]
    simp only [before, after, before, after, mem_append]
    constructor
    · rintro (⟨e, he | he, hcmp⟩ | ⟨e, he | he, hcmp⟩)
      · exact ⟨e, .inl (.inl he), hcmp⟩
      · exact ⟨e, .inr (.inr he), hcmp⟩
      · exact ⟨e, .inl (.inr he), hcmp⟩
      · exact ⟨e, .inr (.inl he), hcmp⟩
    · rintro ⟨e, (he | he) | he | he, hcmp⟩
      · exact .inl ⟨e, .inl he, hcmp⟩
      · exact .inr ⟨e, .inl he, hcmp⟩
      · exact .inr ⟨e, .inr he, hcmp⟩
      · exact .inl ⟨e, .inr he, hcmp⟩

theorem move_ends {probe : κ → Option (Bool × Bool)} (dir : IterationDirection)
    (goingUpwards hasRecord : Bool) (hguided : Guided pages cmp op left eq Good)
    (hprobe : ∀ {depth page cells right}, Good (depth + 1) page →
      pages.page page = .interior cells right →
        ∀ cell ∈ cells, probe cell.2 = some (left cell.2, eq cell.2)) (hgood : Good depth page)
    (hsub : Subtree pages depth page) (hleads : Leads pages root depth steps page)
    (hroom : depth + steps.length < btcursorMaxDepth)
    (hplaced : Placed pages cmp op depth steps eqSeen)
    (hstate : state = .movingBetweenPages eqSeen ∨ state = .start ∧ eqSeen = false) :
    ∃ leaf cells steps' eqSeen', pages.page leaf = .leaf cells ∧ cells.length < 2 ^ 16 ∧
      cells ≠ [] ∧ Leads pages root 0 steps' leaf ∧ steps'.length = depth + steps.length ∧
      Placed pages cmp op 0 steps' eqSeen' ∧ (eqSeen' = true → eqSeen = true ∨ ∃ x, eq x = true) ∧
      Ends (moveStep pages probe dir)
        (⟨⟨page, -1, none⟩ :: steps.map (node (retreats pages dir)), goingUpwards, hasRecord⟩,
          state)
        (⟨⟨leaf, -1, none⟩ :: steps'.map (node (retreats pages dir)), goingUpwards, hasRecord⟩,
          eqSeen') := by
  induction depth generalizing page steps eqSeen state with
  | zero =>
    obtain ⟨cells, hpage, hsmall, hne⟩ := hsub
    refine ⟨page, cells, steps, eqSeen, hpage, hsmall, hne, hleads, (Nat.zero_add _).symm, hplaced,
      .inl, .stop ?_⟩
    rw [moveStep]
    simp only [hpage]
    rcases hstate with rfl | ⟨rfl, rfl⟩ <;> rfl
  | succ depth ih =>
    obtain ⟨cells, right, hpage, -⟩ := id hsub
    have honInterior : state.onInterior cells.length =
        ⟨0, (cells.length : Int) - 1, none, eqSeen⟩ := by
      rcases hstate with rfl | ⟨rfl, rfl⟩ <;> rfl
    obtain ⟨slot, eqSeen', hsearched, hends⟩ := move_level dir goingUpwards hasRecord
      steps hsub hpage (by omega) (hprobe hgood hpage) (-1) honInterior
    obtain ⟨leaf, leafCells, steps', eqSeen'', hleaf, hsmall, hne, hleads', hlen, hplaced', hseen,
      hrest⟩ :=
      ih (hguided.child hgood hpage slot) (hsub.child hpage slot)
        (hleads.cons hsub hpage hsearched.slot_le) (by rw [length_cons]; omega)
        (hplaced.step hguided hgood hpage hsearched) (.inl rfl)
    refine ⟨leaf, leafCells, steps', eqSeen'', hleaf, hsmall, hne, hleads', ?_, hplaced', ?_,
      hends _ hrest⟩
    · rw [hlen, length_cons]
      omega
    · intro h
      rcases hseen h with h | h
      · rcases hsearched.seen h with h | ⟨cell, -, h⟩
        · exact .inl h
        · exact .inr ⟨cell.2, h⟩
      · exact .inr h

end PgMicro.BTree
