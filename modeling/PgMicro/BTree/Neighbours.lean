import PgMicro.BTree.SearchTree

/-!
# The next and the previous entry

A cursor behind the cells of a leaf, with cell indices below that say which child was taken, goes to
the first entry after the leaf; one in front of the cells goes to the last entry before it. Each
level on the way up is exhausted, or has a divider to visit or a next child to go down to.
-/

namespace PgMicro.BTree

open Loop BTreeCursor Option List Nat Step Contents

variable {κ : Type} (pages : Pages κ) {step : Step κ} {leaf : List κ}

/-- The cell index with which a cursor remembers the child it went down to: that of the cell, or of
the cell before it, and for the rightmost child one that is past all cells. -/
def slotIdx (retreats : Bool) (cellCount slot : Nat) : Int :=
  if slot < cellCount then if retreats then (slot : Int) - 1 else slot else cellCount + 1

def Step.node (retreats : Bool) (step : Step κ) : NodeState :=
  ⟨step.page, slotIdx retreats step.cells.length step.slot, some step.cells.length⟩

def Rooted (root : Nat) : List NodeState → Prop
  | [] => False
  | [node] => node.page = root
  | node :: parent :: below =>
    (∃ cells right slot, pages.page parent.page = .interior cells right ∧
      node.page = childAt cells right slot) ∧ Rooted root (parent :: below)

structure StandsOn (root : Nat) (cur : BTreeCursor) (e : κ) : Prop where
  rooted : Rooted pages root cur.stack
  record : cur.record pages = some e

variable {pages} {root depth page right slot : Nat} {cells : List (Nat × κ)} {steps : List (Step κ)}
  {idx : Int} {count : Option Nat} {below : List NodeState} {goingUpwards hasRecord : Bool}

theorem Leads.rooted {retreats : Bool} (h : Leads pages root depth steps page) :
    Rooted pages root (⟨page, idx, count⟩ :: steps.map (node retreats)) := by
  induction steps generalizing depth page idx count with
  | nil => exact h
  | cons step steps ih =>
    obtain ⟨hpage, -, hchild, -, hleads⟩ := h
    exact ⟨⟨step.cells, step.right, step.slot, hpage, hchild.symm⟩, ih hleads⟩

theorem asUsize_natCast {n : Nat} (h : n < 2 ^ 64) : asUsize n = n := by
  rw [asUsize, Int.emod_eq_of_lt (by omega) (by exact_mod_cast h), Int.toNat_natCast]

theorem push_child (hsub : Subtree pages (depth + 1) page)
    (hpage : pages.page page = .interior cells right) (hroom : below.length + 1 < btcursorMaxDepth)
    (start : Int) :
    push pages ⟨⟨page, idx, count⟩ :: below, goingUpwards, hasRecord⟩ (childAt cells right slot)
        start =
      some ⟨⟨childAt cells right slot, start, none⟩ :: ⟨page, idx, some cells.length⟩ :: below,
        goingUpwards, hasRecord⟩ := by
  rw [push]
  simp only [length_cons]
  rw [if_neg (hsub.child_ne hpage slot), if_neg (by omega), hpage]
  rfl

theorem leftOf_zero : leftOf pages depth cells 0 = [] := rfl

theorem rightOf_length : rightOf pages depth cells right cells.length = [] := by
  rw [rightOf, getElem?_eq_none_iff.2 (le_refl _)]

theorem rightOf_eq (hslot : slot < cells.length) :
    rightOf pages depth cells right slot =
      divider pages (cells.get ⟨slot, hslot⟩).2 ++
        (entries pages depth (childAt cells right (slot + 1)) ++
          rightOf pages depth cells right (slot + 1)) := by
  rw [rightOf, getElem?_eq_getElem hslot, rightOf, childAt]
  cases hnext : cells[slot + 1]? with
  | none =>
    rw [drop_eq_nil_of_le (getElem?_eq_none_iff.1 hnext)]
    simp
  | some cell =>
    obtain ⟨hlt, heq⟩ := List.getElem?_eq_some_iff.1 hnext
    rw [drop_eq_getElem_cons hlt, heq]
    simp

theorem leftOf_succ (right : Nat) (hslot : slot < cells.length) :
    leftOf pages depth cells (slot + 1) =
      leftOf pages depth cells slot ++ (entries pages depth (childAt cells right slot) ++
        divider pages (cells.get ⟨slot, hslot⟩).2) := by
  rw [leftOf, leftOf, childAt, take_succ_eq_append_getElem hslot, flatMap_append,
    getElem?_eq_getElem hslot]
  simp

section

variable (count hasRecord)

theorem nextStep_descends (hsub : Subtree pages (depth + 1) page)
    (hpage : pages.page page = .interior cells right) (hslot : slot ≤ cells.length)
    (hidx : idx + 1 = slot) (hdown : pages.isIndex = false ∨ goingUpwards = false)
    (hroom : below.length + 1 < btcursorMaxDepth) :
    nextStep pages ⟨⟨page, idx, count⟩ :: below, goingUpwards, hasRecord⟩ =
      some (.goOn ⟨⟨childAt cells right slot, -1, none⟩ ::
        ⟨page, slotIdx false cells.length slot, some cells.length⟩ :: below, false,
          hasRecord⟩) := by
  have hsmall := hsub.small hpage
  have hvisit : ¬ (pages.isIndex = true ∧ goingUpwards = true) := by
    rintro ⟨hindex, hup⟩
    rw [hindex, hup] at hdown
    simp at hdown
  have husize : asUsize (idx + 1) = slot := by rw [hidx, asUsize_natCast (by omega)]
  rw [nextStep]
  simp only [hpage, isLeaf, cellCount, husize]
  rw [if_neg (by simp), if_neg (fun h => hvisit ⟨h.1, h.2.1⟩)]
  rcases lt_or_eq_of_le hslot with hlt | heq
  · have hchild : childAt cells right slot = cells[slot].1 := by
      rw [childAt, getElem?_eq_getElem hlt]
    rw [if_neg (by omega), if_neg (by simp), if_neg hvisit]
    simp only [leftChildPage, getElem?_eq_getElem hlt, map_some,
      bind_eq_bind, bind_some, descend, advance, modifyHead_cons, hidx]
    rw [← hchild, push_child hsub hpage hroom, slotIdx, if_pos hlt]
    rfl
  · subst heq
    have hchild : childAt cells right cells.length = right := by
      rw [childAt, getElem?_eq_none_iff.2 (le_refl _)]
    rw [if_pos (le_refl _)]
    simp only [rightmostPointer, lt_irrefl, decide_false, descend, advance, modifyHead_cons, hidx]
    have hpush : push pages ⟨⟨page, (cells.length : Int) + 1, count⟩ :: below, false, hasRecord⟩
        (childAt cells right cells.length) (-1) = some _ := push_child hsub hpage hroom (-1)
    rw [hchild] at hpush ⊢
    rw [hpush, slotIdx, if_neg (lt_irrefl _)]
    rfl

theorem next_first (hsub : Subtree pages depth page) (hleads : Leads pages root depth steps page)
    (hroom : depth + steps.length < btcursorMaxDepth) :
    ∃ cur e, Ends (nextStep pages)
        ⟨⟨page, -1, none⟩ :: steps.map (node false), false, hasRecord⟩ (cur, true) ∧
      StandsOn pages root cur e ∧ (entries pages depth page).head? = some e := by
  induction depth generalizing page steps with
  | zero =>
    obtain ⟨cells, hpage, -, hne⟩ := hsub
    obtain ⟨e, rest, rfl⟩ := exists_cons_of_ne_nil hne
    refine ⟨⟨⟨page, 0, none⟩ :: steps.map (node false), false, hasRecord⟩, e, .stop ?_,
      ⟨hleads.rooted, ?_⟩, ?_⟩
    · rw [nextStep]
      simp only [hpage, cellCount]
      rw [if_neg (by simp), if_neg (by simp), if_neg (by simp [asUsize])]
      rfl
    · simp [record, hpage]
    · rw [entries, hpage]
      rfl
  | succ depth ih =>
    obtain ⟨cells, right, hpage, -⟩ := id hsub
    have hstep := nextStep_descends none hasRecord hsub hpage (zero_le cells.length)
      (show (-1 : Int) + 1 = (0 : Nat) from rfl) (.inr rfl)
      (show (steps.map (node false)).length + 1 < btcursorMaxDepth by
        rw [length_map]
        omega)
    obtain ⟨cur, e, hends, hon, hhead⟩ := ih (hsub.child hpage 0)
      (hleads.cons hsub hpage (zero_le _)) (by rw [length_cons]; omega)
    refine ⟨cur, e, .goOn hstep hends, hon, ?_⟩
    rw [entries_split hpage 0, leftOf_zero, nil_append, head?_append, hhead]
    rfl

theorem isAtEnd_node :
    (step.node false).isAtEnd = some (decide (step.cells.length ≤ step.slot)) := by
  have hiff : slotIdx false step.cells.length step.slot = (step.cells.length : Int) + 1 ↔
      step.cells.length ≤ step.slot := by
    rw [slotIdx]
    split <;> simp <;> omega
  simp [NodeState.isAtEnd, node, hiff]

theorem Step.after_eq_nil_iff (hsub : Subtree pages (depth + 1) step.page)
    (hpage : pages.page step.page = .interior step.cells step.right) :
    step.after pages depth = [] ↔ step.cells.length ≤ step.slot := by
  constructor
  · intro hnil
    by_contra hlt
    rw [after, rightOf_eq (Nat.lt_of_not_le hlt), append_eq_nil_iff,
      append_eq_nil_iff] at hnil
    exact (hsub.child hpage (step.slot + 1)).entries_ne_nil hnil.2.1
  · intro hle
    rw [after, rightOf, getElem?_eq_none_iff.2 hle]

section

variable (hleads : Leads pages root depth steps page)

include hleads

theorem moreChildren_eq :
    ancestorPagesHaveMoreChildren (steps.map (node false)) =
      some (decide (after pages depth steps ≠ [])) := by
  induction steps generalizing depth page with
  | nil => rfl
  | cons step steps ih =>
    obtain ⟨hpage, -, -, hsub, hleads⟩ := hleads
    rw [map_cons, ancestorPagesHaveMoreChildren, isAtEnd_node, ih hleads, after]
    by_cases hend : step.cells.length ≤ step.slot
    · simp [hend, (after_eq_nil_iff hsub hpage).2 hend]
    · simp [hend, (after_eq_nil_iff hsub hpage).not.2 hend]

theorem nextUpwards_more {top : NodeState} (hafter : after pages depth steps ≠ []) :
    nextUpwards ⟨top :: steps.map (node false), goingUpwards, hasRecord⟩
        (steps.map (node false)) =
      some (.goOn ⟨steps.map (node false), true, hasRecord⟩) := by
  rw [nextUpwards, moreChildren_eq hleads, decide_eq_true hafter]
  cases steps with
  | nil => exact absurd rfl hafter
  | cons step steps => rfl

theorem next_upwards (hroom : depth + steps.length < btcursorMaxDepth)
    (hafter : after pages depth steps ≠ []) :
    ∃ cur e, Ends (nextStep pages) ⟨steps.map (node false), true, hasRecord⟩ (cur, true) ∧
      StandsOn pages root cur e ∧ (after pages depth steps).head? = some e := by
  induction steps generalizing depth page with
  | nil => exact absurd rfl hafter
  | cons step steps ih =>
    obtain ⟨hpage, hslot, -, hsub, hup⟩ := hleads
    rw [length_cons] at hroom
    rw [map_cons]
    rcases lt_or_eq_of_le hslot with hlt | heq
    · have hidx : slotIdx false step.cells.length step.slot = step.slot := if_pos hlt
      by_cases hindex : pages.isIndex = true
      · -- the divider of the child
        refine ⟨⟨step.node false :: steps.map (node false), false, hasRecord⟩,
          (step.cells.get ⟨step.slot, hlt⟩).2, .stop ?_, ⟨hup.rooted, ?_⟩, ?_⟩
        · rw [nextStep]
          simp only [node, hpage, isLeaf, cellCount]
          rw [if_neg (by simp), if_pos ⟨hindex, trivial, by omega, by omega⟩]
        · simp [record, node, hidx, hpage, hindex, hlt]
        · rw [after, Step.after, rightOf_eq hlt, divider, if_pos hindex]
          rfl
      · -- the next child
        rw [Bool.not_eq_true] at hindex
        have hstep := nextStep_descends (some step.cells.length) hasRecord hsub hpage
          (succ_le_of_lt hlt)
          (show slotIdx false step.cells.length step.slot + 1 = (step.slot + 1 : Nat) by
            rw [hidx]
            rfl)
          (show pages.isIndex = false ∨ true = false from .inl hindex)
          (show (steps.map (node false)).length + 1 < btcursorMaxDepth by
            rw [length_map]
            omega)
        obtain ⟨cur, e, hends, hon, hhead⟩ := next_first hasRecord
          (hsub.child hpage (step.slot + 1)) (hup.cons hsub hpage (succ_le_of_lt hlt))
          (by rw [length_cons]; omega)
        refine ⟨cur, e, .goOn hstep hends, hon, ?_⟩
        rw [after, Step.after, rightOf_eq hlt, divider, if_neg (by simp [hindex]), nil_append,
          append_assoc, head?_append, hhead]
        rfl
    · -- the rightmost child was the last of this level
      have hnil : step.after pages depth = [] := (after_eq_nil_iff hsub hpage).2 heq.ge
      rw [after, hnil, nil_append] at hafter ⊢
      obtain ⟨cur, e, hends, hon, hhead⟩ := ih hup (by omega) hafter
      refine ⟨cur, e, .goOn ?_ hends, hon, hhead⟩
      have hsmall := hsub.small hpage
      have hidx : slotIdx false step.cells.length step.slot = (step.cells.length : Int) + 1 :=
        if_neg (by omega)
      have husize : asUsize ((step.cells.length : Int) + 1 + 1) = step.cells.length + 2 := by
        exact_mod_cast asUsize_natCast (show step.cells.length + 2 < 2 ^ 64 by omega)
      rw [nextStep]
      simp only [node, hpage, isLeaf, cellCount, hidx]
      rw [if_neg (by simp), if_neg (by omega), if_pos (by omega), decide_eq_true (by omega)]
      exact nextUpwards_more hasRecord hup hafter

end

theorem next_after_leaf (hpage : pages.page page = .leaf leaf) (hsmall : leaf.length < 2 ^ 16)
    (hleads : Leads pages root 0 steps page) (hroom : steps.length < btcursorMaxDepth) :
    ∃ cur hasNext, Ends (nextStep pages)
        ⟨⟨page, leaf.length, none⟩ :: steps.map (node false), false, hasRecord⟩
        (cur, hasNext) ∧
      ((after pages 0 steps = [] ∧ hasNext = false) ∨
        ∃ e, hasNext = true ∧ StandsOn pages root cur e ∧
          (after pages 0 steps).head? = some e) := by
  have husize : asUsize (leaf.length : Int) = leaf.length := asUsize_natCast (by omega)
  have husize' : asUsize ((leaf.length : Int) + 1) = leaf.length + 1 := by
    exact_mod_cast asUsize_natCast (show leaf.length + 1 < 2 ^ 64 by omega)
  have hround : nextStep pages
      ⟨⟨page, leaf.length, none⟩ :: steps.map (node false), false, hasRecord⟩ =
        nextUpwards ⟨⟨page, leaf.length + 1, none⟩ :: steps.map (node false), false, hasRecord⟩
          (steps.map (node false)) := by
    rw [nextStep]
    simp only [hpage, cellCount]
    rw [if_neg (by omega), if_neg (by simp), if_pos (by omega)]
    rfl
  by_cases hafter : after pages 0 steps = []
  · refine ⟨⟨⟨page, leaf.length + 1, none⟩ :: steps.map (node false), false, hasRecord⟩, false,
      .stop ?_, .inl ⟨hafter, rfl⟩⟩
    rw [hround, nextUpwards, moreChildren_eq hleads, decide_eq_false (by simpa using hafter)]
    rfl
  · obtain ⟨cur, e, hends, hon, hhead⟩ := next_upwards hasRecord hleads (by omega) hafter
    exact ⟨cur, true, .goOn (hround.trans (nextUpwards_more hasRecord hleads hafter)) hends,
      .inr ⟨e, rfl, hon, hhead⟩⟩

end

section

variable (hasRecord)

theorem slotIdx_length (retreats : Bool) (n : Nat) : slotIdx retreats n n = (n : Int) + 1 :=
  if_neg (lt_irrefl n)

theorem prev_last (hsub : Subtree pages depth page) (hleads : Leads pages root depth steps page)
    (hroom : depth + steps.length < btcursorMaxDepth) :
    ∃ cur e, Ends (prevStep pages)
        ⟨⟨page, i32Max, none⟩ :: steps.map (node pages.isIndex), false, hasRecord⟩ (cur, true) ∧
      StandsOn pages root cur e ∧ (entries pages depth page).getLast? = some e := by
  induction depth generalizing page steps with
  | zero =>
    obtain ⟨cells, hpage, hsmall, hne⟩ := hsub
    have hpos := length_pos_iff.2 hne
    have hmax : (cells.length : Int) ≤ i32Max := by
      rw [i32Max]
      omega
    have hnat : ((cells.length : Int) - 1).toNat = cells.length - 1 := by omega
    refine ⟨⟨⟨page, cells.length - 1, none⟩ :: steps.map (node pages.isIndex), false, hasRecord⟩,
      cells.getLast hne, .stop ?_, ⟨hleads.rooted, ?_⟩, ?_⟩
    · rw [prevStep]
      simp only [hpage, cellCount, rightmostPointer, if_pos hmax, prevVisit,
        setCellIndex, modifyHead_cons, isLeaf]
      rw [if_neg (by omega), if_pos trivial]
    · simp only [record, hpage, hnat]
      rw [if_neg (by omega), getLast_eq_getElem, getElem?_eq_getElem]
    · rw [entries, hpage]
      exact getLast?_eq_some_getLast hne
  | succ depth ih =>
    obtain ⟨cells, right, hpage, -⟩ := id hsub
    have hchild : childAt cells right cells.length = right := by
      rw [childAt, getElem?_eq_none_iff.2 (le_refl _)]
    obtain ⟨cur, e, hends, hon, hlast⟩ := ih (hsub.child hpage cells.length)
      (hleads.cons hsub hpage (le_refl _)) (by rw [length_cons]; omega)
    refine ⟨cur, e, .goOn ?_ hends, hon, ?_⟩
    · have hpush : push pages ⟨⟨page, (cells.length : Int) + 1, none⟩ ::
            steps.map (node pages.isIndex), false, hasRecord⟩
          (childAt cells right cells.length) i32Max = some _ :=
        push_child hsub hpage (by rw [length_map]; omega) i32Max
      rw [prevStep]
      simp only [hpage, cellCount, rightmostPointer, and_self, decide_true,
        descendBackwards, setCellIndex, modifyHead_cons]
      rw [hchild] at hpush ⊢
      rw [hpush, map_cons, node, slotIdx_length]
      rfl
    · rw [entries_split hpage cells.length, rightOf_length, append_nil, getLast?_append,
        hlast]
      rfl

theorem prevStep_node (hpage : pages.page step.page = .interior step.cells step.right)
    (hslot : step.slot ≤ step.cells.length)
    (hidx : 0 ≤ slotIdx pages.isIndex step.cells.length step.slot) :
    prevStep pages ⟨step.node pages.isIndex :: below, true, hasRecord⟩ =
      if pages.isIndex = true ∧ 0 < step.slot then
        some (.stop (⟨⟨step.page, (step.slot : Int) - 1, some step.cells.length⟩ :: below, false,
          hasRecord⟩, true))
      else prevVisit pages
        ⟨⟨step.page, (step.slot : Int) - 1, some step.cells.length⟩ :: below, true, hasRecord⟩ := by
  rw [prevStep]
  simp only [node, hpage, cellCount, rightmostPointer, Bool.true_eq_false, and_false, decide_false,
    and_true, isLeaf, Bool.false_eq_true]
  rcases lt_or_eq_of_le hslot with hlt | heq
  · cases hindex : pages.isIndex with
    | true =>
      have hval : slotIdx true step.cells.length step.slot = (step.slot : Int) - 1 := if_pos hlt
      rw [hindex] at hidx
      rw [hval] at hidx ⊢
      rw [if_neg (by omega), if_pos hidx, if_pos rfl, if_pos ⟨rfl, by omega⟩]
    | false =>
      have hval : slotIdx false step.cells.length step.slot = step.slot := if_pos hlt
      rw [hval, if_neg (by omega), if_pos (by omega), if_neg (by simp), if_pos (by simp),
        if_neg (by simp)]
      rfl
  · rw [heq, slotIdx_length, if_pos (by omega)]
    split
    · -- the last divider of an index, which is visited like any other
      rename_i hvisit
      rw [prevVisit]
      simp only [setCellIndex, modifyHead_cons, hpage, isLeaf, hvisit.1]
      rw [if_neg (by omega), if_neg (by simp), if_pos ⟨trivial, trivial⟩]
    · rfl

theorem prev_on_level (hsub : Subtree pages (depth + 1) step.page)
    (hpage : pages.page step.page = .interior step.cells step.right)
    (hleads : Leads pages root (depth + 1) steps step.page)
    (hroom : depth + 1 + steps.length < btcursorMaxDepth) (hslot : step.slot ≤ step.cells.length)
    (hpos : 0 < step.slot) :
    ∃ cur e, Follows (prevStep pages)
        (if pages.isIndex = true ∧ 0 < step.slot then
          some (.stop (⟨⟨step.page, (step.slot : Int) - 1, some step.cells.length⟩ ::
            steps.map (node pages.isIndex), false, hasRecord⟩, true))
        else prevVisit pages ⟨⟨step.page, (step.slot : Int) - 1, some step.cells.length⟩ ::
          steps.map (node pages.isIndex), true, hasRecord⟩) (cur, true) ∧
      StandsOn pages root cur e ∧ (step.before pages depth).getLast? = some e := by
  obtain ⟨slot, hsucc⟩ := Nat.exists_eq_add_of_lt hpos
  rw [zero_add] at hsucc
  have hlt : slot < step.cells.length := by omega
  have htop : (step.slot : Int) - 1 = slot := by omega
  rw [Step.before, htop, hsucc, leftOf_succ step.right hlt]
  cases hindex : pages.isIndex with
  | true =>
    refine ⟨_, (step.cells.get ⟨slot, hlt⟩).2, .inl (if_pos ⟨rfl, succ_pos slot⟩),
      ⟨hleads.rooted, ?_⟩, ?_⟩
    · simp [record, hpage, hindex, hlt]
    · simp [divider, hindex]
  | false =>
    have hchild : childAt step.cells step.right slot = step.cells[slot].1 := by
      rw [childAt, getElem?_eq_getElem hlt]
    have hval : slotIdx false step.cells.length slot = slot := if_pos hlt
    obtain ⟨cur, e, hends, hon, hlast⟩ := prev_last hasRecord (hsub.child hpage slot)
      (hleads.cons hsub hpage hlt.le) (by rw [length_cons]; omega)
    refine ⟨cur, e, .inr ⟨_, ?_, hends⟩, hon, ?_⟩
    · rw [if_neg (by simp), prevVisit]
      simp only [hpage, hindex, leftChildPage, Int.toNat_natCast, getElem?_eq_getElem hlt,
        map_some, bind_eq_bind, bind_some, Bool.false_eq_true, if_false, descendBackwards]
      rw [if_neg (by omega), ← hchild, push_child hsub hpage (by rw [length_map]; omega),
        map_cons, node, hval]
      rfl
    · simp [divider, hindex, hlast]

theorem prev_upwards (count : Option Nat) (goingUpwards : Bool)
    (hleads : Leads pages root depth steps page) (hroom : depth + steps.length < btcursorMaxDepth)
    (hidx : idx < 0) :
    ∃ cur hasPrev, Follows (prevStep pages)
        (prevVisit pages ⟨⟨page, idx, count⟩ :: steps.map (node pages.isIndex), goingUpwards,
          hasRecord⟩) (cur, hasPrev) ∧
      ((before pages depth steps = [] ∧ hasPrev = false) ∨
        ∃ e, hasPrev = true ∧ StandsOn pages root cur e ∧
          (before pages depth steps).getLast? = some e) := by
  induction steps generalizing depth page idx count goingUpwards with
  | nil =>
    refine ⟨⟨[⟨page, idx, count⟩], goingUpwards, hasRecord⟩, false, .inl ?_, .inl ⟨rfl, rfl⟩⟩
    rw [prevVisit]
    simp [if_pos hidx, climb, if_neg (Int.not_le.2 hidx)]
  | cons step steps ih =>
    obtain ⟨hpage, hslot, -, hsub, hup⟩ := hleads
    rw [length_cons] at hroom
    have hclimb : climb goingUpwards hasRecord
        (⟨page, idx, count⟩ :: (step :: steps).map (node pages.isIndex)) =
          climb true hasRecord ((step :: steps).map (node pages.isIndex)) := by
      conv_lhs => rw [climb.eq_def]
      simp [if_neg (Int.not_le.2 hidx)]
    have hnothing (hzero : step.slot = 0) :
        before pages depth (step :: steps) = before pages (depth + 1) steps := by
      rw [before, Step.before, hzero, leftOf_zero, append_nil]
    by_cases hpassed : slotIdx pages.isIndex step.cells.length step.slot < 0
    · -- the child was the first one of an index page, and the climb goes on
      have hzero : step.slot = 0 := by
        rw [slotIdx] at hpassed
        split at hpassed
        · split at hpassed <;> omega
        · omega
      obtain ⟨cur, hasPrev, hfollows, hresult⟩ :=
        ih (some step.cells.length) true hup (by omega) hpassed
      refine ⟨cur, hasPrev, ?_, hnothing hzero ▸ hresult⟩
      rw [prevVisit] at hfollows ⊢
      simp only [if_pos hidx, if_pos hpassed, hclimb] at hfollows ⊢
      exact hfollows
    · have hstop : prevVisit pages ⟨⟨page, idx, count⟩ ::
          (step :: steps).map (node pages.isIndex), goingUpwards, hasRecord⟩ =
            some (.goOn ⟨(step :: steps).map (node pages.isIndex), true, hasRecord⟩) := by
        rw [prevVisit]
        simp only [if_pos hidx, hclimb]
        have hnode : 0 ≤ (step.node pages.isIndex).cellIdx := Int.not_lt.1 hpassed
        rw [map_cons, climb.eq_def]
        simp [if_pos hnode]
      have hround : prevStep pages ⟨(step :: steps).map (node pages.isIndex), true, hasRecord⟩ =
          _ := prevStep_node hasRecord hpage hslot (Int.not_lt.1 hpassed)
      rw [hstop]
      rcases Nat.eq_zero_or_pos step.slot with hzero | hpos
      · rw [if_neg (by omega)] at hround
        obtain ⟨cur, hasPrev, hfollows, hresult⟩ := ih (some step.cells.length) true hup (by omega)
          (show (step.slot : Int) - 1 < 0 by omega)
        rw [← hround] at hfollows
        exact ⟨cur, hasPrev, .inr ⟨_, rfl, .of_follows hfollows⟩, hnothing hzero ▸ hresult⟩
      · obtain ⟨cur, e, hfollows, hon, hlast⟩ :=
          prev_on_level hasRecord hsub hpage hup (by omega) hslot hpos
        rw [← hround] at hfollows
        refine ⟨cur, true, .inr ⟨_, rfl, .of_follows hfollows⟩, .inr ⟨e, rfl, hon, ?_⟩⟩
        rw [before, getLast?_append, hlast]
        rfl

theorem prev_before_leaf (hpage : pages.page page = .leaf leaf)
    (hleads : Leads pages root 0 steps page) (hroom : steps.length < btcursorMaxDepth) :
    ∃ cur hasPrev, Ends (prevStep pages)
        ⟨⟨page, -1, none⟩ :: steps.map (node pages.isIndex), false, hasRecord⟩
        (cur, hasPrev) ∧
      ((before pages 0 steps = [] ∧ hasPrev = false) ∨
        ∃ e, hasPrev = true ∧ StandsOn pages root cur e ∧
          (before pages 0 steps).getLast? = some e) := by
  obtain ⟨cur, hasPrev, hfollows, hresult⟩ := prev_upwards hasRecord none false hleads (by omega)
    (show (-1 : Int) < 0 by omega)
  refine ⟨cur, hasPrev, .of_follows ?_, hresult⟩
  rw [prevStep]
  simp only [hpage]
  rw [if_neg (by omega), if_neg (by omega)]
  exact hfollows

end

end PgMicro.BTree
