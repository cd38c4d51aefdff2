import PgMicro.BTree.Cursor

/-!
# The entries of a tree in order

The entries below a page are those of its leaves, and on an index also the dividers, from left to
right. A place in the tree is the list of the children taken down to it, from the bottom up; the
entries of the tree are those before the place, those at it and those after it.
-/

namespace PgMicro.BTree

open List

variable {κ : Type} (pages : Pages κ)

def divider (key : κ) : List κ := if pages.isIndex then [key] else []

/-- The entries below a page that stands `depth` levels above the leaves. -/
def entries : Nat → Nat → List κ
  | 0, page =>
    match pages.page page with
    | .leaf cells => cells
    | .interior _ _ => []
  | depth + 1, page =>
    match pages.page page with
    | .leaf _ => []
    | .interior cells right =>
      (cells.flatMap fun cell => entries depth cell.1 ++ divider pages cell.2) ++
        entries depth right

/-- A page `depth` levels above the leaves, with all leaves at one depth and none of them empty.
The cell count of a page is a `u16`. -/
def Subtree : Nat → Nat → Prop
  | 0, page => ∃ cells, pages.page page = .leaf cells ∧ cells.length < 2 ^ 16 ∧ cells ≠ []
  | depth + 1, page => ∃ cells right, pages.page page = .interior cells right ∧
      cells.length < 2 ^ 16 ∧ (∀ cell ∈ cells, Subtree depth cell.1) ∧ Subtree depth right

/-- The pages of a tree whose root is `depth` levels above the leaves. Only a root that is a leaf
can be empty, and a tree deeper than the stack of a cursor is taken for corrupt. -/
structure IsTree (root depth : Nat) : Prop where
  shallow : depth < btcursorMaxDepth
  shape : Subtree pages depth root ∨ depth = 0 ∧ pages.page root = .leaf []

def childAt (cells : List (Nat × κ)) (right slot : Nat) : Nat :=
  match cells[slot]? with
  | some cell => cell.1
  | none => right

/-- The entries of a page in front of its child, which is `depth` levels above the leaves. -/
def leftOf (depth : Nat) (cells : List (Nat × κ)) (slot : Nat) : List κ :=
  (cells.take slot).flatMap fun cell => entries pages depth cell.1 ++ divider pages cell.2

def rightOf (depth : Nat) (cells : List (Nat × κ)) (right slot : Nat) : List κ :=
  match cells[slot]? with
  | some cell =>
    divider pages cell.2 ++
      ((cells.drop (slot + 1)).flatMap fun cell => entries pages depth cell.1 ++
        divider pages cell.2) ++ entries pages depth right
  | none => []

structure Step (κ : Type) where
  page : Nat
  cells : List (Nat × κ)
  right : Nat
  slot : Nat

namespace Step

def child (step : Step κ) : Nat := childAt step.cells step.right step.slot

def before (depth : Nat) (step : Step κ) : List κ := leftOf pages depth step.cells step.slot

def after (depth : Nat) (step : Step κ) : List κ :=
  rightOf pages depth step.cells step.right step.slot

end Step

/-- The steps lead from the root to a page `depth` levels above the leaves. -/
def Leads (root : Nat) : Nat → List (Step κ) → Nat → Prop
  | _, [], page => page = root
  | depth, step :: steps, page =>
    pages.page step.page = .interior step.cells step.right ∧ step.slot ≤ step.cells.length ∧
      step.child = page ∧ Subtree pages (depth + 1) step.page ∧
        Leads root (depth + 1) steps step.page

def before : Nat → List (Step κ) → List κ
  | _, [] => []
  | depth, step :: steps => before (depth + 1) steps ++ step.before pages depth

def after : Nat → List (Step κ) → List κ
  | _, [] => []
  | depth, step :: steps => step.after pages depth ++ after (depth + 1) steps

variable {pages} {root depth page right : Nat} {cells : List (Nat × κ)} {steps : List (Step κ)}

@[simp]
theorem mem_divider {key e : κ} : e ∈ divider pages key ↔ pages.isIndex = true ∧ e = key := by
  rw [divider]
  split <;> simp_all

theorem entries_interior (hpage : pages.page page = .interior cells right) :
    entries pages (depth + 1) page =
      (cells.flatMap fun cell => entries pages depth cell.1 ++ divider pages cell.2) ++
        entries pages depth right := by
  rw [entries, hpage]

theorem entries_split (hpage : pages.page page = .interior cells right) (slot : Nat) :
    entries pages (depth + 1) page =
      leftOf pages depth cells slot ++ entries pages depth (childAt cells right slot) ++
        rightOf pages depth cells right slot := by
  rw [entries_interior hpage, leftOf, rightOf, childAt]
  cases hcell : cells[slot]? with
  | none =>
    have hlen := getElem?_eq_none_iff.1 hcell
    rw [take_of_length_le hlen, append_nil]
  | some cell =>
    obtain ⟨hlt, heq⟩ := List.getElem?_eq_some_iff.1 hcell
    conv_lhs => rw [← take_append_drop slot cells, drop_eq_getElem_cons hlt, heq]
    simp [flatMap_append, flatMap_cons, append_assoc]

theorem Subtree.entries_ne_nil (h : Subtree pages depth page) : entries pages depth page ≠ [] := by
  induction depth generalizing page with
  | zero =>
    obtain ⟨cells, hpage, -, hne⟩ := h
    rw [entries, hpage]
    exact hne
  | succ depth ih =>
    obtain ⟨cells, right, hpage, -, -, hright⟩ := h
    rw [entries_interior hpage]
    exact append_ne_nil_of_right_ne_nil _ (ih hright)

theorem Subtree.child (h : Subtree pages (depth + 1) page)
    (hpage : pages.page page = .interior cells right) (slot : Nat) :
    Subtree pages depth (childAt cells right slot) := by
  obtain ⟨cells', right', hpage', -, hcells, hright⟩ := h
  rw [hpage] at hpage'
  cases hpage'
  rw [childAt]
  split
  next cell hcell =>
    exact hcells cell (mem_of_getElem? hcell)
  · exact hright

theorem Subtree.small (h : Subtree pages (depth + 1) page)
    (hpage : pages.page page = .interior cells right) : cells.length < 2 ^ 16 := by
  obtain ⟨cells', right', hpage', hsmall, -⟩ := h
  rw [hpage] at hpage'
  cases hpage'
  exact hsmall

theorem Subtree.depth_unique {depth' : Nat} (h : Subtree pages depth page)
    (h' : Subtree pages depth' page) : depth = depth' := by
  induction depth generalizing depth' page with
  | zero =>
    obtain ⟨cells, hpage, -⟩ := h
    cases depth' with
    | zero => rfl
    | succ depth' =>
      obtain ⟨cells', right, hpage', -⟩ := h'
      rw [hpage] at hpage'
      cases hpage'
  | succ depth ih =>
    obtain ⟨cells, right, hpage, -, -, hright⟩ := h
    cases depth' with
    | zero =>
      obtain ⟨cells', hpage', -⟩ := h'
      rw [hpage] at hpage'
      cases hpage'
    | succ depth' =>
      obtain ⟨cells', right', hpage', -, -, hright'⟩ := h'
      rw [hpage] at hpage'
      cases hpage'
      rw [ih hright hright']

theorem Subtree.child_ne (h : Subtree pages (depth + 1) page)
    (hpage : pages.page page = .interior cells right) (slot : Nat) :
    page ≠ childAt cells right slot := by
  intro heq
  have hchild := h.child hpage slot
  rw [← heq] at hchild
  exact Nat.succ_ne_self depth (h.depth_unique hchild)

theorem Leads.entries_eq (h : Leads pages root depth steps page) :
    entries pages (depth + steps.length) root =
      before pages depth steps ++ entries pages depth page ++ after pages depth steps := by
  induction steps generalizing depth page with
  | nil =>
    obtain rfl : page = root := h
    simp [before, after]
  | cons step steps ih =>
    obtain ⟨hpage, -, hchild, -, hleads⟩ := h
    have hdepth : depth + (step :: steps).length = depth + 1 + steps.length := by
      rw [length_cons]
      omega
    rw [hdepth, ih hleads, entries_split hpage step.slot, before, after, ← hchild]
    simp [Step.before, Step.after, Step.child, append_assoc]

theorem Leads.cons {slot : Nat} (h : Leads pages root (depth + 1) steps page)
    (hsub : Subtree pages (depth + 1) page) (hpage : pages.page page = .interior cells right)
    (hslot : slot ≤ cells.length) :
    Leads pages root depth (⟨page, cells, right, slot⟩ :: steps) (childAt cells right slot) :=
  ⟨hpage, hslot, rfl, hsub, h⟩

end PgMicro.BTree
