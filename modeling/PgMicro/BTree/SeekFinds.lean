import PgMicro.BTree.LeafSearch

/-!
# A seek finds the boundary entry

The leaf that the way down ends at, what is before it and what is after it are all the entries of
the tree. A match in the leaf is the boundary; without one the boundary is the neighbour of the
leaf in the direction of the search, where the caller is told to go.
-/

namespace PgMicro.BTree

open Loop BTreeCursor List SeekOp

def SeekOp.Holds : SeekOp → Ordering → Prop
  | .ge false, x => x ≠ .lt
  | .gt, x => x = .gt
  | .le false, x => x ≠ .gt
  | .lt, x => x = .lt
  | .ge true, x | .le true, x => x = .eq

instance (op : SeekOp) (x : Ordering) : Decidable (op.Holds x) := by
  unfold SeekOp.Holds
  split <;> infer_instance

theorem SeekOp.found_eq_decide (op : SeekOp) (x : Ordering) : op.found x = decide (op.Holds x) := by
  decide +revert

variable {κ : Type} {op : SeekOp} {cmp : κ → Ordering} {cells l : List κ} {n : Nat} {x : κ}

def boundary (op : SeekOp) (cmp : κ → Ordering) (all : List κ) : Option κ :=
  match op.iterationDirection with
  | .forwards => all.find? fun e => decide (op.Holds (cmp e))
  | .backwards => all.reverse.find? fun e => decide (op.Holds (cmp e))

structure Finds (pages : Pages κ) (root : Nat) (op : SeekOp) (cmp : κ → Ordering) (all : List κ)
    (answer : BTreeCursor × SeekResult) : Prop where
  reports : reported pages answer = boundary op cmp all
  stands : ∀ e ∈ boundary op cmp all, StandsOn pages root answer.1 e
  exact_iff : op.eqOnly = true → (answer.2 ≠ .notFound ↔ ∃ e ∈ all, cmp e = .eq)

section

variable {front behind : List κ}

theorem find?_eq_none_of {p : κ → Bool} (h : ∀ e ∈ l, p e = false) : l.find? p = none := by
  rw [find?_eq_none]
  intro e he
  rw [h e he]
  exact Bool.false_ne_true

namespace SeekOp

variable (op) (front cells behind)

def scan (l : List κ) : List κ :=
  match op.iterationDirection with
  | .forwards => l
  | .backwards => l.reverse

def passed : List κ :=
  match op.iterationDirection with
  | .forwards => front
  | .backwards => behind.reverse

/-- What the search comes to after the leaf. -/
def rest : List κ :=
  match op.iterationDirection with
  | .forwards => behind
  | .backwards => front.reverse

variable {op} in
theorem mem_scan {e : κ} : e ∈ op.scan l ↔ e ∈ l := by
  unfold scan
  cases op.iterationDirection <;> simp

theorem scan_around : op.scan (front ++ cells ++ behind) =
    op.passed front behind ++ (op.scan cells ++ op.rest front behind) := by
  unfold scan passed rest
  cases op.iterationDirection <;> simp

end SeekOp

theorem boundary_eq (all : List κ) :
    boundary op cmp all = (op.scan all).find? fun e => op.found (cmp e) := by
  unfold boundary scan
  cases op.iterationDirection <;> simp [found_eq_decide]

section

variable (hlow : ∀ e ∈ front, op.low (cmp e) = true) (hhigh : ∀ e ∈ behind, op.low (cmp e) = false)

include hlow hhigh

theorem not_found_passed : ∀ e ∈ op.passed front behind, op.found (cmp e) = false := by
  intro e he
  apply not_found_of_not_ahead
  unfold passed at he
  unfold ahead
  cases hdir : op.iterationDirection <;> rw [hdir] at he
  · exact congrArg not (hlow e he)
  · exact hhigh e (mem_reverse.1 he)

theorem ahead_rest : ∀ e ∈ op.rest front behind, op.ahead (cmp e) = true := by
  intro e he
  unfold rest at he
  unfold ahead
  cases hdir : op.iterationDirection <;> rw [hdir] at he
  · exact congrArg not (hhigh e he)
  · exact hlow e (mem_reverse.1 he)

theorem boundary_found (hx : cells[n]? = some x) (hfound : op.found (cmp x) = true)
    (hfirst : op.iterationDirection = .forwards →
      ∀ y ∈ cells.take n, op.found (cmp y) = false) (hlast : op.iterationDirection = .backwards →
      ∀ y ∈ cells.drop (n + 1), op.found (cmp y) = false) :
    boundary op cmp (front ++ cells ++ behind) = some x := by
  obtain ⟨hlt, hget⟩ := List.getElem?_eq_some_iff.1 hx
  have hsplit : cells = cells.take n ++ [x] ++ cells.drop (n + 1) := by
    rw [← hget, append_assoc, singleton_append, getElem_cons_drop,
      take_append_drop]
  have hpassed : ∀ e ∈ op.passed (cells.take n) (cells.drop (n + 1)), op.found (cmp e) = false := by
    intro e he
    unfold passed at he
    split at he
    · exact hfirst ‹_› e he
    · exact hlast ‹_› e (mem_reverse.1 he)
  have hone : op.scan [x] = [x] := by
    unfold scan
    cases op.iterationDirection <;> rfl
  rw [boundary_eq, scan_around, hsplit, scan_around, hone]
  simp only [find?_append, find?_eq_none_of (not_found_passed hlow hhigh),
    find?_eq_none_of hpassed, find?_singleton, hfound]
  rfl

theorem boundary_missing (hnone : ∀ e ∈ cells, op.found (cmp e) = false) :
    boundary op cmp (front ++ cells ++ behind) =
      (op.rest front behind).find? fun e => op.found (cmp e) := by
  rw [boundary_eq, scan_around, find?_append, find?_append,
    find?_eq_none_of (not_found_passed hlow hhigh),
    find?_eq_none_of fun e he => hnone e (mem_scan.1 he)]
  rfl

end

theorem beyond_rest
    (hasc : (front ++ cells ++ behind).Pairwise fun x y => Ascends (cmp x) (cmp y)) :
    (op.rest front behind).Pairwise fun x y => op.Beyond (cmp x) (cmp y) := by
  obtain ⟨hfront, hbehind, -⟩ := pairwise_append.1 hasc
  unfold rest SeekOp.Beyond
  cases op.iterationDirection with
  | forwards => exact hbehind
  | backwards => exact pairwise_reverse.2 (pairwise_append.1 hfront).1

theorem find?_ahead (hahead : ∀ e ∈ l, op.ahead (cmp e) = true)
    (hbeyond : l.Pairwise fun x y => op.Beyond (cmp x) (cmp y))
    (hsome : op.eqOnly = false ∨ ∃ e ∈ l, op.found (cmp e) = true) :
    (l.find? fun e => op.found (cmp e)) = l.head? := by
  cases l with
  | nil => rfl
  | cons x rest =>
    have hx := hahead x mem_cons_self
    suffices hfound : op.found (cmp x) = true by rw [find?_cons, hfound, head?_cons]
    rcases hsome with heq | ⟨e, he, hmatch⟩
    · exact found_of_ahead heq hx
    by_contra hne
    rw [Bool.not_eq_true] at hne
    rcases mem_cons.1 he with rfl | he
    · rw [hmatch] at hne
      cases hne
    · rw [not_found_beyond (rel_of_pairwise_cons hbeyond he) hx hne] at hmatch
      cases hmatch

theorem not_past (heq : op.eqOnly = true) (hlow : ∀ e ∈ front, op.low (cmp e) = true)
    (hhigh : ∀ e ∈ behind, op.low (cmp e) = false)
    (hasc : (front ++ cells ++ behind).Pairwise fun x y => Ascends (cmp x) (cmp y))
    (hseen : ∃ e ∈ front ++ behind, cmp e = .eq) : ∀ x ∈ cells, ¬ op.past (cmp x) := by
  intro x hx hpast
  obtain ⟨e, he, hcmp⟩ := hseen
  obtain ⟨hasc, -, hcross⟩ := pairwise_append.1 hasc
  have hfront := (pairwise_append.1 hasc).2.2
  cases op with
  | gt | lt => cases heq
  | ge exact =>
    rcases mem_append.1 he with he | he
    · have := hlow e he
      rw [hcmp] at this
      cases this
    · have := (hcross x (mem_append_right _ hx) e he).1 hpast
      rw [hcmp] at this
      cases this
  | le exact =>
    rcases mem_append.1 he with he | he
    · have := (hfront e he x hx).2 hpast
      rw [hcmp] at this
      cases this
    · have := hhigh e he
      rw [hcmp] at this
      cases this

end

section

variable {pages : Pages κ} {root leaf : Nat} {steps : List (Step κ)} {eqSeen hasRecord : Bool}
  {idx : Int} {result : SeekResult}

def Eventually {α : Type} (f : Nat → Option α) (P : α → Prop) : Prop :=
  ∃ a, P a ∧ ∃ rounds, ∀ fuel, rounds ≤ fuel → f fuel = some a

theorem leaf_neighbour (hpage : pages.page leaf = .leaf cells) (hsmall : cells.length < 2 ^ 16)
    (hleads : Leads pages root 0 steps leaf) (hroom : steps.length < btcursorMaxDepth) :
    Eventually (fun fuel => advanceIfTold fuel pages op
        (⟨⟨leaf, edge op cells, none⟩ :: steps.map
          (Step.node (retreats pages op.iterationDirection)), false, hasRecord⟩, .tryAdvance))
      fun answer => answer.2 = .tryAdvance ∧
        reported pages answer = (op.rest (before pages 0 steps) (after pages 0 steps)).head? ∧
        ∀ e ∈ (op.rest (before pages 0 steps) (after pages 0 steps)).head?,
          StandsOn pages root answer.1 e := by
  -- one step of the cursor, in either direction
  have hlands {rest : List κ} {cur : BTreeCursor} {more : Bool}
      (h : (rest = [] ∧ more = false) ∨
        ∃ e, more = true ∧ StandsOn pages root cur e ∧ rest.head? = some e) :
      reported pages ({ cur with hasRecord := more }, .tryAdvance) = rest.head? ∧
        ∀ e ∈ rest.head?, StandsOn pages root { cur with hasRecord := more } e := by
    rcases h with ⟨rfl, rfl⟩ | ⟨e, rfl, hon, hhead⟩
    · exact ⟨rfl, nofun⟩
    · rw [hhead]
      refine ⟨hon.record, fun e' he => ?_⟩
      cases he
      exact ⟨hon.rooted, hon.record⟩
  unfold rest edge
  cases hdir : op.iterationDirection with
  | forwards =>
    rw [show retreats pages .forwards = false by simp [retreats]]
    obtain ⟨cur, hasNext, ⟨rounds, hrounds⟩, hresult⟩ :=
      next_after_leaf hasRecord hpage hsmall hleads hroom
    refine ⟨({ cur with hasRecord := hasNext }, .tryAdvance), ⟨rfl, hlands hresult⟩, rounds, ?_⟩
    intro fuel hfuel
    simp only [advanceIfTold, hdir, getNextRecord, hrounds fuel hfuel]
    rfl
  | backwards =>
    rw [show retreats pages .backwards = pages.isIndex by simp [retreats]]
    obtain ⟨cur, hasPrev, ⟨rounds, hrounds⟩, hresult⟩ :=
      prev_before_leaf hasRecord hpage hleads hroom
    rw [← head?_reverse, ← reverse_eq_nil_iff] at hresult
    refine ⟨({ cur with hasRecord := hasPrev }, .tryAdvance), ⟨rfl, hlands hresult⟩, rounds, ?_⟩
    intro fuel hfuel
    simp only [advanceIfTold, hdir, getPrevRecord, hrounds fuel hfuel]
    rfl

def around (pages : Pages κ) (steps : List (Step κ)) (cells : List κ) : List κ :=
  before pages 0 steps ++ cells ++ after pages 0 steps

variable (hplaced : Placed pages cmp op 0 steps eqSeen)
  (hasc : (around pages steps cells).Pairwise fun x y => Ascends (cmp x) (cmp y))

include hplaced in
theorem finds_match (hpage : pages.page leaf = .leaf cells) (hleads : Leads pages root 0 steps leaf)
    (hx : cells[n]? = some x) (hfound : op.found (cmp x) = true)
    (hfirst : op.iterationDirection = .forwards → ∀ y ∈ cells.take n, op.found (cmp y) = false)
    (hlast : op.iterationDirection = .backwards →
      ∀ y ∈ cells.drop (n + 1), op.found (cmp y) = false) (r : Bool) :
    Finds pages root op cmp (around pages steps cells)
      (⟨⟨leaf, n, none⟩ :: steps.map (Step.node r), false, true⟩, .found) := by
  have hboundary : boundary op cmp (around pages steps cells) = some x :=
    boundary_found hplaced.low hplaced.high hx hfound hfirst hlast
  have hon : StandsOn pages root ⟨⟨leaf, n, none⟩ :: steps.map (Step.node r), false, true⟩ x := by
    refine ⟨hleads.rooted, ?_⟩
    simp [record, hpage, hx]
  refine ⟨?_, ?_, fun heq => ?_⟩
  · rw [hboundary]
    exact hon.record
  · rw [hboundary]
    intro e he
    cases he
    exact hon
  · simp only [ne_eq, reduceCtorEq, not_false_eq_true, true_iff]
    exact ⟨x, by simp [around, mem_of_getElem? hx], (found_iff_eq heq).1 hfound⟩

section

variable (hnone : ∀ e ∈ cells, op.found (cmp e) = false)

include hplaced hnone

theorem equal_iff_seen (heq : op.eqOnly = true) :
    (∃ e ∈ around pages steps cells, cmp e = .eq) ↔ eqSeen = true := by
  rw [hplaced.seen heq, around]
  simp only [mem_append]
  constructor
  · rintro ⟨e, (he | he) | he, hcmp⟩
    · exact ⟨e, .inl he, hcmp⟩
    · have := hnone e he
      rw [(found_iff_eq heq).2 hcmp] at this
      cases this
    · exact ⟨e, .inr he, hcmp⟩
  · rintro ⟨e, he | he, hcmp⟩
    · exact ⟨e, .inl (.inl he), hcmp⟩
    · exact ⟨e, .inr he, hcmp⟩

theorem finds_nothing (heq : op.eqOnly = true) (hseen : ¬ eqSeen = true) (cur : BTreeCursor) :
    Finds pages root op cmp (around pages steps cells) (cur, .notFound) := by
  have hno : ∀ e ∈ around pages steps cells, op.found (cmp e) = false := by
    intro e he
    rw [Bool.eq_false_iff, ne_eq, found_iff_eq heq]
    exact fun hcmp => hseen ((equal_iff_seen hplaced hnone heq).1 ⟨e, he, hcmp⟩)
  have hboundary : boundary op cmp (around pages steps cells) = none := by
    rw [boundary_eq, find?_eq_none_of fun e he => hno e (mem_scan.1 he)]
  refine ⟨hboundary.symm, ?_, fun _ => ?_⟩
  · rw [hboundary]
    intro e he
    cases he
  · rw [equal_iff_seen hplaced hnone heq]
    simpa using hseen

variable (hexact : op.eqOnly = true → eqSeen = true)

include hasc hexact

theorem finds_neighbour (hpage : pages.page leaf = .leaf cells) (hsmall : cells.length < 2 ^ 16)
    (hleads : Leads pages root 0 steps leaf) (hroom : steps.length < btcursorMaxDepth) :
    Eventually (fun fuel => advanceIfTold fuel pages op
        (⟨⟨leaf, edge op cells, none⟩ :: steps.map
          (Step.node (retreats pages op.iterationDirection)), false, hasRecord⟩, .tryAdvance))
      (Finds pages root op cmp (around pages steps cells)) := by
  have hmissing := boundary_missing hplaced.low hplaced.high hnone
  have hsome : op.eqOnly = false ∨
      ∃ e ∈ op.rest (before pages 0 steps) (after pages 0 steps), op.found (cmp e) = true := by
    cases heq : op.eqOnly with
    | false => exact .inl rfl
    | true =>
      obtain ⟨e, he, hcmp⟩ := (equal_iff_seen hplaced hnone heq).2 (hexact heq)
      have hmatch := (found_iff_eq heq).2 hcmp
      have he : e ∈ op.scan (around pages steps cells) := mem_scan.2 he
      rw [around, scan_around, mem_append, mem_append, mem_scan] at he
      rcases he with he | he | he
      · rw [not_found_passed hplaced.low hplaced.high e he] at hmatch
        cases hmatch
      · rw [hnone e he] at hmatch
        cases hmatch
      · exact .inr ⟨e, he, hmatch⟩
  have hboundary : boundary op cmp (around pages steps cells) =
      (op.rest (before pages 0 steps) (after pages 0 steps)).head? :=
    hmissing.trans (find?_ahead (ahead_rest hplaced.low hplaced.high) (beyond_rest hasc) hsome)
  obtain ⟨answer, ⟨htold, hreports, hon⟩, hrounds⟩ :=
    leaf_neighbour hpage hsmall hleads hroom
  refine ⟨answer, ⟨hreports.trans hboundary.symm, hboundary ▸ hon, fun heq => ?_⟩, hrounds⟩
  rw [htold, equal_iff_seen hplaced hnone heq]
  simpa using hexact heq

end

include hplaced hasc in
theorem finds_of_answers (hpage : pages.page leaf = .leaf cells) (hsmall : cells.length < 2 ^ 16)
    (hleads : Leads pages root 0 steps leaf) (hroom : steps.length < btcursorMaxDepth)
    (hanswers : Answers cmp op cells eqSeen idx result)
    (hrecord : result = .found → hasRecord = true) :
    Eventually (fun fuel => advanceIfTold fuel pages op
        (⟨⟨leaf, idx, none⟩ :: steps.map (Step.node (retreats pages op.iterationDirection)), false,
          hasRecord⟩, result))
      (Finds pages root op cmp (around pages steps cells)) := by
  cases hanswers with
  | found hx hfound hfirst hlast =>
    obtain rfl := hrecord rfl
    exact ⟨_, finds_match hplaced hpage hleads hx hfound hfirst hlast _, 0, fun _ _ => rfl⟩
  | missing hnone htarget =>
    by_cases hgive : op.eqOnly = true ∧ ¬ eqSeen = true
    · rw [if_pos hgive]
      exact ⟨_, finds_nothing hplaced hnone hgive.1 hgive.2 _, 0, fun _ _ => rfl⟩
    have hexact (heq : op.eqOnly = true) : eqSeen = true := by
      by_contra hne
      exact hgive ⟨heq, hne⟩
    have hedge : idx = edge op cells := by
      rcases htarget with hedge | ⟨heq, x, hx, hpast⟩
      · exact hedge
      · exact absurd hpast (not_past heq hplaced.low hplaced.high hasc
          ((hplaced.seen heq).1 (hexact heq)) x hx)
    rw [if_neg hgive, hedge]
    exact finds_neighbour hplaced hasc hnone hexact hpage hsmall hleads hroom

end

end PgMicro.BTree
