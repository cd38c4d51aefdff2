import Mathlib.Data.List.Sublists

/-!
# Optimistic multi-version concurrency control

An abstract protocol in the style of Hekaton. A row has versions whose lifetime is bounded by commit
timestamps or by transactions that are still undecided. Readers may rely on undecided transactions
and then depend on their commit; writers are checked for conflicts when they validate.

`clash r r'` says that a writer of `r` validates against the versions of `r'`. Rows that are
`tracked` keep a mark of every transaction that wrote them.
-/

namespace MultiVersion

open Function

inductive Stamp where
  | ts (ts : Nat)
  | tx (txn : Nat)
  deriving DecidableEq, Repr

structure Version (α : Type) where
  id : Nat
  born : Option Stamp
  died : Option Stamp
  payload : α

inductive Status where
  | active
  | preparing (endTs : Nat)
  | committed (endTs : Nat)
  | aborted
  deriving DecidableEq, Repr

/-- `dependents` are the transactions waiting for this one, `pending` is how many it waits
for itself, `registered` all it ever waited for. -/
structure Txn (ρ : Type) where
  status : Status
  beginTs : Nat
  writes : List ρ
  abortNow : Bool
  dependents : List Nat
  pending : Nat
  registered : List Nat
  validated : Bool

structure Record (ρ : Type) where
  beginTs : Nat
  endTs : Nat
  writes : List ρ

/-- Timestamps up to `seed` predate every transaction. `effect` is what a transaction has
last written to a row, `some none` for a deletion. -/
structure State (ρ α : Type) where
  chain : ρ → List (Version α)
  txn : Nat → Option (Txn ρ)
  clock : Nat
  nextTxn : Nat
  nextVersion : Nat
  history : Nat → Option (Record ρ)
  effect : Nat → ρ → Option (Option α)
  seed : Nat

variable {ρ α : Type}

def Txn.fresh (beginTs : Nat) : Txn ρ where
  status := .active
  beginTs := beginTs
  writes := []
  abortNow := false
  dependents := []
  pending := 0
  registered := []
  validated := false

namespace Version

variable (v : Version α) (t : Nat)

def BornBy : Prop := v.born = some (.tx t)

def DiedBy : Prop := v.died = some (.tx t)

def BornAt (ts : Nat) : Prop := v.born = some (.ts ts)

def DiedAt (ts : Nat) : Prop := v.died = some (.ts ts)

def Mentions : Prop := v.BornBy t ∨ v.DiedBy t

def stampBound (t endTs : Nat) (b : Option Stamp) : Option Stamp :=
  if b = some (.tx t) then some (.ts endTs) else b

def stamp (t endTs : Nat) (v : Version α) : Version α :=
  { v with born := stampBound t endTs v.born, died := stampBound t endTs v.died }

def wipe (t : Nat) (v : Version α) : Version α :=
  if v.born = some (.tx t) then { v with born := none, died := none }
  else if v.died = some (.tx t) then { v with died := none }
  else v

section

variable {v : Version α} {t u ts e : Nat}

theorem BornBy.inj (h : v.BornBy t) (h' : v.BornBy u) : t = u :=
  Stamp.tx.inj (Option.some.inj (h.symm.trans h'))

theorem DiedBy.inj (h : v.DiedBy t) (h' : v.DiedBy u) : t = u :=
  Stamp.tx.inj (Option.some.inj (h.symm.trans h'))

theorem BornBy.not_bornAt (h : v.BornBy t) : ¬ v.BornAt ts :=
  fun h' => nomatch h.symm.trans h'

theorem DiedBy.not_diedAt (h : v.DiedBy t) : ¬ v.DiedAt ts :=
  fun h' => nomatch h.symm.trans h'

theorem mentions_setDied {b : Option Stamp} (h : Mentions { v with died := b } u) :
    v.BornBy u ∨ b = some (.tx u) := h

theorem mentions_stamp (h : (v.stamp t e).Mentions u) : v.Mentions u := by
  rcases h with h | h <;> simp only [BornBy, DiedBy, stamp, stampBound] at h
  · split at h
    · cases h
    · exact .inl h
  · split at h
    · cases h
    · exact .inr h

theorem not_mentions_stamp : ¬ (v.stamp t e).Mentions t := by
  rintro (h | h) <;> simp only [BornBy, DiedBy, stamp, stampBound] at h <;> split at h
  · cases h
  · contradiction
  · cases h
  · contradiction

theorem mentions_wipe (h : (v.wipe t).Mentions u) : v.Mentions u := by
  unfold wipe at h
  split at h
  · rcases h with h | h <;> cases h
  · split at h
    · rcases h with h | h
      · exact .inl h
      · cases h
    · exact h

theorem not_mentions_wipe : ¬ (v.wipe t).Mentions t := by
  unfold wipe
  split
  · rintro (h | h) <;> cases h
  · split
    · rintro (h | h)
      · contradiction
      · cases h
    · rintro (h | h) <;> contradiction

theorem bornAt_stamp (h : (v.stamp t e).BornAt ts) : v.BornAt ts ∨ (v.BornBy t ∧ ts = e) := by
  simp only [BornAt, BornBy, stamp, stampBound] at h ⊢
  split at h
  · cases h
    exact .inr ⟨by assumption, rfl⟩
  · exact .inl h

theorem diedAt_stamp (h : (v.stamp t e).DiedAt ts) : v.DiedAt ts ∨ (v.DiedBy t ∧ ts = e) := by
  simp only [DiedAt, DiedBy, stamp, stampBound] at h ⊢
  split at h
  · cases h
    exact .inr ⟨by assumption, rfl⟩
  · exact .inl h

theorem bornAt_wipe (h : (v.wipe t).BornAt ts) : v.BornAt ts := by
  unfold wipe at h
  split at h
  · cases h
  · split at h <;> exact h

theorem diedAt_wipe (h : (v.wipe t).DiedAt ts) : v.DiedAt ts := by
  unfold wipe at h
  split at h
  · cases h
  · split at h
    · cases h
    · exact h

theorem id_stamp : (v.stamp t e).id = v.id := rfl

theorem id_wipe : (v.wipe t).id = v.id := by
  unfold wipe
  split
  · rfl
  · split <;> rfl

end

end Version

namespace State

variable (s : State ρ α)

/-- Tell the dependents of `d` that it ended, and forget them. -/
def settle (d : Nat) (y : Txn ρ) (aborted : Bool) : Nat → Option (Txn ρ) :=
  fun t =>
    if t = d then some { y with dependents := [] }
    else (s.txn t).map fun x =>
      if t ∈ y.dependents then
        { x with abortNow := x.abortNow || aborted, pending := x.pending - 1 }
      else x

def EndOf (t e : Nat) : Prop :=
  (∃ x, s.txn t = some x ∧ (x.status = .preparing e ∨ x.status = .committed e)) ∨
    ∃ h, s.history t = some h ∧ h.endTs = e

def BeginOf (t b : Nat) : Prop :=
  (∃ x, s.txn t = some x ∧ x.beginTs = b) ∨ ∃ h, s.history t = some h ∧ h.beginTs = b

/-- The version was created before `t` began at `b`, by `t` itself, or by an undecided
transaction whose commit `t` depends on. -/
def SeesBirth (t b : Nat) (v : Version α) : Prop :=
  (∃ c, v.BornAt c ∧ c < b) ∨ v.BornBy t ∨
    ∃ d y e, v.BornBy d ∧ s.txn d = some y ∧ e < b ∧
      (y.status = .preparing e ∧ t ∈ y.dependents ∨ y.status = .committed e)

def FixedAt : Stamp → Nat → Prop
  | .ts g, f => g = f
  | .tx o, f => ∃ h, s.history o = some h ∧ h.endTs = f

/-- The bound is not and will not be a timestamp before `e`, the clock being past it. -/
def NotBefore (e : Nat) : Stamp → Prop
  | .ts g => e ≤ g
  | .tx o => s.EndOf o e ∨ ∃ y, s.txn o = some y ∧ (y.status = .active ∨ y.status = .aborted ∨
      ∃ f, (y.status = .preparing f ∨ y.status = .committed f) ∧ e < f)

/-- The transaction `t`, which began at `b`, does not see the version: it was not created
before `b`, it ended before `b`, or `t` relies on the commit of the transaction that ended
it or has ended it itself. -/
def Hidden (t b : Nat) (v : Version α) : Prop :=
  v.born = none ∨ (∃ β, v.born = some β ∧ β ≠ .tx t ∧ s.NotBefore b β) ∨ v.DiedBy t ∨
    (∃ β f, v.died = some β ∧ s.FixedAt β f ∧ f ≤ b) ∨
    ∃ d y f, v.DiedBy d ∧ s.txn d = some y ∧ y.status = .preparing f ∧ f ≤ b ∧
      t ∈ y.dependents

/-- The transaction `t` sees the version. -/
def Visible (t b : Nat) (v : Version α) : Prop :=
  s.SeesBirth t b v ∧ ∀ β, v.died = some β → β ≠ .tx t ∧ s.NotBefore b β

def BornAfter (ts : Nat) (v : Version α) : Prop :=
  (∃ b, v.BornAt b ∧ ts < b) ∨
    ∃ d y, v.BornBy d ∧ s.txn d = some y ∧ ts < y.beginTs

/-- The version does not stand in the way of `t`, which begins at `b` and validates at
`e`: it is its own, it ended before `b`, or it is the younger side of the conflict. -/
def Admits (t b e : Nat) (v : Version α) : Prop :=
  match v.born, v.died with
  | none, none => True
  | none, some (.ts d) => d < b
  | none, some (.tx o) =>
    o = t ∨ ∃ y, s.txn o = some y ∧
      (y.status = .active ∨ y.status = .aborted ∨ ∃ f, y.status = .preparing f ∧ e < f)
  | some _, some (.ts d) => d < b
  | some born, died =>
    died = some (.tx t) ∨
      (∃ o y f, died = some (.tx o) ∧ s.txn o = some y ∧ y.status = .committed f ∧ f < b) ∨
      born = .tx t ∨
      ∃ o y, born = .tx o ∧ s.txn o = some y ∧
        (y.status = .active ∨ y.status = .aborted ∨ ∃ f, y.status = .preparing f ∧ e < f)

end State

def Version.image (v : Version α) : Option α :=
  if v.born = none then none else some v.payload

/-- What rolling back part of the work of `t` does to one chain. -/
structure Undone (t : Nat) (c c' : List (Version α)) : Prop where
  ids : (c'.map Version.id).Sublist (c.map Version.id)
  back : ∀ v ∈ c', v ∈ c ∨ ∃ u ∈ c, u.DiedBy t ∧ v = { u with died := none }
  forth : ∀ u ∈ c, u ∈ c' ∨ (u.DiedBy t ∧ { u with died := none } ∈ c') ∨ u.BornBy t ∨
    (u.born = none ∧ u.DiedBy t)

inductive Event (ρ α : Type) where
  | skip
  | tick
  | begin (t : Nat)
  | depend (t d : Nat)
  | install (t : Nat) (r : ρ) (v : Version α)
  | supersede (t : Nat) (r : ρ) (v : Version α)
  | undo (t : Nat)
  | prepare (t : Nat)
  | validate (t : Nat)
  | commit (t : Nat)
  | stamp (t : Nat) (r : ρ)
  | release (t : Nat)
  | abort (t : Nat)
  | cascade (t : Nat)
  | wipe (t : Nat) (r : ρ)
  | retire (t : Nat)
  | collect

open State in
inductive Step [DecidableEq ρ] (clash : ρ → ρ → Prop) (tracked : ρ → Prop) :
    State ρ α → Event ρ α → State ρ α → Prop where
  | skip (s : State ρ α) : Step clash tracked s .skip s
  | tick (s : State ρ α) :
      Step clash tracked s .tick { s with nextTxn := s.nextTxn + 1, clock := s.clock + 1 }
  | begin (s : State ρ α) :
      Step clash tracked s (.begin s.nextTxn)
        { s with
          txn := update s.txn s.nextTxn (some (.fresh s.clock))
          nextTxn := s.nextTxn + 1
          clock := s.clock + 1 }
  | depend (s : State ρ α) {t d e : Nat} {x y : Txn ρ} (hx : s.txn t = some x)
      (hactive : x.status = .active) (hy : s.txn d = some y) (he : y.status = .preparing e)
      (hlt : e < x.beginTs) (hnew : t ∉ y.dependents)
      (hmark : ∃ r, ∃ v ∈ s.chain r, v.Mentions d) :
      Step clash tracked s (.depend t d)
        { s with
          txn := update
            (update s.txn d (some { y with dependents := t :: y.dependents })) t
            (some { x with pending := x.pending + 1, registered := d :: x.registered }) }
  | install (s : State ρ α) {t : Nat} {x : Txn ρ} {r : ρ} {v : Version α}
      {older newer : List (Version α)} {writes : List ρ} (hx : s.txn t = some x)
      (hactive : x.status = .active) (hchain : s.chain r = older ++ newer)
      (hid : v.id = s.nextVersion)
      (hmark : v.BornBy t ∧ v.died = none ∨ v.born = none ∧ v.DiedBy t)
      (hnewer : v.BornBy t → ∀ u ∈ newer, s.BornAfter x.beginTs u)
      (hwrites : ∀ r', r' ∈ writes ↔ r' = r ∨ r' ∈ x.writes) :
      Step clash tracked s (.install t r v)
        { s with
          chain := update s.chain r (older ++ v :: newer)
          txn := update s.txn t (some { x with writes := writes })
          effect := update s.effect t (update (s.effect t) r (some v.image))
          nextVersion := s.nextVersion + 1 }
  | supersede (s : State ρ α) {t : Nat} {x : Txn ρ} {r : ρ} {v : Version α}
      {older newer : List (Version α)} {writes : List ρ} (hx : s.txn t = some x)
      (hactive : x.status = .active) (hchain : s.chain r = older ++ v :: newer)
      (hfree : v.died = none ∨
        ∃ a y, v.DiedBy a ∧ s.txn a = some y ∧ y.status = .aborted)
      (hsees : s.SeesBirth t x.beginTs v) (hnewer : ∀ u ∈ newer, s.Hidden t x.beginTs u)
      (hwrites : ∀ r', r' ∈ writes ↔ r' = r ∨ r' ∈ x.writes) :
      Step clash tracked s (.supersede t r v)
        { s with
          chain := update s.chain r
            (older ++ { v with died := some (.tx t) } :: newer)
          txn := update s.txn t (some { x with writes := writes })
          effect := update s.effect t (update (s.effect t) r (some none)) }
  | undo (s : State ρ α) {t : Nat} {x : Txn ρ} {chain' : ρ → List (Version α)}
      {writes : List ρ} (hx : s.txn t = some x) (hactive : x.status = .active)
      (hchain : ∀ r, Undone t (s.chain r) (chain' r)) (hsub : ∀ r ∈ writes, r ∈ x.writes)
      (hgone : ∀ r ∈ x.writes, r ∉ writes → ∀ v ∈ chain' r, ¬ v.Mentions t)
      (hkept : ∀ r ∈ writes, tracked r → (∃ v ∈ chain' r, v.Mentions t) ∨
        chain' r = s.chain r) :
      Step clash tracked s (.undo t)
        { s with
          chain := chain'
          txn := update s.txn t (some { x with writes := writes }) }
  | prepare (s : State ρ α) {t : Nat} {x : Txn ρ} (hx : s.txn t = some x)
      (hactive : x.status = .active) :
      Step clash tracked s (.prepare t)
        { s with
          txn := update s.txn t (some { x with status := .preparing s.clock })
          clock := s.clock + 1 }
  | validate (s : State ρ α) {t e : Nat} {x : Txn ρ} (hx : s.txn t = some x)
      (he : x.status = .preparing e)
      (hadmits : ∀ r ∈ x.writes, ∀ r', clash r r' → ∀ v ∈ s.chain r',
        s.Admits t x.beginTs e v) :
      Step clash tracked s (.validate t)
        { s with txn := update s.txn t (some { x with validated := true }) }
  | commit (s : State ρ α) {t e : Nat} {x : Txn ρ} (hx : s.txn t = some x)
      (he : x.status = .preparing e) (hvalid : x.validated = true)
      (habort : x.abortNow = false) (hpending : x.pending = 0) :
      Step clash tracked s (.commit t)
        { s with
          txn := update s.txn t (some { x with status := .committed e })
          history := update s.history t (some ⟨x.beginTs, e, x.writes⟩) }
  | stamp (s : State ρ α) {t e : Nat} {x : Txn ρ} (r : ρ) (hx : s.txn t = some x)
      (he : x.status = .committed e) :
      Step clash tracked s (.stamp t r)
        { s with
          chain := update s.chain r ((s.chain r).map (Version.stamp t e)) }
  | release (s : State ρ α) {t e : Nat} {x : Txn ρ} (hx : s.txn t = some x)
      (he : x.status = .committed e) :
      Step clash tracked s (.release t) { s with txn := s.settle t x false }
  | abort (s : State ρ α) {t : Nat} {x : Txn ρ} (hx : s.txn t = some x)
      (hopen : x.status = .active ∨ ∃ e, x.status = .preparing e) :
      Step clash tracked s (.abort t)
        { s with
          txn := update s.txn t
            (some { x with status := .aborted, validated := false }) }
  | cascade (s : State ρ α) {t : Nat} {x : Txn ρ} (hx : s.txn t = some x)
      (haborted : x.status = .aborted) :
      Step clash tracked s (.cascade t) { s with txn := s.settle t x true }
  | wipe (s : State ρ α) {t : Nat} {x : Txn ρ} (r : ρ) (hx : s.txn t = some x)
      (haborted : x.status = .aborted) (hdrained : x.dependents = []) :
      Step clash tracked s (.wipe t r)
        { s with chain := update s.chain r ((s.chain r).map (Version.wipe t)) }
  | retire (s : State ρ α) {t : Nat} {x : Txn ρ} (hx : s.txn t = some x)
      (hended : x.status = .aborted ∨ ∃ e, x.status = .committed e)
      (hdrained : x.dependents = []) (hgone : ∀ r, ∀ v ∈ s.chain r, ¬ v.Mentions t) :
      Step clash tracked s (.retire t) { s with txn := update s.txn t none }
  | collect (s : State ρ α) {chain' : ρ → List (Version α)}
      (hidle : ∀ t, s.txn t = none) (hchain : ∀ r, (chain' r).Sublist (s.chain r)) :
      Step clash tracked s .collect { s with chain := chain' }

end MultiVersion
