import PgMicro.Incremental.Dbsp
import PgMicro.ZSet.Join

/-!
# The B-tree of a view

`WriteRowView` and the `UpdateView` loop of `DbspCircuit::commit`, `core/incremental/compiler.rs`.
-/

namespace PgMicro.Incremental

open Function List ZSet

open Types (Value)

/-- The records of a table B-tree by rowid. -/
abbrev ViewTree := Int64 → Option (List Value)

def WriteRowView.writeRow (view : ViewTree) (key : Int64) (buildRecord : Int → List Value)
    (weight : Int) : Except String ViewTree :=
  match view key with
  | none => .ok (update view key (some (buildRecord weight)))
  | some record =>
    match record.getLast? with
    | some (.integer existing) =>
      let finalWeight := isize (existing.toInt + weight)
      if finalWeight ≤ 0 then .ok (update view key none)
      else .ok (update view key (some (buildRecord finalWeight)))
    | some _ => .error s!"Invalid weight value in storage for key {key}"
    | none => .error s!"No weight value found in storage for key {key}"

/-- The values of a row and its weight behind them. -/
def HashableRow.record (row : HashableRow) (finalWeight : Int) : List Value :=
  row.values ++ [.integer (.ofInt finalWeight)]

def updateView (view : ViewTree) (delta : Delta) : Except String ViewTree :=
  delta.foldlM (fun view c => WriteRowView.writeRow view c.1.rowid c.1.record c.2) view

def updateViews (view : ViewTree) (deltas : List Delta) : Except String ViewTree :=
  deltas.foldlM updateView view

/-- A rowid has at most one row, and weights are `isize`. -/
structure IsView (z : HashableRow →₀ ℤ) : Prop where
  nonneg : ∀ row, 0 ≤ z row
  fits : ∀ row, z row < 2 ^ 63
  unique : ∀ row row', 0 < z row → 0 < z row' → row.rowid = row'.rowid → row = row'

def Stored (view : ViewTree) (z : HashableRow →₀ ℤ) : Prop :=
  ∀ key record, view key = some record ↔
    ∃ row, row.rowid = key ∧ 0 < z row ∧ record = row.record (z row)

variable {view : ViewTree} {z : HashableRow →₀ ℤ} {row : HashableRow} {weight : ℤ}

theorem Stored.update (h : Stored view z) {record : Option (List Value)}
    (hothers : ∀ row', row'.rowid = row.rowid → row' ≠ row → z row' ≤ 0)
    (hrecord : record = if 0 < z row + weight then some (row.record (z row + weight)) else none) :
    Stored (update view row.rowid record) (z + Finsupp.single row weight) := by
  classical
  intro key r
  have hkey := h key r
  simp only [update_apply, Finsupp.add_apply, Finsupp.single_apply]
  grind

theorem Stored.writeRow (h : Stored view z) (hz : IsView z) (hweight : weight ≠ 0)
    (hz' : IsView (z + Finsupp.single row weight)) :
    ∃ view', WriteRowView.writeRow view row.rowid row.record weight = .ok view' ∧
      Stored view' (z + Finsupp.single row weight) := by
  classical
  have hnonneg := hz'.nonneg row
  have hunique := hz'.unique
  simp only [Finsupp.add_apply, Finsupp.single_apply] at hnonneg hunique
  rw [WriteRowView.writeRow]
  cases hview : view row.rowid with
  | none =>
    have hnone : ∀ row', row'.rowid = row.rowid → z row' ≤ 0 := by
      intro row' hrowid
      have hsome := (h row.rowid (row'.record (z row'))).2
      grind
    have hzero : z row = 0 := le_antisymm (hnone row rfl) (hz.nonneg row)
    refine ⟨_, rfl, h.update (fun row' hrowid _ => hnone row' hrowid) ?_⟩
    grind
  | some record =>
    obtain ⟨old, hrowid, hold, rfl⟩ := (h _ _).1 hview
    have hothers : ∀ row', row'.rowid = row.rowid → row' ≠ old → z row' ≤ 0 := by
      intro row' hrowid' hne
      by_contra hlt
      exact hne (hz.unique _ _ (not_le.1 hlt) hold (hrowid'.trans hrowid.symm))
    -- Were it another row, both would have the rowid.
    obtain rfl : old = row := by
      have hle := hothers row rfl
      have hge := hz.nonneg row
      have hboth := hunique old row
      grind
    have hint : (Int64.ofInt (z old)).toInt = z old :=
      Int64.toInt_ofInt_of_le (by have := hz.nonneg old; omega) (hz.fits old)
    have hsum : isize (z old + weight) = z old + weight := by
      have hfits := hz'.fits old
      rw [Finsupp.add_apply, Finsupp.single_eq_same] at hfits
      exact isize_eq (by grind) hfits
    simp only [HashableRow.record, getLast?_concat, hint, hsum]
    split
    next hle => exact ⟨_, rfl, h.update hothers (if_neg hle.not_gt).symm⟩
    next hle => exact ⟨_, rfl, h.update hothers (if_pos (not_le.1 hle)).symm⟩

theorem Stored.updateView {delta : Delta} (h : Stored view z)
    (hz : ∀ done, done <+: delta → IsView (z + ofChanges done)) (hweights : ∀ c ∈ delta, c.2 ≠ 0) :
    ∃ view', updateView view delta = .ok view' ∧ Stored view' (z + ofChanges delta) := by
  induction delta generalizing view z with
  | nil => exact ⟨view, rfl, by rwa [ofChanges_nil, add_zero]⟩
  | cons c delta ih =>
    obtain ⟨hweight, hweights⟩ := forall_mem_cons.1 hweights
    have hstart := hz [] nil_prefix
    rw [ofChanges_nil, add_zero] at hstart
    have hfirst := hz [c] (prefix_append [c] delta)
    rw [ofChanges_cons, ofChanges_nil, add_zero] at hfirst
    obtain ⟨view1, hwrite, h1⟩ := h.writeRow hstart hweight hfirst
    obtain ⟨view2, hrest, h2⟩ := ih h1 (fun done hdone => by
      have hmore := hz (c :: done) ((prefix_cons_inj _).2 hdone)
      rwa [ofChanges_cons, ← add_assoc] at hmore) hweights
    refine ⟨view2, ?_, by rwa [ofChanges_cons, ← add_assoc]⟩
    rw [Incremental.updateView, foldlM_cons, hwrite]
    exact hrest

theorem updateViews_eq (deltas : List Delta) :
    updateViews view deltas = updateView view deltas.flatten := by
  induction deltas generalizing view with
  | nil => rfl
  | cons delta deltas ih =>
    simp only [updateViews, updateView, foldlM_cons, flatten_cons, foldlM_append] at ih ⊢
    exact bind_congr fun _ => ih

theorem isView_single (row : HashableRow) (hnonneg : 0 ≤ weight) (hfits : weight < 2 ^ 63) :
    IsView (Finsupp.single row weight) := by
  classical
  constructor <;> grind

end PgMicro.Incremental
