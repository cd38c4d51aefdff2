import Mathlib.Algebra.Order.Ring.Abs
import PgMicro.Incremental.JoinStorage

/-!
# The incremental join is the join of the accumulated inputs

The stored rows of a side add up to its accumulated Z-set. A commit then puts out the three joins
by which the join of the inputs grows. The scans go by hashes, hence the conditions on the rows, and
weights are `isize`, hence those on the weights.
-/

namespace PgMicro.Incremental

open ZSet List StateTables

variable {c : HashableRow × ℤ} {t1 t2 : JoinTables}

theorem sqlKeysEqual_self {key : HashableRow} (h : ∀ v ∈ key.values, v ≠ .null) :
    sqlKeysEqual key key = true := by
  rw [sqlKeysEqual, beq_self_eq_true, Bool.true_and, all_eq_true]
  intro p hp
  obtain ⟨v, hv, rfl⟩ : ∃ v ∈ key.values, p = (v, v) := by
    rw [zip_eq_zipWith, zipWith_self] at hp
    obtain ⟨v, hv, rfl⟩ := mem_map.1 hp
    exact ⟨v, hv, rfl⟩
  simp [h v hv, Value.eq_refl]

/-- The weight is at most one that accumulates. -/
def Reached (changes : Delta) (w : ℤ) : Prop :=
  ∃ done, done <+: changes ∧ ∃ row, |w| ≤ ofChanges done row

section

variable {changes done : Delta}

theorem reached_of_mem
    (h : ∀ done, done <+: changes → ∀ row, 0 ≤ ofChanges done row ∧ ofChanges done row < 2 ^ 63)
    (hc : c ∈ changes) : Reached changes c.2 := by
  obtain ⟨before, after, rfl⟩ := append_of_mem hc
  have hprefix : before ++ [c] <+: before ++ c :: after :=
    (prefix_append_right_inj _).2 (prefix_append [c] after)
  have hsum : ofChanges (before ++ [c]) c.1 = ofChanges before c.1 + c.2 := by
    rw [ofChanges_append, ofChanges_cons, ofChanges_nil, add_zero, Finsupp.add_apply,
      Finsupp.single_eq_same]
  have hbefore := (h before (prefix_append ..) c.1).1
  have hafter := (h _ hprefix c.1).1
  rcases le_total 0 c.2 with hweight | hweight
  · exact ⟨_, hprefix, c.1, by rw [abs_of_nonneg hweight]; omega⟩
  · exact ⟨_, prefix_append .., c.1, by rw [abs_of_nonpos hweight]; omega⟩

theorem Keyed.reached {storageId : Int64} {indexKey : HashableRow → StorageKey}
    {named : HashableRow → Prop} {rows : List (TableRow StorageKey HashableRow)}
    (hkeyed : Keyed storageId indexKey named rows) (hnodup : (rows.map TableRow.key).Nodup)
    (hrows : ofChanges (stored storageId rows) = ofChanges done) (hdone : done <+: changes)
    (h : ∀ row, 0 ≤ ofChanges done row ∧ ofChanges done row < 2 ^ 63)
    (hc : c ∈ stored storageId rows) : Reached changes c.2 := by
  obtain ⟨r, hr, rfl⟩ := mem_map.1 hc
  obtain ⟨hr, hid⟩ := mem_filter.1 hr
  obtain ⟨front, back, rfl⟩ := append_of_mem hr
  have hweight := hkeyed.weight hnodup perm_middle (of_decide_eq_true hid)
  rw [hrows] at hweight
  have hnonneg := (h r.blob).1
  rw [hweight] at hnonneg
  exact ⟨done, hdone, r.blob, by rw [abs_of_nonneg hnonneg, hweight]⟩

end

namespace JoinOperator

variable (hashStr : List UInt8 → Hash128) (op : JoinOperator)

def leftChanges (pairs : List DeltaPair) : Delta := pairs.flatMap DeltaPair.left

def rightChanges (pairs : List DeltaPair) : Delta := pairs.flatMap DeltaPair.right

theorem storageId_ne : op.leftStorageId.toInt ≠ op.rightStorageId.toInt := by
  intro heq
  have hbit := congrArg (fun i : Int64 => i.toBitVec.getLsbD 2) (Int64.toInt_inj.1 heq)
  simp [leftStorageId, rightStorageId, generateStorageId] at hbit

/-- No two rows that occur are mistaken for each other, no row goes below zero even inside a
delta, neither the weights that accumulate nor the products of two of them leave `isize`, and no
entry of the operator lies in an interior page of the index. -/
structure Admissible (interior : Nat → IndexEntry StorageKey → Bool) (pairs : List DeltaPair) :
    Prop where
  leftNonNull : ∀ l ∈ leftChanges pairs, ∀ v ∈ (op.leftKey l.1).values, v ≠ .null
  rightNonNull : ∀ r ∈ rightChanges pairs, ∀ v ∈ (op.rightKey r.1).values, v ≠ .null
  alike : ∀ l ∈ leftChanges pairs, ∀ r ∈ rightChanges pairs,
    sqlKeysEqual (op.leftKey l.1) (op.rightKey r.1) = true → op.leftKey l.1 = op.rightKey r.1
  keyHash : ∀ l ∈ leftChanges pairs, ∀ r ∈ rightChanges pairs,
    (op.leftKey l.1).cachedHash hashStr = (op.rightKey r.1).cachedHash hashStr →
      op.leftKey l.1 = op.rightKey r.1
  leftHash : ∀ l ∈ leftChanges pairs, ∀ l' ∈ leftChanges pairs,
    l.1.cachedHash hashStr = l'.1.cachedHash hashStr → l.1 = l'.1
  rightHash : ∀ r ∈ rightChanges pairs, ∀ r' ∈ rightChanges pairs,
    r.1.cachedHash hashStr = r'.1.cachedHash hashStr → r.1 = r'.1
  leftWeights : ∀ done, done <+: leftChanges pairs → ∀ row,
    0 ≤ ofChanges done row ∧ ofChanges done row < 2 ^ 63
  rightWeights : ∀ done, done <+: rightChanges pairs → ∀ row,
    0 ≤ ofChanges done row ∧ ofChanges done row < 2 ^ 63
  products : ∀ ls, ls <+: leftChanges pairs → ∀ rs, rs <+: rightChanges pairs → ∀ l r,
    ofChanges ls l * ofChanges rs r < 2 ^ 63
  leaves : ∀ n (e : IndexEntry StorageKey),
    e.key.storageId = op.leftStorageId.toInt ∨ e.key.storageId = op.rightStorageId.toInt →
      interior n e = false

section

variable {hashStr op} {interior : Nat → IndexEntry StorageKey → Bool} {pairs : List DeltaPair}

def LeftNamed (pairs : List DeltaPair) (row : HashableRow) : Prop :=
  ∃ c ∈ leftChanges pairs, c.1 = row

def RightNamed (pairs : List DeltaPair) (row : HashableRow) : Prop :=
  ∃ c ∈ rightChanges pairs, c.1 = row

variable (hashStr op) in
def hashHit (l r : HashableRow) : Bool :=
  (op.leftKey l).cachedHash hashStr = (op.rightKey r).cachedHash hashStr

variable (op) in
def sqlHit (l r : HashableRow) : Bool := sqlKeysEqual (op.leftKey l) (op.rightKey r)

section

variable (h : Admissible hashStr op interior pairs)

include h

theorem Admissible.hashHit_eq {l r : HashableRow}
    (hl : LeftNamed pairs l) (hr : RightNamed pairs r) :
    op.hashHit hashStr l r = op.sqlHit l r := by
  obtain ⟨l, hl, rfl⟩ := hl
  obtain ⟨r, hr, rfl⟩ := hr
  rw [Bool.eq_iff_iff, hashHit, sqlHit, decide_eq_true_iff]
  constructor
  · intro heq
    rw [← h.keyHash l hl r hr heq]
    exact sqlKeysEqual_self (h.leftNonNull l hl)
  · intro heq
    rw [h.alike l hl r hr heq]

theorem Admissible.isize_mul {w v : ℤ} (hw : Reached (leftChanges pairs) w)
    (hv : Reached (rightChanges pairs) v) : isize (w * v) = w * v := by
  obtain ⟨ls, hls, l, hl⟩ := hw
  obtain ⟨rs, hrs, r, hr⟩ := hv
  have hlt := h.products ls hls rs hrs l r
  have habs : |w * v| ≤ ofChanges ls l * ofChanges rs r := by
    rw [abs_mul]
    exact mul_le_mul hl hr (abs_nonneg v) ((abs_nonneg w).trans hl)
  obtain ⟨hge, hle⟩ := abs_le.1 habs
  exact isize_eq (by omega) (hle.trans_lt hlt)

theorem leftIndexKey_injOn (row row' : HashableRow)
    (hrow : LeftNamed pairs row) (hrow' : LeftNamed pairs row')
    (heq : op.leftIndexKey hashStr row = op.leftIndexKey hashStr row') : row = row' := by
  obtain ⟨c, hc, rfl⟩ := hrow
  obtain ⟨c', hc', rfl⟩ := hrow'
  exact h.leftHash c hc c' hc' (congrArg StorageKey.element heq)

theorem rightIndexKey_injOn (row row' : HashableRow)
    (hrow : RightNamed pairs row) (hrow' : RightNamed pairs row')
    (heq : op.rightIndexKey hashStr row = op.rightIndexKey hashStr row') : row = row' := by
  obtain ⟨c, hc, rfl⟩ := hrow
  obtain ⟨c', hc', rfl⟩ := hrow'
  exact h.rightHash c hc c' hc' (congrArg StorageKey.element heq)

end

variable (hashStr op interior pairs) in
structure Tracks (done : List DeltaPair) (t : JoinTables)
    (rows : List (TableRow StorageKey HashableRow)) : Prop where
  interior_eq : t.interior = interior
  stores : Stores t rows
  left : Keyed op.leftStorageId (op.leftIndexKey hashStr) (LeftNamed pairs) rows
  right : Keyed op.rightStorageId (op.rightIndexKey hashStr) (RightNamed pairs) rows
  leftRows : ofChanges (stored op.leftStorageId rows) = ofChanges (leftChanges done)
  rightRows : ofChanges (stored op.rightStorageId rows) = ofChanges (rightChanges done)

variable {done rest : List DeltaPair} {deltas : DeltaPair} {t : JoinTables}
  {rows : List (TableRow StorageKey HashableRow)}

theorem leftChanges_append (ps qs : List DeltaPair) :
    leftChanges (ps ++ qs) = leftChanges ps ++ leftChanges qs := flatMap_append

theorem rightChanges_append (ps qs : List DeltaPair) :
    rightChanges (ps ++ qs) = rightChanges ps ++ rightChanges qs := flatMap_append

theorem mem_leftChanges (hpairs : pairs = done ++ deltas :: rest)
    (hc : c ∈ leftChanges done ∨ c ∈ deltas.left) : c ∈ leftChanges pairs := by
  rw [hpairs, leftChanges_append, mem_append]
  exact hc.imp_right (mem_flatMap_of_mem mem_cons_self)

theorem mem_rightChanges (hpairs : pairs = done ++ deltas :: rest)
    (hc : c ∈ rightChanges done ∨ c ∈ deltas.right) : c ∈ rightChanges pairs := by
  rw [hpairs, rightChanges_append, mem_append]
  exact hc.imp_right (mem_flatMap_of_mem mem_cons_self)

theorem ofChanges_eval (h : Admissible hashStr op interior pairs)
    (ht : Tracks hashStr op interior pairs done t rows) (hpairs : pairs = done ++ deltas :: rest) :
    ofChanges (op.eval hashStr t deltas) =
      join op.sqlHit (combineRows hashStr) (ofChanges deltas.left) (ofChanges deltas.right) +
      join op.sqlHit (combineRows hashStr) (ofChanges deltas.left) (ofChanges (rightChanges done)) +
      join op.sqlHit (combineRows hashStr) (ofChanges (leftChanges done))
        (ofChanges deltas.right) := by
  have hhit : ∀ {ls rs : Delta}, (∀ c ∈ ls, LeftNamed pairs c.1) →
      (∀ c ∈ rs, RightNamed pairs c.1) →
      join (op.hashHit hashStr) (combineRows hashStr) (ofChanges ls) (ofChanges rs) =
        join op.sqlHit (combineRows hashStr) (ofChanges ls) (ofChanges rs) := by
    intro ls rs hls hrs
    refine join_congr _ _ fun l hl r hr => ?_
    obtain ⟨c, hc, rfl⟩ := exists_of_mem_support hl
    obtain ⟨d, hd, rfl⟩ := exists_of_mem_support hr
    exact h.hashHit_eq (hls c hc) (hrs d hd)
  have hleft {l : HashableRow × ℤ} (hl : l ∈ deltas.left) : Reached (leftChanges pairs) l.2 :=
    reached_of_mem h.leftWeights (mem_leftChanges hpairs (.inr hl))
  have hright {r : HashableRow × ℤ} (hr : r ∈ deltas.right) : Reached (rightChanges pairs) r.2 :=
    reached_of_mem h.rightWeights (mem_rightChanges hpairs (.inr hr))
  have hleftDone : leftChanges done <+: leftChanges pairs := by
    rw [hpairs, leftChanges_append]
    exact prefix_append ..
  have hrightDone : rightChanges done <+: rightChanges pairs := by
    rw [hpairs, rightChanges_append]
    exact prefix_append ..
  rw [eval, ofChanges_append, ofChanges_append,
    ← hhit (fun c hc => ⟨c, mem_leftChanges hpairs (.inr hc), rfl⟩)
      (fun c hc => ⟨c, mem_rightChanges hpairs (.inl hc), rfl⟩),
    ← hhit (fun c hc => ⟨c, mem_leftChanges hpairs (.inl hc), rfl⟩)
      (fun c hc => ⟨c, mem_rightChanges hpairs (.inr hc), rfl⟩)]
  congr 1
  · congr 1
    · rw [joinDeltas, flatMap_congr fun l hl => map_congr_left fun r hr =>
        congrArg (Prod.mk _) (h.isize_mul (hleft hl) (hright (mem_of_mem_filter hr)))]
      exact ofChanges_flatMap_left _ _ (fun l => ofChanges_pairs_left op.sqlHit _ l.1 l.2 _) _
    · have hscan := scan_eq_filter ht.stores
        (fun e he => ht.interior_eq ▸ h.leaves _ e (.inr he)) ht.right
      rw [processLeftJoin, flatMap_congr fun l hl => map_congr_left fun r hr =>
        congrArg (Prod.mk _) (h.isize_mul (hleft hl) (ht.right.reached ht.stores.nodup ht.rightRows
          hrightDone (h.rightWeights _ hrightDone) (mem_of_mem_filter (hscan _ ▸ hr))))]
      refine ofChanges_flatMap_left _ _ (fun l => ?_) _
      rw [hscan, ← ht.rightRows, ← ofChanges_pairs_left]
      congr 2
      exact filter_congr fun c _ => decide_eq_decide.2 eq_comm
  · have hscan := scan_eq_filter ht.stores
      (fun e he => ht.interior_eq ▸ h.leaves _ e (.inl he)) ht.left
    rw [processRightJoin, flatMap_congr fun r hr => map_congr_left fun l hl =>
      congrArg (Prod.mk _) (h.isize_mul (ht.left.reached ht.stores.nodup ht.leftRows hleftDone
        (h.leftWeights _ hleftDone) (mem_of_mem_filter (hscan _ ▸ hl))) (hright hr))]
    refine ofChanges_flatMap_right _ _ (fun r => ?_) _
    rw [hscan, ← ht.leftRows, ← ofChanges_pairs_right]
    rfl

theorem commit_of_writes (hleft : writeDelta (op.leftIndexKey hashStr) t deltas.left = .ok t1)
    (hright : writeDelta (op.rightIndexKey hashStr) t1 deltas.right = .ok t2) :
    op.commit hashStr t deltas = .ok (op.eval hashStr t deltas, t2) := by
  rw [commit, hleft]
  change Except.bind (writeDelta _ t1 _) _ = _
  rw [hright]
  rfl

theorem commitAll_cons_of_ok {output outputs : Delta}
    (hfirst : op.commit hashStr t deltas = .ok (output, t1))
    (hrest : op.commitAll hashStr t1 rest = .ok (outputs, t2)) :
    op.commitAll hashStr t (deltas :: rest) = .ok (output ++ outputs, t2) := by
  rw [commitAll, hfirst]
  change Except.bind (op.commitAll hashStr t1 rest) _ = _
  rw [hrest]
  rfl

section

variable (h : Admissible hashStr op interior pairs)
  (ht : Tracks hashStr op interior pairs done t rows)

include h ht

theorem commit_tracks (hpairs : pairs = done ++ deltas :: rest) :
    ∃ t' rows', op.commit hashStr t deltas = .ok (op.eval hashStr t deltas, t') ∧
      Tracks hashStr op interior pairs (done ++ [deltas]) t' rows' := by
  have hleftChanges : leftChanges pairs = leftChanges done ++
      (deltas.left ++ leftChanges rest) := by
    rw [hpairs, leftChanges_append]
    rfl
  have hrightChanges :
      rightChanges pairs = rightChanges done ++ (deltas.right ++ rightChanges rest) := by
    rw [hpairs, rightChanges_append]
    rfl
  obtain ⟨t1, rows1, hwrite1, hadded1⟩ :=
    writeDelta_added (fun _ => rfl) (leftIndexKey_injOn h)
      (fun n e he => ht.interior_eq ▸ h.leaves n e (.inl he)) ht.stores ht.left
      (fun c hc => ⟨c, mem_leftChanges hpairs (.inr hc), rfl⟩) (by
        intro p hp row
        rw [ht.leftRows, ← ofChanges_append]
        refine h.leftWeights _ ?_ row
        rw [hleftChanges]
        exact (prefix_append_right_inj _).2 (hp.trans (prefix_append _ _)))
  obtain ⟨hright1, hsub1⟩ := hadded1.frame op.storageId_ne.symm
  obtain ⟨t2, rows2, hwrite2, hadded2⟩ :=
    writeDelta_added (fun _ => rfl) (rightIndexKey_injOn h)
      (fun n e he => hadded1.interior ▸ ht.interior_eq ▸ h.leaves n e (.inr he)) hadded1.stores
      (ht.right.subset hsub1) (fun c hc => ⟨c, mem_rightChanges hpairs (.inr hc), rfl⟩) (by
        intro p hp row
        rw [hright1, ht.rightRows, ← ofChanges_append]
        refine h.rightWeights _ ?_ row
        rw [hrightChanges]
        exact (prefix_append_right_inj _).2 (hp.trans (prefix_append _ _)))
  obtain ⟨hleft2, hsub2⟩ := hadded2.frame op.storageId_ne
  refine ⟨t2, rows2, commit_of_writes hwrite1 hwrite2, ?_, hadded2.stores,
    hadded1.keyed.subset hsub2, hadded2.keyed, ?_, ?_⟩
  · rw [hadded2.interior, hadded1.interior, ht.interior_eq]
  · rw [hleft2, hadded1.zset, ht.leftRows, leftChanges_append, ofChanges_append]
    simp [leftChanges]
  · rw [hadded2.zset, hright1, ht.rightRows, rightChanges_append, ofChanges_append]
    simp [rightChanges]

theorem commitAll_tracks (hpairs : pairs = done ++ rest) :
    ∃ outputs t', op.commitAll hashStr t rest = .ok (outputs, t') ∧
      join op.sqlHit (combineRows hashStr) (ofChanges (leftChanges done))
          (ofChanges (rightChanges done)) + ofChanges outputs =
        join op.sqlHit (combineRows hashStr) (ofChanges (leftChanges pairs))
          (ofChanges (rightChanges pairs)) := by
  induction rest generalizing done t rows with
  | nil =>
    rw [append_nil] at hpairs
    exact ⟨[], t, rfl, by rw [ofChanges_nil, add_zero, hpairs]⟩
  | cons deltas rest ih =>
    obtain ⟨t1, rows1, hcommit, ht1⟩ := commit_tracks h ht hpairs
    obtain ⟨outputs, t2, hrest, hjoin⟩ := ih ht1 (by rw [hpairs, append_assoc]; rfl)
    refine ⟨op.eval hashStr t deltas ++ outputs, t2, commitAll_cons_of_ok hcommit hrest, ?_⟩
    rw [← hjoin, ofChanges_append, ofChanges_eval h ht hpairs, ← add_assoc, leftChanges_append,
      rightChanges_append, ofChanges_append, ofChanges_append, ← join_add_add]
    simp [leftChanges, rightChanges]

end

def firstColumns : JoinOperator := ⟨1, [0], [0]⟩

end

end JoinOperator

end PgMicro.Incremental
