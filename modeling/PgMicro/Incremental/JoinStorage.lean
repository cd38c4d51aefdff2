import PgMicro.Incremental.JoinOperator
import PgMicro.Incremental.StoredRows
import PgMicro.ZSet.Join

/-!
# Scanning and writing the rows of a join

A scan reads the stored rows of one storage id and key hash. Writing a delta adds it to the Z-set
of the rows stored for its side, as long as no row goes below zero on the way.
-/

namespace PgMicro.Incremental

open ZSet List

variable {front rows : List (TableRow StorageKey HashableRow)} {k : StorageKey}
  {last : Option Hash128} {changes : Delta} {storageId : Int64} {zset : Hash128} {t : JoinTables}
  {indexKey : HashableRow → StorageKey} {named : HashableRow → Prop}

def StorageKey.group (k : StorageKey) : ℤ ×ₗ Hash128 := toLex (k.storageId, k.zset)

theorem StorageKey.group_le {k' : StorageKey} (h : k < k') : k.group ≤ k'.group := by
  rw [group, group, Prod.Lex.le_iff]
  rcases Prod.Lex.lt_iff.1 h with hid | ⟨hid, hrest⟩
  · exact Or.inl hid
  · refine Or.inr ⟨hid, ?_⟩
    rcases Prod.Lex.lt_iff.1 hrest with hz | ⟨hz, -⟩
    · exact hz.le
    · exact hz.le

theorem storageKey_eq (h : k.group = toLex (storageId.toInt, zset)) :
    storageKey storageId zset k.element = k := by
  obtain ⟨hid, hz⟩ := Prod.mk.inj (toLex.injective h)
  rw [storageKey, ← hid, ← hz]
  rfl

theorem group_eq_iff :
    k.group = toLex (storageId.toInt, zset) ↔ k.storageId = storageId.toInt ∧ k.zset = zset :=
  toLex.injective.eq_iff.trans Prod.mk_inj

section

theorem readNextJoinRow_eq {back : List (TableRow StorageKey HashableRow)}
    (h : Stores t (front ++ back))
    (hleaf : ∀ e : IndexEntry StorageKey, e.key.storageId = storageId.toInt →
      t.interior t.changes e = false)
    (hfront : ∀ r ∈ front, joinSeek storageId zset last r.key = false)
    (hback : ∀ r ∈ back, joinSeek storageId zset last r.key = true) :
    readNextJoinRow t storageId zset last =
      back.head?.bind fun r => if r.key.group = toLex (storageId.toInt, zset) then
        some (r.key.element, r.blob, r.weight) else none := by
  have hfind : t.index.find? (fun e => joinSeek storageId zset last e.key) =
      back.head?.map TableRow.entry := by
    rw [h.index, map_append, find?_append, find?_eq_none.2, Option.none_or]
    · cases back with
      | nil => rfl
      | cons r back => exact find?_cons_of_pos (hback r mem_cons_self)
    · intro e he
      obtain ⟨r, hr, rfl⟩ := mem_map.1 he
      exact Bool.eq_false_iff.1 (hfront r hr)
  rw [readNextJoinRow, StateTables.seek, hfind]
  cases back with
  | nil => rfl
  | cons r back =>
    have hrow := h.row_of_mem (r := r) (mem_append_right _ mem_cons_self)
    rw [head?_cons, Option.map_some, Option.bind_some]
    by_cases hgroup : r.key.group = toLex (storageId.toInt, zset)
    · obtain ⟨hid, hz⟩ := group_eq_iff.1 hgroup
      simp only [Option.filter, hleaf r.entry hid, Bool.not_false, if_true, if_pos hgroup]
      simp [TableRow.entry, hid, hz, ne_eq, not_true_eq_false, or_self, hrow,
        Option.map_some]
    · have hout : r.entry.key.storageId ≠ storageId.toInt ∨ r.entry.key.zset ≠ zset := by
        by_contra hin
        push Not at hin
        exact hgroup (group_eq_iff.2 hin)
      rw [if_neg hgroup, Option.filter]
      split_ifs
      · exact if_pos hout
      · rfl

variable {back : List (TableRow StorageKey HashableRow)}

theorem scanFrom_eq (hleaf : ∀ e : IndexEntry StorageKey, e.key.storageId = storageId.toInt →
      t.interior t.changes e = false) {rounds : Nat} (hrounds : back.length < rounds)
    (h : Stores t (front ++ back))
    (hfront : ∀ r ∈ front, joinSeek storageId zset last r.key = false)
    (hback : ∀ r ∈ back, joinSeek storageId zset last r.key = true) :
    scanFrom t storageId zset rounds last =
      (back.takeWhile fun r => r.key.group = toLex (storageId.toInt, zset)).map fun r =>
        (r.blob, r.weight) := by
  -- the rows still ahead get fewer by the one just read
  induction back generalizing rounds front last with
  | nil =>
    obtain ⟨rounds, rfl⟩ := Nat.exists_eq_succ_of_ne_zero (Nat.ne_zero_of_lt hrounds)
    rw [scanFrom, readNextJoinRow_eq h hleaf hfront hback]
    rfl
  | cons r back ih =>
    obtain ⟨rounds, rfl⟩ := Nat.exists_eq_succ_of_ne_zero (Nat.ne_zero_of_lt hrounds)
    rw [scanFrom, readNextJoinRow_eq h hleaf hfront hback, head?_cons, Option.bind_some]
    by_cases hgroup : r.key.group = toLex (storageId.toInt, zset)
    · obtain ⟨-, hsorted, hcross⟩ := pairwise_append.1 h.sorted
      rw [if_pos hgroup, takeWhile_cons_of_pos (by simpa using hgroup), map_cons]
      have hpassed : Stores t ((front ++ [r]) ++ back) := by
        rwa [append_assoc, singleton_append]
      refine congrArg _ (ih (Nat.lt_of_succ_lt_succ hrounds) hpassed ?_ ?_)
      · intro s hs
        rw [joinSeek, storageKey_eq hgroup, decide_eq_false_iff_not, not_lt]
        rcases mem_append.1 hs with hs | hs
        · exact (hcross s hs r mem_cons_self).le
        · rw [mem_singleton.1 hs]
      · intro s hs
        rw [joinSeek, storageKey_eq hgroup, decide_eq_true_iff]
        exact (pairwise_cons.1 hsorted).1 s hs
    · rw [if_neg hgroup, takeWhile_cons_of_neg (by simpa using hgroup)]
      rfl

theorem exists_split {p : StorageKey → Bool}
    (hmono : ∀ {k k' : StorageKey}, k < k' → p k = true → p k' = true)
    (hsorted : rows.Pairwise fun a b => a.key < b.key) :
    ∃ front back, rows = front ++ back ∧ (∀ r ∈ front, p r.key = false) ∧
      ∀ r ∈ back, p r.key = true := by
  induction rows with
  | nil => exact ⟨[], [], rfl, nofun, nofun⟩
  | cons r rows ih =>
    obtain ⟨hr, hrows⟩ := pairwise_cons.1 hsorted
    cases hp : p r.key with
    | true =>
      refine ⟨[], r :: rows, rfl, nofun, forall_mem_cons.2 ⟨hp, ?_⟩⟩
      exact fun s hs => hmono (hr s hs) hp
    | false =>
      obtain ⟨front, back, rfl, hfront, hback⟩ := ih hrows
      exact ⟨r :: front, back, rfl, forall_mem_cons.2 ⟨hp, hfront⟩, hback⟩

theorem takeWhile_group {g : ℤ ×ₗ Hash128} (hsorted : back.Pairwise fun a b => a.key < b.key)
    (hback : ∀ r ∈ back, g ≤ r.key.group) :
    (back.takeWhile fun r => r.key.group = g) = back.filter fun r => r.key.group = g := by
  induction back with
  | nil => rfl
  | cons r back ih =>
    obtain ⟨hr, hrest⟩ := pairwise_cons.1 hsorted
    obtain ⟨hle, hback⟩ := forall_mem_cons.1 hback
    by_cases hgroup : r.key.group = g
    · rw [takeWhile_cons_of_pos (by simpa using hgroup),
        filter_cons_of_pos (by simpa using hgroup), ih hrest hback]
    rw [takeWhile_cons_of_neg (by simpa using hgroup),
      filter_cons_of_neg (by simpa using hgroup), eq_comm, filter_eq_nil_iff]
    intro s hs
    have hlt : g < s.key.group := (lt_of_le_of_ne hle (Ne.symm hgroup)).trans_le
      (StorageKey.group_le (hr s hs))
    simpa using hlt.ne'

theorem scan_eq (h : Stores t rows)
    (hleaf : ∀ e : IndexEntry StorageKey, e.key.storageId = storageId.toInt →
      t.interior t.changes e = false) :
    scan t storageId zset =
      (rows.filter fun r => r.key.group = toLex (storageId.toInt, zset)).map fun r =>
        (r.blob, r.weight) := by
  obtain ⟨front, back, rfl, hfront, hback⟩ :=
    exists_split (p := joinSeek storageId zset none) (fun hlt hp => by
      rw [joinSeek, decide_eq_true_iff] at hp ⊢
      exact hp.trans (StorageKey.group_le hlt)) h.sorted
  have hlength : back.length < t.index.length + 1 := by
    rw [h.index, length_map, length_append]
    omega
  rw [scan, scanFrom_eq hleaf hlength h hfront hback,
    takeWhile_group (pairwise_append.1 h.sorted).2.1 fun r hr =>
      of_decide_eq_true (hback r hr), filter_append]
  have hpassed : (front.filter fun r => r.key.group = toLex (storageId.toInt, zset)) = [] := by
    rw [filter_eq_nil_iff]
    intro r hr hgroup
    exact of_decide_eq_false (hfront r hr) (of_decide_eq_true hgroup).ge
  rw [hpassed, nil_append]

end

def stored (storageId : Int64) (rows : List (TableRow StorageKey HashableRow)) : Delta :=
  (rows.filter fun r => r.key.storageId = storageId.toInt).map fun r => (r.blob, r.weight)

section

variable {rows' : List (TableRow StorageKey HashableRow)} {r : TableRow StorageKey HashableRow}

theorem stored_perm (h : rows.Perm rows') : (stored storageId rows).Perm (stored storageId rows') :=
  (h.filter _).map _

theorem stored_cons_of_pos (h : r.key.storageId = storageId.toInt) :
    stored storageId (r :: rows) = (r.blob, r.weight) :: stored storageId rows := by
  rw [stored, filter_cons_of_pos (by simpa using h), map_cons, stored]

structure Keyed (storageId : Int64) (indexKey : HashableRow → StorageKey)
    (named : HashableRow → Prop) (rows : List (TableRow StorageKey HashableRow)) : Prop where
  key : ∀ r ∈ rows, r.key.storageId = storageId.toInt → r.key = indexKey r.blob
  blob : ∀ r ∈ rows, r.key.storageId = storageId.toInt → named r.blob

section

variable (h : Keyed storageId indexKey named rows)

include h

theorem Keyed.subset (hsub : ∀ r ∈ rows', r.key.storageId = storageId.toInt → r ∈ rows) :
    Keyed storageId indexKey named rows' :=
  ⟨fun r hr hid => h.key r (hsub r hr hid) hid, fun r hr hid => h.blob r (hsub r hr hid) hid⟩

theorem Keyed.cons {r : TableRow StorageKey HashableRow} (hkey : r.key = indexKey r.blob)
    (hnamed : named r.blob) (hsub : rows' ⊆ r :: rows) : Keyed storageId indexKey named rows' := by
  constructor <;> intro s hs hid <;> rcases mem_cons.1 (hsub hs) with rfl | hs
  exacts [hkey, h.key s hs hid, hnamed, h.blob s hs hid]

theorem Keyed.weight (hnodup : (rows.map TableRow.key).Nodup)
    {rest : List (TableRow StorageKey HashableRow)} (hperm : rows.Perm (r :: rest))
    (hid : r.key.storageId = storageId.toInt) :
    ofChanges (stored storageId rows) r.blob = r.weight := by
  have hfresh := (nodup_cons.1 ((hperm.map TableRow.key).nodup hnodup)).1
  rw [ofChanges_perm (stored_perm hperm), stored_cons_of_pos hid, ofChanges_cons,
    Finsupp.add_apply, Finsupp.single_eq_same, ofChanges_apply_of_notMem, add_zero]
  intro c hc heq
  obtain ⟨s, hs, rfl⟩ := mem_map.1 hc
  obtain ⟨hs, hsid⟩ := mem_filter.1 hs
  have hskey := h.key s (hperm.symm.subset (mem_cons_of_mem _ hs)) (of_decide_eq_true hsid)
  have hrkey := h.key r (hperm.symm.subset mem_cons_self) hid
  refine hfresh (mem_map.2 ⟨s, hs, ?_⟩)
  rw [hskey, hrkey]
  exact congrArg indexKey heq

end

end

theorem scan_eq_filter {t : JoinTables} {rows : List (TableRow StorageKey HashableRow)}
    {indexKey : HashableRow → StorageKey} {named : HashableRow → Prop} (h : Stores t rows)
    (hleaf : ∀ e : IndexEntry StorageKey, e.key.storageId = storageId.toInt →
      t.interior t.changes e = false) (hkeyed : Keyed storageId indexKey named rows)
    (zset : Hash128) :
    scan t storageId zset = (stored storageId rows).filter fun c => (indexKey c.1).zset = zset := by
  rw [scan_eq h hleaf, stored, filter_map, filter_filter]
  congr 1
  refine filter_congr fun r hr => ?_
  by_cases hid : r.key.storageId = storageId.toInt
  · simp [group_eq_iff, hid, ← hkeyed.key r hr hid]
  · simp [group_eq_iff, hid]

structure Added (storageId : Int64) (indexKey : HashableRow → StorageKey)
    (named : HashableRow → Prop) (changes : Delta) (t t' : JoinTables)
    (rows rows' : List (TableRow StorageKey HashableRow)) : Prop where
  interior : t'.interior = t.interior
  stores : Stores t' rows'
  keyed : Keyed storageId indexKey named rows'
  zset : ofChanges (stored storageId rows') =
    ofChanges (stored storageId rows) + ofChanges changes
  others : (rows'.filter fun r => r.key.storageId ≠ storageId.toInt).Perm
    (rows.filter fun r => r.key.storageId ≠ storageId.toInt)

section

theorem Stores.nodup (h : Stores t rows) : (rows.map TableRow.key).Nodup :=
  pairwise_map.2 (h.sorted.imp ne_of_lt)

theorem Added.frame {t' : JoinTables} {rows' : List (TableRow StorageKey HashableRow)}
    (h : Added storageId indexKey named changes t t' rows rows') {otherId : Int64}
    (hne : otherId.toInt ≠ storageId.toInt) :
    ofChanges (stored otherId rows') = ofChanges (stored otherId rows) ∧
      ∀ r ∈ rows', r.key.storageId = otherId.toInt → r ∈ rows := by
  have hstored : ∀ l : List (TableRow StorageKey HashableRow), stored otherId l =
      stored otherId (l.filter fun r => r.key.storageId ≠ storageId.toInt) := by
    intro l
    rw [stored, stored, filter_filter]
    congr 2
    funext r
    by_cases hr : r.key.storageId = otherId.toInt
    · simp [hr, hne]
    · simp [hr]
  constructor
  · rw [hstored rows', hstored rows, ofChanges_perm (stored_perm h.others)]
  · intro r hr hid
    have hmem := h.others.subset (mem_filter.2 ⟨hr, by simpa using fun h => hne (hid ▸ h)⟩)
    exact mem_of_mem_filter hmem

variable (hid : ∀ row, (indexKey row).storageId = storageId.toInt)
  (hinj : ∀ row row', named row → named row' → indexKey row = indexKey row' → row = row')
  (hleaf : ∀ n (e : IndexEntry StorageKey), e.key.storageId = storageId.toInt →
    t.interior n e = false)
  (h : Stores t rows) (hkeyed : Keyed storageId indexKey named rows)

include hid hinj hleaf h hkeyed

theorem writeRow_added {row : HashableRow} (hnamed : named row) {weight : Int}
    (hweight : 0 ≤ ofChanges (stored storageId rows) row + weight)
    (hfits : ofChanges (stored storageId rows) row + weight < 2 ^ 63) :
    ∃ t' rows', t.writeRow (indexKey row) row weight = .ok t' ∧
      Added storageId indexKey named [(row, weight)] t t' rows rows' := by
  obtain ⟨t', rows', hwrite, hinterior, hstores, hwritten⟩ :=
    h.writeRow (fun e (he : e.key = indexKey row) => hleaf _ e (he ▸ hid row)) row weight
  refine ⟨t', rows', hwrite, ?_⟩
  -- a row under the key of the one written is that row
  have hblob : ∀ r ∈ rows, r.key = indexKey row → r.blob = row := by
    intro r hr hkey
    have hrid : r.key.storageId = storageId.toInt := hkey ▸ hid row
    exact hinj _ _ (hkeyed.blob r hr hrid) hnamed ((hkeyed.key r hr hrid).symm.trans hkey)
  -- and its new weight needs no wrapping
  have hsum : ∀ {r rest}, rows.Perm (r :: rest) → r.key = indexKey row →
      0 ≤ r.weight + weight ∧ isize (r.weight + weight) = r.weight + weight := by
    intro r rest hperm hkey
    rw [← hblob r (hperm.symm.subset mem_cons_self) hkey,
      hkeyed.weight h.nodup hperm (hkey ▸ hid row)] at hweight hfits
    exact ⟨hweight, isize_eq (by omega) hfits⟩
  cases hwritten with
  | inserted rowid habsent hperm =>
    refine ⟨hinterior, hstores, hkeyed.cons rfl hnamed hperm.subset, ?_, ?_⟩
    · rw [ofChanges_perm (stored_perm hperm), stored_cons_of_pos (hid row), ofChanges_cons,
        ofChanges_cons, ofChanges_nil, add_zero, add_comm]
    · refine (hperm.filter _).trans ?_
      rw [filter_cons_of_neg (by simpa using hid row)]
  | deleted r hkey hperm hgone =>
    have hr : r ∈ rows := hperm.symm.subset mem_cons_self
    have hrid : r.key.storageId = storageId.toInt := hkey ▸ hid row
    have hzero : weight = -r.weight := by
      obtain ⟨hnonneg, hexact⟩ := hsum hperm hkey
      omega
    refine ⟨hinterior, hstores, hkeyed.subset ?_, ?_, ?_⟩
    · exact fun s hs _ => hperm.symm.subset (mem_cons_of_mem _ hs)
    · rw [ofChanges_perm (stored_perm hperm), stored_cons_of_pos hrid, ofChanges_cons,
        ofChanges_cons, ofChanges_nil, hblob r hr hkey, hzero, Finsupp.single_neg]
      abel
    · refine ((hperm.filter _).trans ?_).symm
      rw [filter_cons_of_neg (by simpa using hrid)]
  | updated r rest hkey hperm hperm' hkept =>
    have hr : r ∈ rows := hperm.symm.subset mem_cons_self
    have hrid : r.key.storageId = storageId.toInt := hkey ▸ hid row
    have hrest : Keyed storageId indexKey named rest :=
      hkeyed.subset fun s hs _ => hperm.symm.subset (mem_cons_of_mem _ hs)
    refine ⟨hinterior, hstores, hrest.cons rfl hnamed hperm'.subset, ?_, ?_⟩
    · rw [ofChanges_perm (stored_perm hperm'), ofChanges_perm (stored_perm hperm),
        stored_cons_of_pos (hid row), stored_cons_of_pos hrid, ofChanges_cons, ofChanges_cons,
        ofChanges_cons, ofChanges_nil, hblob r hr hkey, (hsum hperm hkey).2, Finsupp.single_add]
      abel
    · refine (hperm'.filter _).trans ((hperm.filter _).trans ?_).symm
      rw [filter_cons_of_neg (by simpa using hrid),
        filter_cons_of_neg (by simpa using hid row)]

theorem writeDelta_added (hnamed : ∀ c ∈ changes, named c.1)
    (hweight : ∀ done, done <+: changes → ∀ row,
      0 ≤ (ofChanges (stored storageId rows) + ofChanges done) row ∧
        (ofChanges (stored storageId rows) + ofChanges done) row < 2 ^ 63) :
    ∃ t' rows', JoinOperator.writeDelta indexKey t changes = .ok t' ∧
      Added storageId indexKey named changes t t' rows rows' := by
  induction changes generalizing t rows with
  | nil => exact ⟨t, rows, rfl, rfl, h, hkeyed, (add_zero _).symm, .refl _⟩
  | cons c changes ih =>
    obtain ⟨row, weight⟩ := c
    obtain ⟨hrow, hnamed⟩ := forall_mem_cons.1 hnamed
    have hfirst := hweight [(row, weight)] (prefix_append _ changes) row
    rw [ofChanges_cons, ofChanges_nil, add_zero, Finsupp.add_apply, Finsupp.single_eq_same]
      at hfirst
    obtain ⟨t1, rows1, hwrite, hadded⟩ :=
      writeRow_added hid hinj hleaf h hkeyed hrow hfirst.1 hfirst.2
    have hzset : ofChanges (stored storageId rows1) =
        ofChanges (stored storageId rows) + Finsupp.single row weight := by
      rw [hadded.zset, ofChanges_cons, ofChanges_nil, add_zero]
    obtain ⟨t2, rows2, hwrites, hrest⟩ :=
      ih (hadded.interior ▸ hleaf) hadded.stores hadded.keyed hnamed (by
        intro done hdone row'
        have hmore := hweight _ ((prefix_cons_inj _).2 hdone) row'
        rwa [ofChanges_cons, ← add_assoc, ← hzset] at hmore)
    refine ⟨t2, rows2, ?_, hrest.interior.trans hadded.interior, hrest.stores, hrest.keyed, ?_,
      hrest.others.trans hadded.others⟩
    · rw [JoinOperator.writeDelta, hwrite]
      exact hwrites
    · rw [hrest.zset, hzset, add_assoc, ofChanges_cons]

end

end PgMicro.Incremental
