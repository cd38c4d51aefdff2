import PgMicro.Mvcc.Reading

/-!
# Writes refine the protocol

Adding a version is an installation, ending the visible one supersedes it. The position
`insert_version_raw` finds leaves only younger versions behind the new one.
-/

namespace PgMicro.Mvcc

open MultiVersion Function List RowVersion TransactionState Option MvStore Transaction

variable {κ η : Type} {rv : RowVersion κ} {tx : Transaction κ η} {id r : RowID κ}
  {clash : RowID κ → RowID κ → Prop} {tracked : RowID κ → Prop} {g : Ghosts κ} {s : MvStore κ η}
  {t : TxID} {begin_ end_ : Option TxTimestampOrID} {n : Nat}

section

variable [DecidableEq κ] {txs : Txs κ η}

theorem insertVersionScan_spec (hnew : resolveBeginTimestamp txs rv.begin_ = some n)
    (hopen : ∀ u, sameBeginTimestamp u rv.begin_ = false) (versions : List (RowVersion κ)) :
    (∀ u ∈ versions, (resolveBeginTimestamp txs u.begin_).isSome) →
    ∃ newer older, versions = newer ++ older ∧
      insertVersionScan txs rv versions = some (newer ++ rv :: older) ∧
      ∀ u ∈ newer, ∃ m, resolveBeginTimestamp txs u.begin_ = some m ∧ n < m := by
  induction versions with
  | nil =>
    intro _
    exact ⟨[], [], rfl, rfl, fun u hu => by cases hu⟩
  | cons v versions ih =>
    intro hres
    obtain ⟨m, hm⟩ := isSome_iff_exists.1 (hres v mem_cons_self)
    simp only [insertVersionScan, hm, hnew, hopen, bind_eq_bind]
    by_cases hle : m ≤ n
    · refine ⟨[], v :: versions, rfl, ?_, fun u hu => by cases hu⟩
      simp [hle]
    obtain ⟨newer, older, rfl, hscan, hnewer⟩ :=
      ih fun u hu => hres u (mem_cons_of_mem _ hu)
    refine ⟨v :: newer, older, rfl, ?_, ?_⟩
    · simp [hle, hscan]
    · intro u hu
      rcases mem_cons.1 hu with rfl | hu
      · exact ⟨m, hm, Nat.lt_of_not_le hle⟩
      · exact hnewer u hu

theorem insertVersionRaw_spec (hnew : resolveBeginTimestamp txs rv.begin_ = some n)
    (hopen : ∀ u, sameBeginTimestamp u rv.begin_ = false) {versions : List (RowVersion κ)}
    (hres : ∀ u ∈ versions, (resolveBeginTimestamp txs u.begin_).isSome) :
    ∃ older newer, versions = older ++ newer ∧
      insertVersionRaw txs versions rv = some (older ++ rv :: newer) ∧
      ∀ u ∈ newer, ∃ m, resolveBeginTimestamp txs u.begin_ = some m ∧ n < m := by
  obtain ⟨newer, older, heq, hscan, hnewer⟩ := insertVersionScan_spec hnew hopen versions.reverse
    fun u hu => hres u (mem_reverse.1 hu)
  refine ⟨older.reverse, newer.reverse, ?_, ?_, fun u hu => hnewer u (mem_reverse.1 hu)⟩
  · rw [← reverse_append, ← heq, reverse_reverse]
  · simp [insertVersionRaw, hscan]

end

section

variable {validated : Bool}

theorem Transaction.toTxn_recordCreated :
    (tx.recordCreated id n).toTxn validated = tx.toTxn validated := by
  unfold recordCreated
  split <;> rfl

theorem Transaction.toTxn_recordDeleted :
    (tx.recordDeleted id n).toTxn validated = tx.toTxn validated := by
  unfold recordDeleted
  split <;> rfl

variable [DecidableEq κ]

theorem Transaction.mem_insertToWriteSet (r : RowID κ) :
    r ∈ (tx.insertToWriteSet id).writeSet ↔ r = id ∨ r ∈ tx.writeSet := by
  unfold insertToWriteSet
  split
  next hmem =>
    refine ⟨.inr, ?_⟩
    rintro (rfl | hr)
    · exact hmem
    · exact hr
  · simp [modifyNewest]

theorem Transaction.toTxn_insertToWriteSet :
    (tx.insertToWriteSet id).toTxn validated =
      { tx.toTxn validated with writes := (tx.insertToWriteSet id).writeSet } := by
  unfold insertToWriteSet
  split <;> rfl

end

def Ghosts.wrote [DecidableEq κ] (g : Ghosts κ) (t : TxID) (id : RowID κ)
    (value : Option (Row κ)) : Ghosts κ :=
  { g with effect := update g.effect t (update (g.effect t) id (some value)) }

section

theorem resolveBeginTimestamp_isSome (hc : Coherent clash tracked (s.toState g))
    (hrv : rv ∈ s.rows r) : (resolveBeginTimestamp s.txs rv.begin_).isSome := by
  cases hb : rv.begin_ with
  | none => rfl
  | some ref =>
    cases ref with
    | timestamp c => rfl
    | txId d =>
      obtain ⟨x, hx, -⟩ := hc.owned.mentions r _ (mem_chain hrv) d
        (.inl (bornBy_iff.2 hb))
      obtain ⟨dep, hdep, -⟩ := txs_of_txn hx
      simp [resolveBeginTimestamp, hdep]

theorem resolveBeginTimestamp_update {txs : Txs κ η} {tx' : Transaction κ η} (htx : txs t = some tx)
    (hbegin : tx'.beginTs = tx.beginTs) (ref : Option TxTimestampOrID) :
    resolveBeginTimestamp (update txs t (some tx')) ref =
      resolveBeginTimestamp txs ref := by
  cases ref with
  | none => rfl
  | some ref =>
    cases ref with
    | timestamp c => rfl
    | txId d =>
      simp only [resolveBeginTimestamp]
      by_cases hd : d = t
      · subst hd
        rw [update_self, htx, map_some, map_some, hbegin]
      · rw [update_of_ne hd]

theorem RowVersion.bornAfter {b m : Nat} (hres : resolveBeginTimestamp s.txs rv.begin_ = some m)
    (hlt : b < m) : (s.toState g).BornAfter b rv.toVersion := by
  cases hb : rv.begin_ with
  | none =>
    rw [hb, resolveBeginTimestamp, some.injEq] at hres
    omega
  | some ref =>
    cases ref with
    | timestamp c =>
      rw [hb, resolveBeginTimestamp, some.injEq] at hres
      refine .inl ⟨c, ?_, hres ▸ hlt⟩
      simp [Version.BornAt, toVersion, hb, TxTimestampOrID.toStamp]
    | txId d =>
      rw [hb, resolveBeginTimestamp, map_eq_some_iff] at hres
      obtain ⟨dep, hdep, rfl⟩ := hres
      exact .inr ⟨d, _, bornBy_iff.2 hb, txn_of_txs hdep, hlt⟩

variable [DecidableEq κ]

def Transaction.created (tx : Transaction κ η) (id : RowID κ) (n : Nat) : Transaction κ η :=
  (tx.insertToWriteSet id).recordCreated id n

def Transaction.deleted (tx : Transaction κ η) (id : RowID κ) (n : Nat) : Transaction κ η :=
  (tx.insertToWriteSet id).recordDeleted id n

theorem Transaction.toTxn_created (validated : Bool) :
    (tx.created id n).toTxn validated =
      { tx.toTxn validated with writes := (tx.insertToWriteSet id).writeSet } :=
  toTxn_recordCreated.trans toTxn_insertToWriteSet

theorem Transaction.toTxn_deleted (validated : Bool) :
    (tx.deleted id n).toTxn validated =
      { tx.toTxn validated with writes := (tx.insertToWriteSet id).writeSet } :=
  toTxn_recordDeleted.trans toTxn_insertToWriteSet

variable [IndexKey κ]

def MvStore.withCreated (s : MvStore κ η) (t : TxID) (tx : Transaction κ η) (id : RowID κ)
    (versions : List (RowVersion κ)) : MvStore κ η :=
  { s with
    rows := update s.rows id versions
    indexKeys := s.indexKeysWith id
    txs := update s.txs t (some (tx.created id s.versionIdCounter))
    versionIdCounter := s.versionIdCounter + 1 }

theorem MvStore.addVersion_spec (hc : Coherent clash tracked (s.toState g))
    (htx : s.txs t = some tx) (hactive : tx.state = .active) (row : Row κ) (resident : Bool)
    (hmark : begin_ = some (.txId t) ∧ end_ = none ∨ begin_ = none ∧ end_ = some (.txId t)) :
    ∃ versions, s.addVersion t row begin_ end_ resident =
        some (s.withCreated t tx row.id versions) ∧
      Step clash tracked (s.toState g)
        (.install t row.id
          (toVersion ⟨s.versionIdCounter, begin_, end_, row, resident⟩))
        ((s.withCreated t tx row.id versions).toState
          (g.wrote t row.id (begin_.map fun _ => row))) := by
  let rv : RowVersion κ := ⟨s.versionIdCounter, begin_, end_, row, resident⟩
  let txs' := update s.txs t (some (tx.created row.id s.versionIdCounter))
  have hbegin : (tx.created row.id s.versionIdCounter).beginTs = tx.beginTs :=
    congrArg Txn.beginTs (toTxn_created false)
  have hresolve : ∀ ref, resolveBeginTimestamp txs' ref = resolveBeginTimestamp s.txs ref :=
    resolveBeginTimestamp_update htx hbegin
  have hnew : ∃ n, resolveBeginTimestamp txs' rv.begin_ = some n ∧
      (begin_ = some (.txId t) → n = tx.beginTs) := by
    rw [hresolve]
    rcases hmark with ⟨rfl, -⟩ | ⟨rfl, -⟩
    · exact ⟨tx.beginTs, by simp [rv, resolveBeginTimestamp, htx], fun _ => rfl⟩
    · exact ⟨0, rfl, fun h => by cases h⟩
  obtain ⟨n, hn, hnb⟩ := hnew
  have hopen : ∀ u, sameBeginTimestamp u rv.begin_ = false := by
    intro u
    rcases hmark with ⟨rfl, -⟩ | ⟨rfl, -⟩ <;> rcases u with _ | ⟨_ | _⟩ <;> rfl
  have hres : ∀ u ∈ s.rows row.id, (resolveBeginTimestamp txs' u.begin_).isSome := by
    intro u hu
    rw [hresolve]
    exact resolveBeginTimestamp_isSome hc hu
  obtain ⟨older, newer, hrows, hraw, hnewer⟩ := insertVersionRaw_spec hn hopen hres
  refine ⟨older ++ rv :: newer, ?_, ?_⟩
  · simp only [addVersion, modifyTx, htx]
    exact congrArg (Option.map _) hraw
  · have hchain : (s.toState g).chain row.id =
        older.map toVersion ++ newer.map toVersion := by
      simp [toState, toChains, hrows]
    have himage : rv.toVersion.image = begin_.map fun _ => row := by
      rcases hmark with ⟨rfl, -⟩ | ⟨rfl, -⟩ <;> rfl
    have hstep : Step clash tracked (s.toState g) (.install t row.id rv.toVersion) _ :=
      Step.install _ (txn_of_txs htx) (congrArg toStatus hactive) hchain
        rfl ?_ ?_ mem_insertToWriteSet
    · simp only [withCreated, toState, toChains_update, toTxns_update, map_append, toTxn_created,
        ← himage]
      exact hstep
    · rcases hmark with ⟨rfl, rfl⟩ | ⟨rfl, rfl⟩
      · exact .inl ⟨rfl, rfl⟩
      · exact .inr ⟨rfl, rfl⟩
    · intro hborn v hv
      obtain ⟨u, hu, rfl⟩ := mem_map.1 hv
      obtain ⟨m, hm, hlt⟩ := hnewer u hu
      rw [hresolve] at hm
      have hlt' : tx.beginTs < m := hnb (bornBy_iff.1 hborn) ▸ hlt
      exact bornAfter hm hlt'

end

section

variable {fin : TxID → Option TransactionState}

theorem Reader.free_of_not_conflict (h : Reader clash tracked g t tx s) (hrv : rv ∈ s.rows r)
    (hvis : (s.toState g).Visible t tx.beginTs rv.toVersion)
    (hconflict : isWriteWriteConflict s.txs fin tx rv = false) :
    rv.toVersion.died = none ∨
      ∃ a y, rv.toVersion.DiedBy a ∧ (s.toState g).txn a = some y ∧ y.status = .aborted := by
  cases hend : rv.end_ with
  | none => exact .inl (by simp [toVersion, hend])
  | some ref =>
    cases ref with
    | timestamp e => simp only [isWriteWriteConflict, hend, reduceCtorEq] at hconflict
    | txId d =>
      have hby : rv.toVersion.DiedBy d := diedBy_iff.2 hend
      have hne : d ≠ tx.txId := by
        rintro rfl
        exact (hvis.2 _ hby).1 (congrArg Stamp.tx h.txId)
      obtain ⟨dep, hdep, -⟩ := h.owner hrv (.inr hby)
      simp only [isWriteWriteConflict, hend, if_neg hne, lookupTxState, hdep] at hconflict
      refine .inr ⟨d, _, hby, txn_of_txs hdep, ?_⟩
      cases hst : dep.state with
      | aborted => exact congrArg toStatus hst
      | terminated => exact congrArg toStatus hst
      | active | preparing _ | committed _ => simp only [hst, reduceCtorEq] at hconflict

variable [DecidableEq κ]

def MvStore.withDeleted (s : MvStore κ η) (t : TxID) (tx : Transaction κ η) (id : RowID κ)
    (older : List (RowVersion κ)) (rv : RowVersion κ) (newer : List (RowVersion κ)) :
    MvStore κ η :=
  { s with
    rows := update s.rows id (older ++ { rv with end_ := some (.txId t) } :: newer)
    txs := update s.txs t (some (tx.deleted id rv.id)) }

theorem Reader.supersede (h : Reader clash tracked g t tx s) {cur : Transaction κ η}
    (hcur : s.txs t = some cur) {id : RowID κ} {older newer : List (RowVersion κ)}
    (hrows : s.rows id = older ++ rv :: newer)
    (hvis : (s.toState g).Visible t tx.beginTs rv.toVersion)
    (hnewer : ∀ u ∈ newer, (s.toState g).Hidden t tx.beginTs u.toVersion)
    (hconflict : isWriteWriteConflict s.txs fin tx rv = false) :
    Step clash tracked (s.toState g) (.supersede t id rv.toVersion)
      ((s.withDeleted t cur id older rv newer).toState (g.wrote t id none)) := by
  obtain ⟨cur', hcur', hactive, hbegin⟩ := h.running
  rw [hcur, some.injEq] at hcur'
  subst hcur'
  have hrv : rv ∈ s.rows id := by
    rw [hrows]
    exact mem_append_right _ mem_cons_self
  have hchain : (s.toState g).chain id = older.map toVersion ++ rv.toVersion ::
      newer.map toVersion := by
    simp [toState, toChains, hrows]
  have hfree := h.free_of_not_conflict hrv hvis hconflict
  rw [← hbegin] at hvis hnewer
  have hstep : Step clash tracked (s.toState g) (.supersede t id rv.toVersion) _ :=
    Step.supersede _ (txn_of_txs hcur) (congrArg toStatus hactive) hchain
      hfree hvis.1 ?_ mem_insertToWriteSet
  · simp only [withDeleted, toState, toChains_update, toTxns_update, map_append, toTxn_deleted]
    exact hstep
  · intro v hv
    obtain ⟨u, hu, rfl⟩ := mem_map.1 hv
    exact hnewer u hu

end

section

variable {s' : MvStore κ η}

theorem MvStore.requireActive_eq (htx : s.txs t = some tx) (hactive : tx.state = .active) :
    s.requireActive t = .ok tx := by
  simp [requireActive, htx, hactive]

theorem Reader.active (h : Reader clash tracked g t tx s) (htx : s.txs t = some tx) :
    tx.state = .active := by
  obtain ⟨cur, hcur, hactive, -⟩ := h.running
  rw [htx, some.injEq] at hcur
  exact hcur ▸ hactive

variable [DecidableEq κ]

inductive Deletes (clash : RowID κ → RowID κ → Prop) (tracked : RowID κ → Prop) (g : Ghosts κ)
    (t : TxID) (id : RowID κ) (s s' : MvStore κ η) : Except LimboError Bool → Prop where
  | missed {txs : Txs κ η} {res : Except LimboError Bool} (hl : Looked clash tracked g t s txs)
      (heq : s' = { s with txs := txs }) (hres : res ≠ .ok true) :
      Deletes clash tracked g t id s s' res
  | ended {txs : Txs κ η} {cur : Transaction κ η} {older newer : List (RowVersion κ)}
      {rv : RowVersion κ} (hl : Looked clash tracked g t s txs) (hcur : txs t = some cur)
      (hrows : s.rows id = older ++ rv :: newer)
      (heq : s' = { s with txs := txs }.withDeleted t cur id older rv newer)
      (hstep : Step clash tracked ({ s with txs := txs }.toState g)
        (.supersede t id rv.toVersion) (s'.toState (g.wrote t id none))) :
      Deletes clash tracked g t id s s' (.ok true)

variable {res : Except LimboError Bool}

theorem Reader.delete_spec (h : Reader clash tracked g t tx s) (htx : s.txs t = some tx)
    (hrun : s.deleteFromTableOrIndex t id = .ok (s', res)) :
    Deletes clash tracked g t id s s' res := by
  obtain ⟨cur, hcur, hactive, -⟩ := h.running
  rw [htx, some.injEq] at hcur
  subst hcur
  unfold deleteFromTableOrIndex at hrun
  split at hrun
  · cases hrun
    exact .missed (.refl t s) rfl (by simp)
  next v vs hrows =>
    rw [requireActive_eq htx hactive] at hrun
    rw [← hrows] at hrun
    cases hfind : findLastVisible s.txs s.finalizedTxStates tx (s.rows id).reverse [] with
    | mk txs found =>
      obtain ⟨hl, -, hsome⟩ := h.search_spec hfind
      simp only [hfind] at hrun
      cases found with
      | none =>
        cases hrun
        exact .missed hl rfl (by simp)
      | some cut =>
        obtain ⟨older, rv, newer⟩ := cut
        obtain ⟨hcut, hvis, hnewer⟩ := hsome older rv newer rfl
        simp only at hrun
        split at hrun
        · cases hrun
          exact .missed hl rfl (by simp)
        next hconflict =>
          have h1 := h.looked hl
          obtain ⟨cur, hcur, -⟩ := h1.running
          have hcur' : txs t = some cur := hcur
          cases hrun
          have heq : modifyTx { s with
                txs := txs
                rows := update s.rows id
                  (older ++ { rv with end_ := some (.txId t) } :: newer) } t
                (fun tx => (tx.insertToWriteSet id).recordDeleted id rv.id) =
              { s with txs := txs }.withDeleted t cur id older rv newer := by
            simp [modifyTx, hcur', withDeleted, deleted]
          rw [heq]
          exact .ended hl hcur' hcut rfl (h1.supersede hcur hcut hvis hnewer
            (Bool.eq_false_of_not_eq_true hconflict))

variable (tx)

theorem Transaction.created_txId (id : RowID κ) (n : Nat) : (tx.created id n).txId = tx.txId := by
  unfold created recordCreated insertToWriteSet
  split <;> split <;> rfl

theorem Transaction.deleted_core (id : RowID κ) (n : Nat) :
    (tx.deleted id n).state = tx.state ∧ (tx.deleted id n).txId = tx.txId ∧
      (tx.deleted id n).beginTs = tx.beginTs := by
  unfold deleted recordDeleted insertToWriteSet
  split <;> split <;> exact ⟨rfl, rfl, rfl⟩

variable {tx}

theorem Deletes.reader (h : Reader clash tracked g t tx s)
    (hd : Deletes clash tracked g t id s s' (.ok true)) :
    ∃ tx', s'.txs t = some tx' ∧ Reader clash tracked (g.wrote t id none) t tx' s' := by
  cases hd with
  | missed _ _ hres => exact absurd rfl hres
  | @ended txs cur older newer rv hl hcur hrows heq hstep =>
    have h1 := h.looked hl
    have hcur' : s'.txs t = some (cur.deleted id rv.id) := by
      rw [heq]
      exact update_self ..
    obtain ⟨hstate, hid, hbegin⟩ := cur.deleted_core id rv.id
    have hids : TxIdsMatch s'.txs := by
      intro u tx' htx'
      rw [heq] at htx'
      by_cases hu : u = t
      · subst hu
        simp only [withDeleted, update_self, some.injEq] at htx'
        subst htx'
        exact hid.trans (h1.ids u cur hcur)
      · simp only [withDeleted, update_of_ne hu] at htx'
        exact h1.ids u tx' htx'
    obtain ⟨cur', hcur1, hactive, -⟩ := h1.running
    rw [show ({ s with txs := txs } : MvStore κ η).txs t = some cur from hcur,
      some.injEq] at hcur1
    subst hcur1
    exact ⟨_, hcur', h1.coherent.step hstep, hids, hids t _ hcur', _, hcur',
      hstate.trans hactive, rfl⟩

variable [IndexKey κ]

/-- A version of the row has been added by `t`. -/
inductive Creates (clash : RowID κ → RowID κ → Prop) (tracked : RowID κ → Prop) (g : Ghosts κ)
    (t : TxID) (id : RowID κ) (value : Option (Row κ)) (s s' : MvStore κ η) : Prop where
  | intro {tx : Transaction κ η} {allocators : MVTableId → RowidAllocator}
      {versions : List (RowVersion κ)} {v : Version (Row κ)} (htx : s.txs t = some tx)
      (himage : v.image = value)
      (heq : s' = { s with rowidAllocators := allocators }.withCreated t tx id versions)
      (hstep : Step clash tracked (s.toState g) (.install t id v)
        (s'.toState (g.wrote t id value)))

variable (h : Reader clash tracked g t tx s) (htx : s.txs t = some tx) (row : Row κ)

include h htx

theorem Reader.creates (resident : Bool) (allocators : MVTableId → RowidAllocator)
    (hmark : begin_ = some (.txId t) ∧ end_ = none ∨ begin_ = none ∧ end_ = some (.txId t)) :
    ∃ s', { s with rowidAllocators := allocators }.addVersion t row begin_ end_ resident =
      some s' ∧ Creates clash tracked g t row.id (begin_.map fun _ => row) s s' := by
  have hc : Coherent clash tracked (toState g { s with rowidAllocators := allocators }) :=
    h.coherent
  obtain ⟨versions, hadd, hstep⟩ := addVersion_spec hc htx (h.active htx) row resident hmark
  refine ⟨_, hadd, .intro htx ?_ rfl hstep⟩
  rcases hmark with ⟨rfl, -⟩ | ⟨rfl, -⟩ <;> rfl

theorem Reader.insert_spec : ∃ s', s.insertToTableOrIndex t row = .ok s' ∧
      Creates clash tracked g t row.id (some row) s s' := by
  obtain ⟨s', hadd, hcreates⟩ := h.creates htx row false (s.noteRowid row.id) (.inl ⟨rfl, rfl⟩)
  refine ⟨s', ?_, hcreates⟩
  simp [insertToTableOrIndex, requireActive_eq htx (h.active htx), hadd,
    orPanic]

theorem Reader.insertBtreeResident_spec :
    ∃ s', s.insertBtreeResidentToTableOrIndex t row = .ok s' ∧
      Creates clash tracked g t row.id (some row) s s' := by
  obtain ⟨s', hadd, hcreates⟩ := h.creates htx row true s.rowidAllocators (.inl ⟨rfl, rfl⟩)
  refine ⟨s', ?_, hcreates⟩
  simp [insertBtreeResidentToTableOrIndex,
    requireActive_eq htx (h.active htx), hadd, orPanic]

theorem Reader.insertTombstone_spec :
    ∃ s', s.insertTombstoneToTableOrIndex t row = .ok s' ∧
      Creates clash tracked g t row.id none s s' := by
  obtain ⟨s', hadd, hcreates⟩ := h.creates htx row true s.rowidAllocators (.inr ⟨rfl, rfl⟩)
  refine ⟨s', ?_, hcreates⟩
  simp [insertTombstoneToTableOrIndex, htx, hadd, orPanic]

theorem Reader.update_spec (hrun : s.updateToTableOrIndex t row = .ok (s', res)) :
    Deletes clash tracked g t row.id s s' res ∧ res ≠ .ok true ∨
      res = .ok true ∧ ∃ s1, Deletes clash tracked g t row.id s s1 (.ok true) ∧
        Creates clash tracked (g.wrote t row.id none) t row.id (some row) s1 s' := by
  unfold updateToTableOrIndex at hrun
  split at hrun
  · cases hrun
  next s1 hdel =>
    have hd := h.delete_spec htx hdel
    obtain ⟨tx1, htx1, h1⟩ := hd.reader h
    obtain ⟨s2, hins, hcreates⟩ := h1.insert_spec htx1 row
    rw [hins, Except.map, Except.ok.injEq, Prod.mk.injEq] at hrun
    obtain ⟨rfl, rfl⟩ := hrun
    exact .inr ⟨rfl, s1, hd, hcreates⟩
  next s1 hdel =>
    cases hrun
    exact .inl ⟨h.delete_spec htx hdel, by simp⟩
  next s1 e hdel =>
    cases hrun
    exact .inl ⟨h.delete_spec htx hdel, by simp⟩

end

end PgMicro.Mvcc
