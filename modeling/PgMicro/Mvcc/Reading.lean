import PgMicro.MultiVersion.Sight
import PgMicro.Mvcc.Abstraction

/-!
# Reads refine the protocol

What a transaction finds visible in a chain is visible in the abstract state, what it
passes over is hidden, and its commit dependencies are steps of the protocol.
-/

namespace PgMicro.Mvcc

open MultiVersion Function List Option MvStore RowVersion TransactionState Transaction

variable {κ η : Type} {txs' txs'' : Txs κ η} {s : MvStore κ η} {tx tx' dep : Transaction κ η}
  {d t : TxID} {e : Nat}

def Transaction.core (tx : Transaction κ η) : Transaction κ η :=
  { tx with commitDepCounter := 0, abortNow := false, commitDepSet := [], dependedOn := [] }

def TxsFrame (txs txs' : Txs κ η) : Prop :=
  ∀ u, (txs' u).map core = (txs u).map core

def TxIdsMatch (txs : Txs κ η) : Prop := ∀ t tx, txs t = some tx → tx.txId = t

theorem TxsFrame.refl (txs : Txs κ η) : TxsFrame txs txs := fun _ => rfl

variable {txs : Txs κ η}

theorem TxsFrame.trans (h : TxsFrame txs txs') (h' : TxsFrame txs' txs'') : TxsFrame txs txs'' :=
  fun u => (h' u).trans (h u)

variable {u : TxID}

theorem TxsFrame.forth (h : TxsFrame txs txs') (htx : txs u = some tx) :
    ∃ tx', txs' u = some tx' ∧ tx'.core = tx.core := by
  have hu := h u
  rw [htx, map_some, map_eq_some_iff] at hu
  exact hu

theorem TxsFrame.back (h : TxsFrame txs txs') (htx' : txs' u = some tx') :
    ∃ tx, txs u = some tx ∧ tx'.core = tx.core := by
  have hu := (h u).symm
  rw [htx', map_some, map_eq_some_iff] at hu
  obtain ⟨tx, htx, hcore⟩ := hu
  exact ⟨tx, htx, hcore.symm⟩

theorem TxsFrame.update {txs : Txs κ η} {u : TxID} (htx : txs u = some tx)
    (h : tx'.core = tx.core) :
    TxsFrame txs (update txs u (some tx')) := by
  intro v
  by_cases hv : v = u
  · subst hv
    rw [htx, update_self, map_some, map_some, h]
  · rw [update_of_ne hv]

theorem TxIdsMatch.frame (h : TxIdsMatch txs) (hf : TxsFrame txs txs') : TxIdsMatch txs' := by
  intro t tx' htx'
  obtain ⟨tx, htx, hcore⟩ := hf.back htx'
  exact (congrArg txId hcore).trans (h t tx htx)

section

variable [DecidableEq κ] (clash : RowID κ → RowID κ → Prop) (tracked : RowID κ → Prop)
  (g : Ghosts κ)

/-- The transaction `t` has looked at versions of `s`; all it left behind is the map
`txs'`. -/
structure Looked (t : TxID) (s : MvStore κ η) (txs' : Txs κ η) : Prop where
  path : ∃ evs, Path clash tracked (s.toState g) evs ({ s with txs := txs' }.toState g) ∧
    ∀ ev ∈ evs, ∃ d, ev = .depend t d
  frame : TxsFrame s.txs txs'

/-- What `t`, which began at `b`, makes of the version `v`: it sees it, or it is hidden. -/
structure Judged (t : TxID) (b : Nat) (v : Version (Row κ))
    (sees : State (RowID κ) (Row κ) → Prop) (s : MvStore κ η) (txs' : Txs κ η) (visible : Bool) :
    Prop where
  looked : Looked clash tracked g t s txs'
  sees : visible = true → sees ({ s with txs := txs' }.toState g)
  hidden : visible = false → ({ s with txs := txs' }.toState g).Hidden t b v

/-- What a search of the chain of `r` finds: the newest version that `t` sees, if any. -/
structure Searched (t : TxID) (b : Nat) (r : RowID κ) (s : MvStore κ η) (txs' : Txs κ η)
    (found : Option (List (RowVersion κ) × RowVersion κ × List (RowVersion κ))) : Prop where
  looked : Looked clash tracked g t s txs'
  missed : found = none → ∀ u ∈ s.rows r,
    ({ s with txs := txs' }.toState g).Hidden t b u.toVersion
  finds : ∀ older rv newer, found = some (older, rv, newer) → s.rows r = older ++ rv :: newer ∧
    ({ s with txs := txs' }.toState g).Visible t b rv.toVersion ∧
    ∀ u ∈ newer, ({ s with txs := txs' }.toState g).Hidden t b u.toVersion

variable {clash tracked g}

section

variable {b : Nat} {v : Version (Row κ)} {sees : State (RowID κ) (Row κ) → Prop}
  (hl : Looked clash tracked g t s txs')

include hl

theorem Judged.yes (h : sees ({ s with txs := txs' }.toState g)) :
    Judged clash tracked g t b v sees s txs' true :=
  ⟨hl, fun _ => h, nofun⟩

theorem Judged.no (h : ({ s with txs := txs' }.toState g).Hidden t b v) :
    Judged clash tracked g t b v sees s txs' false :=
  ⟨hl, nofun, fun _ => h⟩

end

theorem Looked.refl (t : TxID) (s : MvStore κ η) : Looked clash tracked g t s s.txs := by
  refine ⟨⟨[], .nil _, ?_⟩, .refl _⟩
  intro ev hev
  cases hev

theorem Looked.trans {txs' : Txs κ η} (h : Looked clash tracked g t s txs')
    (h' : Looked clash tracked g t { s with txs := txs' } txs'') :
    Looked clash tracked g t s txs'' where
  path := by
    obtain ⟨evs, hp, hev⟩ := h.path
    obtain ⟨evs', hp', hev'⟩ := h'.path
    refine ⟨evs ++ evs', hp.append hp', fun ev hmem => ?_⟩
    rcases mem_append.1 hmem with hmem | hmem
    · exact hev ev hmem
    · exact hev' ev hmem
  frame := h.frame.trans h'.frame

section

variable (h : Looked clash tracked g t s txs')

include h

theorem Looked.extends : Extends (s.toState g) ({ s with txs := txs' }.toState g) := by
  obtain ⟨evs, hp, hev⟩ := h.path
  refine hp.preserves (P := Extends (s.toState g)) ?_ (.refl _)
  intro s1 s2 ev hmem hs hext
  obtain ⟨d, rfl⟩ := hev ev hmem
  exact hext.trans hs.extends_of_depend

theorem Looked.coherent (hc : Coherent clash tracked (s.toState g)) :
    Coherent clash tracked ({ s with txs := txs' }.toState g) := by
  obtain ⟨evs, hp, -⟩ := h.path
  exact hc.path hp

end

/-- A commit dependency on a `Preparing` transaction is a step of the protocol. -/
theorem registerCommitDependency_looked {e : TxID} (htx : s.txs t = some tx)
    (hactive : tx.state = .active) (hdep : s.txs d = some dep) (hst : dep.state = .preparing e)
    (hlt : e < tx.beginTs) {r : RowID κ} {rv : RowVersion κ} (hrv : rv ∈ s.rows r)
    (hm : rv.toVersion.Mentions d) :
    Looked clash tracked g t s (registerCommitDependency s.txs t d) ∧
      ∃ dep', registerCommitDependency s.txs t d d = some dep' ∧ dep'.state = .preparing e ∧
        t ∈ dep'.commitDepSet := by
  have hne : d ≠ t := by
    rintro rfl
    rw [htx, some.injEq] at hdep
    rw [← hdep, hactive] at hst
    cases hst
  by_cases hmem : t ∈ dep.commitDepSet
  · have heq : registerCommitDependency s.txs t d = s.txs := by
      simp [registerCommitDependency, htx, hdep, hst, if_pos hmem]
    rw [heq]
    exact ⟨.refl t s, dep, hdep, hst, hmem⟩
  · let dep' := { dep with commitDepSet := t :: dep.commitDepSet }
    let tx' := { tx with
      commitDepCounter := tx.commitDepCounter + 1
      dependedOn := d :: tx.dependedOn }
    have heq : registerCommitDependency s.txs t d =
        update (update s.txs d (some dep')) t (some tx') := by
      simp [registerCommitDependency, htx, hdep, hst, if_neg hmem, dep', tx']
    rw [heq]
    refine ⟨⟨⟨[.depend t d], .single ?_, ?_⟩, ?_⟩, dep', ?_, hst, mem_cons_self⟩
    · have hstep : Step clash tracked (s.toState g) (.depend t d) _ :=
        Step.depend _ (txn_of_txs htx) (congrArg toStatus hactive)
          (txn_of_txs hdep) (congrArg toStatus hst) hlt hmem
          ⟨r, _, mem_chain hrv, hm⟩
      simp only [toState, toTxns_update]
      exact hstep
    · intro ev hev
      exact ⟨d, mem_singleton.1 hev⟩
    · have hframe : TxsFrame s.txs (update s.txs d (some dep')) :=
        TxsFrame.update hdep rfl
      have htx' : update s.txs d (some dep') t = some tx := by
        rw [update_of_ne hne.symm, htx]
      exact hframe.trans (TxsFrame.update htx' rfl)
    · rw [update_of_ne hne, update_self]

/-- The transaction `tx` is running as `t` and looks at versions of the store. -/
structure Reader (clash : RowID κ → RowID κ → Prop) (tracked : RowID κ → Prop) (g : Ghosts κ)
    (t : TxID) (tx : Transaction κ η) (s : MvStore κ η) : Prop where
  coherent : Coherent clash tracked (s.toState g)
  ids : TxIdsMatch s.txs
  txId : tx.txId = t
  running : ∃ cur, s.txs t = some cur ∧ cur.state = .active ∧ cur.beginTs = tx.beginTs

namespace Reader

variable {r : RowID κ} {rv : RowVersion κ} {fin : TxID → Option TransactionState} {visible : Bool}

section

variable (h : Reader clash tracked g t tx s)

include h

theorem looked (hl : Looked clash tracked g t s txs') :
    Reader clash tracked g t tx { s with txs := txs' } where
  coherent := hl.coherent h.coherent
  ids := h.ids.frame hl.frame
  txId := h.txId
  running := by
    obtain ⟨cur, hcur, hactive, hbegin⟩ := h.running
    obtain ⟨cur', hcur', hcore⟩ := hl.frame.forth hcur
    exact ⟨cur', hcur', (congrArg state hcore).trans hactive,
      (congrArg beginTs hcore).trans hbegin⟩

omit [DecidableEq κ] in
theorem owner (hrv : rv ∈ s.rows r) (hm : rv.toVersion.Mentions d) :
    ∃ dep, s.txs d = some dep ∧ dep.txId = d := by
  obtain ⟨x, hx, -⟩ := h.coherent.owned.mentions r _ (mem_chain hrv) d hm
  obtain ⟨dep, hdep, -⟩ := txs_of_txn hx
  exact ⟨dep, hdep, h.ids d dep hdep⟩

omit [DecidableEq κ] in
theorem ne_of_state (hdep : s.txs d = some dep) (hst : dep.state ≠ .active) : d ≠ t := by
  rintro rfl
  obtain ⟨cur, hcur, hactive, -⟩ := h.running
  rw [hcur, some.injEq] at hdep
  exact hst (hdep ▸ hactive)

omit h [DecidableEq κ] in
theorem notBefore {b d : Nat} (hdep : s.txs d = some dep)
    (hst : dep.state = .active ∨ dep.state = .aborted ∨ dep.state = .terminated ∨
      ∃ f, (dep.state = .preparing f ∨ dep.state = .committed f) ∧ b ≤ f) :
    (s.toState g).NotBefore b (.tx d) := by
  have hx : (s.toState g).txn d = some _ := txn_of_txs hdep
  rcases hst with hst | hst | hst | ⟨f, hst, hle⟩
  · exact .inr ⟨_, hx, .inl (congrArg toStatus hst)⟩
  · exact .inr ⟨_, hx, .inr (.inl (congrArg toStatus hst))⟩
  · exact .inr ⟨_, hx, .inr (.inl (congrArg toStatus hst))⟩
  · have hstatus := hst.imp (congrArg toStatus)
      (congrArg toStatus)
    rcases hle.eq_or_lt with rfl | hlt
    · exact .inl (.inl ⟨_, hx, hstatus⟩)
    · exact .inr ⟨_, hx, .inr (.inr ⟨f, hstatus, hlt⟩)⟩

omit [DecidableEq κ] in
theorem lt_of_not_lt {d : Nat} (hdep : s.txs d = some dep) (hst : dep.state = .preparing e)
    (hle : ¬ tx.beginTs < e) : e < tx.beginTs := by
  obtain ⟨cur, hcur, -, hbegin⟩ := h.running
  have hne := h.coherent.distinct.end_ne_begin d t e tx.beginTs
    (.inl ⟨_, txn_of_txs hdep, .inl (congrArg toStatus hst)⟩)
    (.inl ⟨_, txn_of_txs hcur, hbegin⟩)
  omega

section

variable (hrv : rv ∈ s.rows r)

include hrv

theorem register {d : Nat} (hm : rv.toVersion.Mentions d) (hdep : s.txs d = some dep)
    (hst : dep.state = .preparing e) (hlt : e < tx.beginTs) :
    Looked clash tracked g t s (registerCommitDependency s.txs tx.txId d) ∧
      ∃ dep', registerCommitDependency s.txs tx.txId d d = some dep' ∧
        dep'.state = .preparing e ∧ t ∈ dep'.commitDepSet := by
  obtain ⟨cur, hcur, hactive, hbegin⟩ := h.running
  rw [h.txId]
  exact registerCommitDependency_looked hcur hactive hdep hst (hbegin.symm ▸ hlt) hrv hm

theorem isBeginVisible_spec (hrun : isBeginVisible s.txs fin tx rv = (txs', visible)) :
    Judged clash tracked g t tx.beginTs rv.toVersion (·.SeesBirth t tx.beginTs rv.toVersion) s txs'
      visible := by
  unfold isBeginVisible at hrun
  cases hb : rv.begin_ with
  | none =>
    simp only [hb] at hrun
    cases hrun
    exact .no (.refl t s) (.inl (by simp [toVersion, hb]))
  | some ref =>
    cases ref with
    | timestamp c =>
      simp only [hb] at hrun
      cases hrun
      have hborn : rv.toVersion.BornAt c := by
        simp [Version.BornAt, toVersion, hb, TxTimestampOrID.toStamp]
      refine ⟨.refl t s, fun hv => .inl ⟨c, hborn, of_decide_eq_true hv⟩, fun hv => ?_⟩
      have hle := Nat.le_of_not_lt (of_decide_eq_false hv)
      exact .inr (.inl ⟨.ts c, hborn, Stamp.noConfusion, hle⟩)
    | txId d =>
      have hborn : rv.toVersion.BornBy d := bornBy_iff.2 hb
      obtain ⟨dep, hdep, hid⟩ := h.owner hrv (.inl hborn)
      have hhidden : d ≠ t → (s.toState g).NotBefore tx.beginTs (.tx d) →
          (s.toState g).Hidden t tx.beginTs rv.toVersion := by
        intro hne hnot
        exact .inr (.inl ⟨.tx d, hborn, fun heq => hne (Stamp.tx.inj heq), hnot⟩)
      simp only [hb, hdep] at hrun
      cases hst : dep.state with
      | active =>
        simp only [hst] at hrun
        cases hrun
        rw [h.txId, hid]
        refine ⟨.refl t s, fun hv => ?_, fun hv => ?_⟩
        · rw [Bool.and_eq_true, beq_iff_eq] at hv
          exact .inr (.inl (hv.1 ▸ hborn))
        rw [Bool.and_eq_false_iff, beq_eq_false_iff_ne] at hv
        by_cases hdt : d = t
        · subst hdt
          -- an ended version of its own was ended by itself
          obtain ⟨e, hend⟩ := isSome_iff_exists.1
            (isNone_eq_false_iff.1 (hv.resolve_left (fun hne => hne rfl)))
          obtain ⟨cur, hcur, hactive, -⟩ := h.running
          have hdied : rv.toVersion.died = some e.toStamp := by
            simp [toVersion, hend]
          have hown := h.coherent.seen.own_died h.coherent.owned (mem_chain hrv)
            (txn_of_txs hcur) (congrArg toStatus hactive) hborn hdied
          exact .inr (.inr (.inl (hdied.trans (congrArg some hown))))
        · exact hhidden hdt (notBefore hdep (.inl hst))
      | preparing e =>
        simp only [hst] at hrun
        split at hrun <;> rename_i hlt <;> cases hrun
        · obtain ⟨hl, dep', hdep', hst', hmem⟩ := h.register hrv (.inl hborn) hdep hst hlt
          exact .yes hl (.inr (.inr ⟨d, _, e, hborn, txn_of_txs hdep', hlt,
            .inl ⟨congrArg toStatus hst', hmem⟩⟩))
        · exact .no (.refl t s) (hhidden (h.ne_of_state hdep (by simp [hst]))
            (notBefore hdep (.inr (.inr (.inr ⟨e, .inl hst, Nat.le_of_not_lt hlt⟩)))))
      | committed e =>
        simp only [hst] at hrun
        cases hrun
        refine ⟨.refl t s, fun hv => ?_, fun hv => ?_⟩
        · exact .inr (.inr ⟨d, _, e, hborn, txn_of_txs hdep, of_decide_eq_true hv,
            .inr (congrArg toStatus hst)⟩)
        · have hle := Nat.le_of_not_lt (of_decide_eq_false hv)
          exact hhidden (h.ne_of_state hdep (by simp [hst]))
            (notBefore hdep (.inr (.inr (.inr ⟨e, .inr hst, hle⟩))))
      | aborted | terminated =>
        simp only [hst] at hrun
        cases hrun
        exact .no (.refl t s) (hhidden (h.ne_of_state hdep (by simp [hst]))
          (notBefore hdep (by simp [hst])))

theorem isEndVisible_spec (hrun : isEndVisible s.txs fin tx rv = (txs', visible)) :
    Judged clash tracked g t tx.beginTs rv.toVersion (fun st => ∀ β, rv.toVersion.died = some β →
      β ≠ .tx t ∧ st.NotBefore tx.beginTs β) s txs' visible := by
  unfold isEndVisible at hrun
  cases hend : rv.end_ with
  | none =>
    simp only [hend] at hrun
    cases hrun
    refine .yes (.refl t s) (fun β hβ => ?_)
    simp only [toVersion, hend, map_none, reduceCtorEq] at hβ
  | some ref =>
    have hdied : rv.toVersion.died = some ref.toStamp := by
      simp [toVersion, hend]
    -- the decision about the bound is all that is left
    suffices hbound : Judged clash tracked g t tx.beginTs rv.toVersion (fun st =>
        ref.toStamp ≠ .tx t ∧ st.NotBefore tx.beginTs ref.toStamp) s txs' visible by
      refine ⟨hbound.looked, fun hv β hβ => ?_, hbound.hidden⟩
      rw [hdied, some.injEq] at hβ
      exact hβ ▸ hbound.sees hv
    cases ref with
    | timestamp e =>
      simp only [hend] at hrun
      cases hrun
      refine ⟨.refl t s, fun hv => ⟨Stamp.noConfusion, (of_decide_eq_true hv).le⟩, fun hv => ?_⟩
      have hle := Nat.le_of_not_lt (of_decide_eq_false hv)
      exact .inr (.inr (.inr (.inl ⟨.ts e, e, hdied, rfl, hle⟩)))
    | txId d =>
      have hby : rv.toVersion.DiedBy d := hdied
      obtain ⟨dep, hdep, hid⟩ := h.owner hrv (.inr hby)
      have hopen : d ≠ t → (s.toState g).NotBefore tx.beginTs (.tx d) →
          TxTimestampOrID.toStamp (.txId d) ≠ .tx t ∧
            (s.toState g).NotBefore tx.beginTs (TxTimestampOrID.toStamp (.txId d)) :=
        fun hne hnot => ⟨fun heq => hne (Stamp.tx.inj heq), hnot⟩
      simp only [hend, hdep] at hrun
      cases hst : dep.state with
      | active =>
        simp only [hst] at hrun
        cases hrun
        rw [h.txId, hid]
        refine ⟨.refl t s, fun hv => ?_, fun hv => ?_⟩
        · exact hopen (bne_iff_ne.1 hv).symm (notBefore hdep (.inl hst))
        · obtain rfl := bne_eq_false_iff_eq.1 hv
          exact .inr (.inr (.inl hby))
      | preparing e =>
        simp only [hst] at hrun
        split at hrun <;> rename_i hlt <;> cases hrun
        · exact .yes (.refl t s) (hopen (h.ne_of_state hdep (by simp [hst]))
            (notBefore hdep (.inr (.inr (.inr ⟨e, .inl hst, hlt.le⟩)))))
        · have hlt := h.lt_of_not_lt hdep hst hlt
          obtain ⟨hl, dep', hdep', hst', hmem⟩ := h.register hrv (.inr hby) hdep hst hlt
          exact .no hl (.inr (.inr (.inr (.inr ⟨d, _, e, hby, txn_of_txs hdep',
            congrArg toStatus hst', hlt.le, hmem⟩))))
      | committed e =>
        simp only [hst] at hrun
        cases hrun
        refine ⟨.refl t s, fun hv => ?_, fun hv => ?_⟩
        · have hle := (of_decide_eq_true hv).le
          exact hopen (h.ne_of_state hdep (by simp [hst]))
            (notBefore hdep (.inr (.inr (.inr ⟨e, .inr hst, hle⟩))))
        · have hrec := h.coherent.timely.committed_history d _ e (txn_of_txs hdep)
            (congrArg toStatus hst)
          have hle := Nat.le_of_not_lt (of_decide_eq_false hv)
          exact .inr (.inr (.inr (.inl ⟨.tx d, e, hby, ⟨_, hrec, rfl⟩, hle⟩)))
      | aborted | terminated =>
        simp only [hst] at hrun
        cases hrun
        exact .yes (.refl t s) (hopen (h.ne_of_state hdep (by simp [hst]))
          (notBefore hdep (by simp [hst])))

theorem isVisibleTo_spec (hrun : rv.isVisibleTo s.txs fin tx = (txs', visible)) :
    Judged clash tracked g t tx.beginTs rv.toVersion (·.Visible t tx.beginTs rv.toVersion) s txs'
      visible := by
  unfold isVisibleTo at hrun
  cases hb : isBeginVisible s.txs fin tx rv with
  | mk txs1 begun =>
    obtain ⟨hl, htrue, hfalse⟩ := h.isBeginVisible_spec hrv hb
    cases begun with
    | false =>
      simp only [hb] at hrun
      cases hrun
      exact .no hl (hfalse rfl)
    | true =>
      simp only [hb] at hrun
      obtain ⟨hl', hopen, hclosed⟩ := (h.looked hl).isEndVisible_spec hrv hrun
      exact ⟨hl.trans hl', fun hv => ⟨hl'.extends.seesBirth (htrue rfl), hopen hv⟩, hclosed⟩

theorem isBtreeInvalidatingVersion_looked
    (hrun : rv.isBtreeInvalidatingVersion s.txs fin tx = (txs', visible)) :
    Looked clash tracked g t s txs' := by
  unfold isBtreeInvalidatingVersion at hrun
  cases hvis : rv.isVisibleTo s.txs fin tx with
  | mk txs1 found =>
    obtain ⟨hl, -, -⟩ := h.isVisibleTo_spec hrv hvis
    have h1 := h.looked hl
    cases found with
    | true =>
      simp only [hvis] at hrun
      cases hrun
      exact hl
    | false =>
      simp only [hvis] at hrun
      cases hend : rv.end_ with
      | none =>
        simp only [hend] at hrun
        cases hrun
        exact hl
      | some ref =>
        cases ref with
        | timestamp e =>
          simp only [hend] at hrun
          cases hrun
          exact hl
        | txId d =>
          have hby : rv.toVersion.DiedBy d := diedBy_iff.2 hend
          obtain ⟨dep, hdep, -⟩ := h1.owner hrv (.inr hby)
          have hdep1 : txs1 d = some dep := hdep
          simp only [hend] at hrun
          split at hrun
          · cases hrun
            exact hl
          simp only [lookupTxState, hdep1] at hrun
          cases hst : dep.state with
          | preparing e =>
            simp only [hst] at hrun
            split at hrun <;> rename_i hlt <;> cases hrun
            · exact hl.trans (h1.register hrv (.inr hby) hdep hst hlt).1
            · exact hl
          | active | committed | aborted | terminated =>
            simp only [hst] at hrun
            cases hrun
            exact hl

end

end

theorem findLastVisible_spec (older : List (RowVersion κ)) :
    ∀ {s : MvStore κ η} {newer : List (RowVersion κ)} {txs' : Txs κ η}
      {found : Option (List (RowVersion κ) × RowVersion κ × List (RowVersion κ))},
      Reader clash tracked g t tx s → s.rows r = older.reverse ++ newer →
      (∀ u ∈ newer, (s.toState g).Hidden t tx.beginTs u.toVersion) →
      findLastVisible s.txs fin tx older newer = (txs', found) →
      Searched clash tracked g t tx.beginTs r s txs' found := by
  induction older with
  | nil =>
    intro s newer txs' found h hrows hnewer hrun
    cases hrun
    refine ⟨.refl t s, fun _ u hu => ?_, nofun⟩
    rw [hrows] at hu
    exact hnewer u hu
  | cons rv older ih =>
    intro s newer txs' found h hrows hnewer hrun
    have hrows' : s.rows r = older.reverse ++ rv :: newer := by
      rw [hrows, reverse_cons, append_assoc, singleton_append]
    have hrv : rv ∈ s.rows r := by
      rw [hrows']
      exact mem_append_right _ mem_cons_self
    rw [findLastVisible] at hrun
    cases hvis : rv.isVisibleTo s.txs fin tx with
    | mk txs1 visible =>
      obtain ⟨hl, htrue, hfalse⟩ := h.isVisibleTo_spec hrv hvis
      cases visible with
      | true =>
        simp only [hvis] at hrun
        cases hrun
        refine ⟨hl, nofun, fun a v b heq => ?_⟩
        cases heq
        exact ⟨hrows', htrue rfl, fun u hu => hl.extends.hidden (hnewer u hu)⟩
      | false =>
        simp only [hvis] at hrun
        have hnewer' : ∀ u ∈ rv :: newer,
            ({ s with txs := txs1 }.toState g).Hidden t tx.beginTs u.toVersion := by
          intro u hu
          rcases mem_cons.1 hu with rfl | hu
          · exact hfalse rfl
          · exact hl.extends.hidden (hnewer u hu)
        obtain ⟨hl', hnone, hsome⟩ := ih (h.looked hl) hrows' hnewer' hrun
        exact ⟨hl.trans hl', hnone, hsome⟩

theorem search_spec (h : Reader clash tracked g t tx s)
    {found : Option (List (RowVersion κ) × RowVersion κ × List (RowVersion κ))}
    (hrun : findLastVisible s.txs fin tx (s.rows r).reverse [] = (txs', found)) :
    Searched clash tracked g t tx.beginTs r s txs' found :=
  findLastVisible_spec _ h (by rw [reverse_reverse, append_nil])
    (forall_mem_nil _) hrun

theorem anyBtreeInvalidating_looked (older : List (RowVersion κ)) :
    ∀ {s : MvStore κ η} {txs' : Txs κ η} {invalid : Bool}, Reader clash tracked g t tx s →
      (∀ u ∈ older, u ∈ s.rows r) → anyBtreeInvalidating s.txs fin tx older = (txs', invalid) →
      Looked clash tracked g t s txs' := by
  induction older with
  | nil =>
    intro s txs' invalid h _ hrun
    rw [anyBtreeInvalidating, Prod.mk.injEq] at hrun
    exact hrun.1 ▸ .refl t s
  | cons rv older ih =>
    intro s txs' invalid h hmem hrun
    rw [anyBtreeInvalidating] at hrun
    cases hinv : rv.isBtreeInvalidatingVersion s.txs fin tx with
    | mk txs1 found =>
      have hl := h.isBtreeInvalidatingVersion_looked (hmem rv mem_cons_self) hinv
      cases found with
      | true =>
        simp only [hinv, Prod.mk.injEq] at hrun
        exact hrun.1 ▸ hl
      | false =>
        simp only [hinv] at hrun
        exact hl.trans (ih (h.looked hl) (fun u hu => hmem u (mem_cons_of_mem _ hu)) hrun)

end Reader

end

end PgMicro.Mvcc
