import PgMicro.MultiVersion.Coherence
import PgMicro.Mvcc.System

/-!
# The store as an instance of the protocol

Each state of the step system is read as a state of the abstract protocol: chains version
by version, transactions by what decides visibility and conflicts.
-/

namespace PgMicro.Mvcc

open MultiVersion Function TxTimestampOrID

variable {κ η : Type} {id : RowID κ} {ts : Nat}

def TxTimestampOrID.toStamp : TxTimestampOrID → Stamp
  | .timestamp ts => .ts ts
  | .txId id => .tx id

def RowVersion.toVersion (rv : RowVersion κ) : Version (Row κ) where
  id := rv.id
  born := rv.begin_.map toStamp
  died := rv.end_.map toStamp
  payload := rv.row

def TransactionState.toStatus : TransactionState → Status
  | .active => .active
  | .preparing ts => .preparing ts
  | .committed ts => .committed ts
  | .aborted | .terminated => .aborted

def Transaction.toTxn (validated : Bool) (tx : Transaction κ η) : Txn (RowID κ) where
  status := tx.state.toStatus
  beginTs := tx.beginTs
  writes := tx.writeSet
  abortNow := tx.abortNow
  dependents := tx.commitDepSet
  pending := tx.commitDepCounter
  registered := tx.dependedOn
  validated := validated

structure Ghosts (κ : Type) where
  validated : TxID → Bool
  history : TxID → Option (Record (RowID κ))
  effect : TxID → RowID κ → Option (Option (Row κ))
  seed : Nat

def toTxns (g : Ghosts κ) (txs : Txs κ η) : TxID → Option (Txn (RowID κ)) :=
  fun t => (txs t).map (Transaction.toTxn (g.validated t))

open RowVersion

def toChains (rows : RowID κ → List (RowVersion κ)) : RowID κ → List (Version (Row κ)) :=
  fun id => (rows id).map toVersion

def MvStore.toState (g : Ghosts κ) (s : MvStore κ η) : State (RowID κ) (Row κ) where
  chain := toChains s.rows
  txn := toTxns g s.txs
  clock := s.clock
  nextTxn := s.txIds
  nextVersion := s.versionIdCounter
  history := g.history
  effect := g.effect
  seed := g.seed

def CommitStateMachine.isValidated (sm : CommitStateMachine κ η) : Bool :=
  match sm.state with
  | .initial | .commit _ => false
  | _ => true

def CommitRecord.toRecord (r : CommitRecord κ) : Record (RowID κ) where
  beginTs := r.beginTs
  endTs := r.endTs
  writes := r.writeSet

namespace World

def ghosts (seed : Nat) (w : World κ η) : Ghosts κ where
  validated t := (w.commits t).any CommitStateMachine.isValidated
  history t := (w.history t).map CommitRecord.toRecord
  effect := w.lastWrite
  seed := seed

def toState (seed : Nat) (w : World κ η) : State (RowID κ) (Row κ) :=
  w.store.toState (w.ghosts seed)

end World

section

variable {g : Ghosts κ} {s : MvStore κ η} {t : TxID} {tx : Transaction κ η} {rv : RowVersion κ}

@[simp]
theorem TxTimestampOrID.toStamp_inj {a b : TxTimestampOrID} : a.toStamp = b.toStamp ↔ a = b := by
  cases a <;> cases b <;> simp [toStamp]

theorem map_toStamp_eq_some {o : Option TxTimestampOrID} (ref : TxTimestampOrID) :
    o.map toStamp = some ref.toStamp ↔ o = some ref := by
  simp [Option.map_eq_some_iff]

theorem RowVersion.bornBy_iff : rv.toVersion.BornBy t ↔ rv.begin_ = some (.txId t) :=
  map_toStamp_eq_some (.txId t)

theorem RowVersion.diedBy_iff : rv.toVersion.DiedBy t ↔ rv.end_ = some (.txId t) :=
  map_toStamp_eq_some (.txId t)

theorem RowVersion.bornAt_iff : rv.toVersion.BornAt ts ↔ rv.begin_ = some (.timestamp ts) :=
  map_toStamp_eq_some (.timestamp ts)

theorem RowVersion.diedAt_iff : rv.toVersion.DiedAt ts ↔ rv.end_ = some (.timestamp ts) :=
  map_toStamp_eq_some (.timestamp ts)

theorem RowVersion.refersTo_iff : rv.refersTo t = true ↔ rv.toVersion.Mentions t := by
  simp [refersTo, Bool.or_eq_true, beq_iff_eq, Version.Mentions,
    bornBy_iff, diedBy_iff]

theorem MvStore.mem_chain (h : rv ∈ s.rows id) : rv.toVersion ∈ (s.toState g).chain id :=
  List.mem_map_of_mem h

theorem MvStore.txn_of_txs (h : s.txs t = some tx) :
    (s.toState g).txn t = some (tx.toTxn (g.validated t)) := by
  simp [MvStore.toState, toTxns, h, Option.map_some]

theorem MvStore.txs_of_txn {x : Txn (RowID κ)} (h : (s.toState g).txn t = some x) :
    ∃ tx, s.txs t = some tx ∧ x = tx.toTxn (g.validated t) := by
  obtain ⟨tx, htx, rfl⟩ := Option.map_eq_some_iff.1 h
  exact ⟨tx, htx, rfl⟩

theorem toTxns_update (txs : Txs κ η) (tx' : Transaction κ η) :
    toTxns g (update txs t (some tx')) =
      update (toTxns g txs) t (some (tx'.toTxn (g.validated t))) := by
  funext u
  by_cases hu : u = t
  · subst hu
    simp [toTxns, update_self, Option.map_some]
  · simp [toTxns, update_of_ne hu]

theorem MvStore.modifyTx_eq {f : Transaction κ η → Transaction κ η} (h : s.txs t = some tx) :
    s.modifyTx t f = { s with txs := update s.txs t (some (f tx)) } := by
  simp [MvStore.modifyTx, h, Option.map_some]

theorem toChains_update [DecidableEq κ] (rows : RowID κ → List (RowVersion κ))
    (versions : List (RowVersion κ)) :
    toChains (update rows id versions) =
      update (toChains rows) id (versions.map toVersion) := by
  funext r
  by_cases hr : r = id
  · subst hr
    simp [toChains, update_self]
  · simp [toChains, update_of_ne hr]

end

end PgMicro.Mvcc
