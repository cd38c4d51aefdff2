import PgMicro.Mvcc.Types

/-!
# Version chains

Insertion into a chain, the changes that commit and rollback make to it, and the garbage
collection of one chain.
-/

namespace PgMicro.Mvcc

variable {κ η : Type}

/-- `resolve_begin_timestamp`; `none` is the panic on a transaction missing from the map. -/
def resolveBeginTimestamp (txs : Txs κ η) : Option TxTimestampOrID → Option Nat
  | some (.timestamp ts) => some ts
  | some (.txId txId) => (txs txId).map Transaction.beginTs
  | none => some 0

def sameBeginTimestamp : Option TxTimestampOrID → Option TxTimestampOrID → Bool
  | some (.timestamp existing), some (.timestamp new) => existing == new
  | _, _ => false

section

variable [DecidableEq κ]

/-- The scan of `insert_version_raw`, over the chain newest first. -/
def insertVersionScan (txs : Txs κ η) (rowVersion : RowVersion κ) :
    List (RowVersion κ) → Option (List (RowVersion κ))
  | [] => some [rowVersion]
  | v :: older => do
    let existingBegin ← resolveBeginTimestamp txs v.begin_
    let newBegin ← resolveBeginTimestamp txs rowVersion.begin_
    if existingBegin ≤ newBegin then
      if v.row.id = rowVersion.row.id ∧ sameBeginTimestamp v.begin_ rowVersion.begin_ then
        some (rowVersion :: older)
      else
        some (rowVersion :: v :: older)
    else
      let older' ← insertVersionScan txs rowVersion older
      some (v :: older')

def insertVersionRaw (txs : Txs κ η) (versions : List (RowVersion κ))
    (rowVersion : RowVersion κ) : Option (List (RowVersion κ)) :=
  (insertVersionScan txs rowVersion versions.reverse).map List.reverse

end

def rollbackRowVersion (txId : TxID) (rv : RowVersion κ) : RowVersion κ :=
  if rv.begin_ = some (.txId txId) then { rv with begin_ := none, end_ := none }
  else if rv.end_ = some (.txId txId) then { rv with end_ := none }
  else rv

def commitStamp (txId : TxID) (endTs : Nat) (ref : Option TxTimestampOrID) :
    Option TxTimestampOrID :=
  if ref = some (.txId txId) then some (.timestamp endTs) else ref

/-- The body of the loop of `rewrite_live_versions_to_timestamps`. -/
def rewriteRowVersion (txId : TxID) (endTs : Nat) (rv : RowVersion κ) : RowVersion κ :=
  { rv with
    begin_ := commitStamp txId endTs rv.begin_
    end_ := commitStamp txId endTs rv.end_ }

def RowVersion.refersTo (rv : RowVersion κ) (txId : TxID) : Bool :=
  rv.begin_ == some (.txId txId) || rv.end_ == some (.txId txId)

/-- Rule 2 of `gc_version_chain`: what happens to a version that has been superseded. -/
def gcKeepsSuperseded (hasCurrent : Bool) (lwm ckptMax : Nat) (rv : RowVersion κ) : Bool :=
  match rv.end_ with
  | some (.timestamp e) => if e ≤ lwm then !hasCurrent && decide (ckptMax < e) else true
  | _ => true

def RowVersion.isCommittedCurrent (rv : RowVersion κ) : Bool :=
  match rv.begin_, rv.end_ with
  | some (.timestamp _), none => true
  | _, _ => false

def gcVersionChain (versions : List (RowVersion κ)) (lwm ckptMax : Nat) :
    List (RowVersion κ) :=
  let versions := versions.filter fun rv => !(rv.begin_.isNone && rv.end_.isNone)
  let hasCurrent := versions.any RowVersion.isCommittedCurrent
  let versions := versions.filter (gcKeepsSuperseded hasCurrent lwm ckptMax)
  match versions with
  | [rv] =>
    match rv.begin_, rv.end_ with
    | some (.timestamp b), none => if b ≤ ckptMax ∧ b < lwm then [] else versions
    | _, _ => versions
  | _ => versions

end PgMicro.Mvcc
