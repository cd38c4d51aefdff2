import PgMicro.Incremental.Persistence

/-!
# The join operator

`core/incremental/join_operator.rs`, the inner join; other kinds are rejected when the operator is
made. A commit pairs the two deltas in memory, then each delta with the stored rows of the other
side, and then adds the deltas to the stored rows. A stored row is the row itself.
-/

namespace PgMicro.Incremental

open Types (Value)

abbrev JoinTables := StateTables StorageKey HashableRow

def joinSeek (storageId : Int64) (zset : Hash128) : Option Hash128 → StorageKey → Bool
  | some lastHash, k => decide (storageKey storageId zset lastHash < k)
  | none, k => decide (toLex (storageId.toInt, zset) ≤ toLex (k.storageId, k.zset))

def readNextJoinRow (t : JoinTables) (storageId : Int64) (zset : Hash128)
    (lastElementHash : Option Hash128) : Option (Hash128 × HashableRow × Int) :=
  match t.seek (joinSeek storageId zset lastElementHash) with
  | none => none
  | some e =>
    if e.key.storageId ≠ storageId.toInt ∨ e.key.zset ≠ zset then none
    else (t.row e.rowid).map fun r => (e.key.element, r.blob, r.weight)

def scanFrom (t : JoinTables) (storageId : Int64) (zset : Hash128) :
    Nat → Option Hash128 → Delta
  | 0, _ => []
  | n + 1, last =>
    match readNextJoinRow t storageId zset last with
    | none => []
    | some (element, row, weight) => (row, weight) :: scanFrom t storageId zset n (some element)

def scan (t : JoinTables) (storageId : Int64) (zset : Hash128) : Delta :=
  scanFrom t storageId zset (t.index.length + 1) none

structure JoinOperator where
  operatorId : Int64
  leftKeyIndices : List Nat
  rightKeyIndices : List Nat

def extractJoinKey (values : List Value) (indices : List Nat) : HashableRow :=
  ⟨0, indices.map fun i => values.getD i .null⟩

/-- `sql_keys_equal`: NULL equals nothing. -/
def sqlKeysEqual (leftKey rightKey : HashableRow) : Bool :=
  leftKey.values.length == rightKey.values.length &&
    (leftKey.values.zip rightKey.values).all fun p =>
      p.1 != .null && p.2 != .null && Value.eq p.1 p.2

namespace JoinOperator

variable (hashStr : List UInt8 → Hash128) (op : JoinOperator)

def leftStorageId : Int64 := generateStorageId op.operatorId 0 0

def rightStorageId : Int64 := generateStorageId op.operatorId 1 0

def leftKey (row : HashableRow) : HashableRow := extractJoinKey row.values op.leftKeyIndices

def rightKey (row : HashableRow) : HashableRow := extractJoinKey row.values op.rightKeyIndices

def combineRows (left right : HashableRow) : HashableRow :=
  let combinedValues := left.values ++ right.values
  ⟨((⟨0, combinedValues⟩ : HashableRow).cachedHash hashStr).asI64, combinedValues⟩

/-- The first part of `eval_internal`: the pairs of the two deltas. -/
def joinDeltas (deltas : DeltaPair) : Delta :=
  deltas.left.flatMap fun l =>
    (deltas.right.filter fun r => sqlKeysEqual (op.leftKey l.1) (op.rightKey r.1)).map fun r =>
      (combineRows hashStr l.1 r.1, isize (l.2 * r.2))

def processLeftJoin (t : JoinTables) (left : Delta) : Delta :=
  left.flatMap fun l =>
    (scan t op.rightStorageId ((op.leftKey l.1).cachedHash hashStr)).map fun r =>
      (combineRows hashStr l.1 r.1, isize (l.2 * r.2))

def processRightJoin (t : JoinTables) (right : Delta) : Delta :=
  right.flatMap fun r =>
    (scan t op.leftStorageId ((op.rightKey r.1).cachedHash hashStr)).map fun l =>
      (combineRows hashStr l.1 r.1, isize (l.2 * r.2))

def eval (t : JoinTables) (deltas : DeltaPair) : Delta :=
  op.joinDeltas hashStr deltas ++ op.processLeftJoin hashStr t deltas.left ++
    op.processRightJoin hashStr t deltas.right

def leftIndexKey (row : HashableRow) : StorageKey :=
  storageKey op.leftStorageId ((op.leftKey row).cachedHash hashStr) (row.cachedHash hashStr)

def rightIndexKey (row : HashableRow) : StorageKey :=
  storageKey op.rightStorageId ((op.rightKey row).cachedHash hashStr) (row.cachedHash hashStr)

def writeDelta (indexKey : HashableRow → StorageKey) (t : JoinTables) :
    Delta → Except String JoinTables
  | [] => .ok t
  | (row, weight) :: changes => do
    let t ← t.writeRow (indexKey row) row weight
    writeDelta indexKey t changes

def commit (t : JoinTables) (deltas : DeltaPair) : Except String (Delta × JoinTables) := do
  let output := op.eval hashStr t deltas
  let t ← writeDelta (op.leftIndexKey hashStr) t deltas.left
  let t ← writeDelta (op.rightIndexKey hashStr) t deltas.right
  return (output, t)

def commitAll (t : JoinTables) : List DeltaPair → Except String (Delta × JoinTables)
  | [] => .ok ([], t)
  | deltas :: rest => do
    let (output, t) ← op.commit hashStr t deltas
    let (outputs, t) ← commitAll t rest
    return (output ++ outputs, t)

end JoinOperator

end PgMicro.Incremental
