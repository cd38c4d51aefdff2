import PgMicro.OrderedSet
import PgMicro.Types.Affinity

/-!
# Compound selects

`emit_program_for_compound_select` of `core/translate/compound_select.rs`, with what the emitted
instructions do: the arms run from left to right, each into its destination. A temporary index is a
sorted set of rows, the LIMIT and OFFSET counters are two shared registers. Of an arm its rows are
given, and how its code handles the counters.
-/

namespace PgMicro.CompoundSelect

open Types Function

variable {n : Nat}

abbrev Row (n : Nat) := Fin n → Value

abbrev Collations (n : Nat) := Fin n → Option CollationSeq

inductive CompoundOperator where
  | unionAll
  | union
  | intersect
  | except
  deriving DecidableEq, Repr

structure EphemeralIndex (n : Nat) where
  collation : Collations n
  hasRowid : Bool

inductive QueryDestination (n : Nat) where
  | resultRows
  | coroutineYield
  | ephemeralTable
  | ephemeralIndex (cursorId : Nat) (index : EphemeralIndex n)
      (affinity : Option (Fin n → Affinity)) (isDelete : Bool)

inductive ArmKind where
  | loop
  /-- `emit_values`. -/
  | values
  | aggregate
  /-- `emit_simple_count`. -/
  | simpleCount
  deriving DecidableEq, Repr

structure SelectPlan (n : Nat) where
  kind : ArmKind
  rows : List (Row n)
  collation : Collations n

/-- `Plan::CompoundSelect`: the arms on the left with their operators, and the right-most arm. -/
inductive Plan (n : Nat) where
  | select (plan : SelectPlan n)
  | compound (left : Plan n) (operator : CompoundOperator) (rightMost : SelectPlan n)

def Plan.rightMost : Plan n → SelectPlan n
  | .select plan => plan
  | .compound _ _ rightMost => rightMost

def Plan.leftMost : Plan n → SelectPlan n
  | .select plan => plan
  | .compound left _ _ => left.leftMost

structure State (n : Nat) where
  /-- The rows that the consumer of the whole statement has got. -/
  output : List (Row n)
  /-- The ephemeral indexes without rowid, by cursor. -/
  sets : Nat → List (Row n)
  /-- Those with a rowid, which is a sequence number. -/
  collected : Nat → List (Row n × Nat)
  nextCursorId : Nat
  limit : Int
  offset : Int

variable [UncasedStr]

def rowCmp (collation : Collations n) : Row n → Row n → Ordering :=
  OrderedSet.lex ((List.finRange n).map fun i r s =>
    KeyInfo.compare ⟨.asc, (collation i).getD .binary⟩ (r i) (s i))

def entryCmp (collation : Collations n) : Row n × Nat → Row n × Nat → Ordering :=
  compareLex (fun e e' => rowCmp collation e.1 e'.1) (compareOn Prod.snd)

variable (conv : Conversions)

/-- `MakeRecord` with an affinity string. -/
def applyAffinity (affinity : Option (Fin n → Affinity)) (r : Row n) : Row n :=
  match affinity with
  | none => r
  | some affinity => fun i => (affinity i).applyChar conv (r i)

open OrderedSet

def emitColumnsToDestination (destination : QueryDestination n) (r : Row n) (st : State n) :
    State n :=
  match destination with
  | .resultRows | .coroutineYield | .ephemeralTable => { st with output := st.output ++ [r] }
  | .ephemeralIndex cursorId index affinity isDelete =>
    let record := applyAffinity conv affinity r
    let entries := st.sets cursorId
    let collected := st.collected cursorId
    if isDelete then
      let entries := erase (rowCmp index.collation) r entries
      { st with sets := update st.sets cursorId entries }
    else if index.hasRowid then
      let collected :=
        insert (entryCmp index.collation) (record, collected.length) collected
      { st with collected := update st.collected cursorId collected }
    else
      let entries := insert (rowCmp index.collation) record entries
      { st with sets := update st.sets cursorId entries }

def emitRows (conv : Conversions) (destination : QueryDestination n) (offset limit : Bool) :
    List (Row n) → State n → State n
  | [], st => st
  | r :: rows, st =>
    if offset && decide (0 < st.offset) then
      emitRows conv destination offset limit rows { st with offset := st.offset - 1 }
    else
      let st := emitColumnsToDestination conv destination r st
      if limit then
        let st := { st with limit := st.limit - 1 }
        if st.limit = 0 then st else emitRows conv destination offset limit rows st
      else emitRows conv destination offset limit rows st

def emitQuery (plan : SelectPlan n) (destination : QueryDestination n) (limit offset : Bool)
    (st : State n) : State n :=
  match plan.kind with
  | .loop =>
    if limit && decide (st.limit = 0) then st
    else emitRows conv destination offset limit plan.rows st
  | .values =>
    match destination with
    | .resultRows => emitRows conv destination offset limit plan.rows st
    | .coroutineYield =>
      -- Only `emit_values_when_single_row` looks at OFFSET here.
      emitRows conv destination (offset && plan.rows.length == 1) false plan.rows st
    | _ => emitRows conv destination offset false plan.rows st
  | .aggregate =>
    -- `IfPos` decrements by zero.
    if offset && decide (0 < st.offset) then st
    else emitRows conv destination false false plan.rows st
  | .simpleCount =>
    if limit && decide (st.limit = 0) then st
    else emitRows conv destination false false plan.rows st

def pairCollation (left right : SelectPlan n) : Collations n :=
  fun i => (left.collation i).or (right.collation i)

/-- `alloc_cursor_id` and `OpenEphemeral`. -/
def openEphemeral (st : State n) : Nat × State n :=
  (st.nextCursorId, { st with
    nextCursorId := st.nextCursorId + 1
    sets := update st.sets st.nextCursorId []
    collected := update st.collected st.nextCursorId [] })

def createDedupeIndex (left right : SelectPlan n) (st : State n) :
    Nat × EphemeralIndex n × State n :=
  let (cursorId, st) := openEphemeral st
  (cursorId, ⟨pairCollation left right, false⟩, st)

def QueryDestination.reusable : QueryDestination n → Option (Nat × EphemeralIndex n)
  | .ephemeralIndex cursorId index _ _ => if index.hasRowid then none else some (cursorId, index)
  | _ => none

def readDeduplicatedUnionOrExceptRows (cursorId : Nat) (limit offset : Bool)
    (destination : QueryDestination n) (st : State n) : State n :=
  emitRows conv destination offset limit (st.sets cursorId) st

def readIntersectRows (leftCursorId rightCursorId : Nat) (index : EphemeralIndex n)
    (limit offset : Bool) (destination : QueryDestination n) (st : State n) : State n :=
  emitRows conv destination offset limit
    ((st.sets leftCursorId).filter fun r =>
      contains (rowCmp index.collation) r (st.sets rightCursorId)) st

/-- `emit_compound_select`. The destination is that of the right-most arm; an arm to the left of
UNION ALL has the same one. -/
def emitCompoundSelect (conv : Conversions) (queryDestination : QueryDestination n) :
    Plan n → QueryDestination n → (limit offset : Bool) → State n → State n
  | .select plan, destination, limit, offset, st =>
    if limit && decide (st.limit = 0) then st else emitQuery conv plan destination limit offset st
  | .compound left operator rightMost, destination, limit, offset, st =>
    if limit && decide (st.limit = 0) then st
    else
      match operator with
      | .unionAll =>
        let st := emitCompoundSelect conv queryDestination left destination limit offset st
        if limit && decide (st.limit = 0) then st
        else emitQuery conv rightMost destination limit offset st
      | .union =>
        let (cursorId, index, st) := match destination.reusable with
          | some (cursorId, index) => (cursorId, index, st)
          | none => createDedupeIndex left.rightMost rightMost st
        let dedupe := .ephemeralIndex cursorId index none false
        let st := emitCompoundSelect conv queryDestination left dedupe false false st
        let st := emitQuery conv rightMost dedupe false false st
        match destination.reusable with
        | some _ => st
        | none =>
          readDeduplicatedUnionOrExceptRows conv cursorId limit offset queryDestination st
      | .intersect =>
        let (leftCursorId, leftIndex, st) := createDedupeIndex left.rightMost rightMost st
        let (rightCursorId, rightIndex, st) := createDedupeIndex left.rightMost rightMost st
        let st := emitCompoundSelect conv queryDestination left
          (.ephemeralIndex leftCursorId leftIndex none false) false false st
        let st := emitQuery conv rightMost (.ephemeralIndex rightCursorId rightIndex none false)
          false false st
        readIntersectRows conv leftCursorId rightCursorId rightIndex limit offset destination st
      | .except =>
        let (cursorId, index, st) := match destination.reusable with
          | some (cursorId, index) => (cursorId, index, st)
          | none => createDedupeIndex left.rightMost rightMost st
        let st := emitCompoundSelect conv queryDestination left
          (.ephemeralIndex cursorId index none false) false false st
        let st := emitQuery conv rightMost (.ephemeralIndex cursorId index none true)
          false false st
        match destination.reusable with
        | some _ => st
        | none =>
          readDeduplicatedUnionOrExceptRows conv cursorId limit offset queryDestination st

inductive NullsOrder where
  | first
  | last
  deriving DecidableEq, Repr

def isNull (v : Value) : Bool := v == .null

def nullsCmp : NullsOrder → Value → Value → Ordering
  | .first, v, w => compare (isNull w) (isNull v)
  | .last, v, w => compare (isNull v) (isNull w)

structure OrderByTerm (n : Nat) where
  column : Fin n
  order : SortOrder
  nulls : Option NullsOrder

def OrderByTerm.compare (term : OrderByTerm n) (collation : Collations n) (v w : Value) :
    Ordering :=
  let keyInfo : KeyInfo := ⟨term.order, (collation term.column).getD .binary⟩
  match term.nulls with
  | none => keyInfo.compare v w
  | some nulls => (nullsCmp nulls v w).then (keyInfo.compare v w)

structure SorterRecord where
  keys : List Value
  sequence : Nat
  data : List Value

def SorterRecord.column (record : SorterRecord) (i : Nat) : Value :=
  if i < record.keys.length then (record.keys[i]?).getD .null
  else (record.data[i - (record.keys.length + 1)]?).getD .null

/-- The places of the result columns in the sorter, behind the first `count` that are no sort
key. -/
def remappings (orderBy : List (OrderByTerm n)) : List (Fin n) → (count : Nat) → List Nat
  | [], _ => []
  | column :: columns, count =>
    match orderBy.findIdx? fun term => term.column == column with
    | some sortKeyIdx => sortKeyIdx :: remappings orderBy columns count
    | none => (orderBy.length + 1 + count) :: remappings orderBy columns (count + 1)

def sorterRecord (orderBy : List (OrderByTerm n)) (entry : Row n × Nat) : SorterRecord where
  keys := orderBy.map fun term => entry.1 term.column
  sequence := entry.2
  data := ((List.finRange n).filter fun column =>
    !orderBy.any fun term => term.column == column).map entry.1

def sorterCmp (orderBy : List (OrderByTerm n)) (collation : Collations n)
    (record record' : SorterRecord) : Ordering :=
  let keys := (orderBy.zip (record.keys.zip record'.keys)).foldr
    (fun key o => (key.1.compare collation key.2.1 key.2.2).then o) Ordering.eq
  keys.then (compare record.sequence record'.sequence)

def readRow (orderBy : List (OrderByTerm n)) (record : SorterRecord) : Row n :=
  fun i => record.column (((remappings orderBy (List.finRange n) 0)[i.val]?).getD 0)

/-- `emit_compound_order_by`, from the collected rows on. -/
def emitCompoundOrderBy (orderBy : List (OrderByTerm n)) (collation : Collations n)
    (entries : List (Row n × Nat)) (limit offset : Bool) (destination : QueryDestination n)
    (st : State n) : State n :=
  let sorted := (entries.map (sorterRecord orderBy)).mergeSort fun record record' =>
    (sorterCmp orderBy collation record record').isLE
  if limit && decide (st.limit = 0) then st
  else emitRows conv destination offset limit (sorted.map (readRow orderBy)) st

abbrev Limits := Option (Int × Option Int)

def State.withLimits (st : State n) (limits : Limits) : State n :=
  { st with
    limit := (limits.map Prod.fst).getD 0
    offset := (limits.bind Prod.snd).getD 0 }

def emitProgramForCompoundSelect (plan : Plan n) (orderBy : Option (List (OrderByTerm n)))
    (limits : Limits) (destination : QueryDestination n) (st : State n) : State n :=
  let limit := limits.isSome
  let offset := (limits.bind Prod.snd).isSome
  match orderBy with
  | none =>
    emitCompoundSelect conv destination plan destination limit offset (st.withLimits limits)
  | some orderBy =>
    let (cursorId, st) := openEphemeral st
    let collation := pairCollation plan.leftMost plan.rightMost
    let collection := .ephemeralIndex cursorId ⟨collation, true⟩ none false
    let st := emitCompoundSelect conv collection plan collection false false st
    emitCompoundOrderBy conv orderBy collation (st.collected cursorId) limit offset destination
      (st.withLimits limits)

end PgMicro.CompoundSelect
