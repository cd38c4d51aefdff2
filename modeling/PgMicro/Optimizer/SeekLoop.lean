import PgMicro.Optimizer.SeekDef
import PgMicro.SortedScan

/-!
# The loop of a seek

What the instructions of `SeekEmitter` do: the key is loaded, checked for NULLs and converted, the
cursor is put on the first entry, and the loop goes on until an entry meets the end. Entries and
rowids are lists in the order of the b-tree.
-/

namespace PgMicro.BTree

def IterationDirection.iterate {α : Type} : IterationDirection → List α → List α
  | .forwards, l => l
  | .backwards, l => l.reverse

def SeekOp.meets : SeekOp → Ordering → Bool
  | .ge _, o => o != .lt
  | .gt, o => o == .gt
  | .le _, o => o != .gt
  | .lt, o => o == .lt

/-- The operator on the integer that a real key is cut to; `c` compares the two. -/
def SeekOp.actual (c : Ordering) : SeekOp → SeekOp
  | .lt => if c = .lt then .le false else .lt
  | .ge eqOnly => if c = .lt then .gt else .ge eqOnly
  | .gt => if c = .gt then .ge false else .gt
  | .le eqOnly => if c = .gt then .lt else .le eqOnly

end PgMicro.BTree

namespace PgMicro.Optimizer.Seek

open Types
open BTree (IterationDirection SeekOp)

structure IndexColumn where
  keyInfo : KeyInfo
  /-- `get_expr_affinity_info` of the column or of the indexed expression. -/
  affinity : Option Affinity

open F64

section

variable [UncasedStr] (conv : Conversions) (tables : Tables) (b : Bindings)

/-- The value of a key expression; `none` where a NULL ends the loop. -/
def loadExpr (e : Expr) : Option Value :=
  if !isNonnull tables e && eval b e == .null then none else some (eval b e)

def convertKey (column : IndexColumn) (e : Expr) (v : Value) : Value :=
  seekKey conv column.affinity
    (!exprNeedsNoAffinityChange tables (column.affinity.getD .blob) e) v

def SeekDef.prefixExprs (seekDef : SeekDef) : List Expr :=
  seekDef.prefixKey.filterMap fun c => c.eq.map Bound.expr

def loadPrefix : List IndexColumn → List Expr → Option (List Value)
  | column :: columns, e :: es => do
    let v ← loadExpr tables b e
    let vs ← loadPrefix columns es
    some (convertKey conv tables column e v :: vs)
  | _, [] => some []
  | [], _ :: _ => none

def loadLast (column : IndexColumn) : SeekKeyComponent → Option (List Value)
  | .none => some []
  | .null => some [.null]
  | .expr e => do
    let v ← loadExpr tables b e
    some [convertKey conv tables column e v]

section

variable (columns : List IndexColumn) (keys : List KeyInfo)

/-- The cursor after `SeekGE` and the like: the entries from there on, in the direction of the
scan. -/
def seekIndex (op : SeekOp) (key : List Value) (entries : List (List Value)) : List (List Value) :=
  let rest := match op with
    | .ge _ | .gt => entries.dropWhile fun e => !op.meets (lexCompare .eq e key keys)
    | .le _ | .lt => entries.reverse.dropWhile fun e => !op.meets (lexCompare .eq e key keys)
  match op with
  | .ge true | .le true =>
    if key.contains .null then []
    else if (rest.head?).any fun e => lexCompare .eq e key keys == .eq then rest
    else []
  | _ => rest

def startAtEnd (iterDir : IterationDirection) (entries : List (List Value)) : List (List Value) :=
  match iterDir, (keys.head?).map KeyInfo.sortOrder with
  | .forwards, some .asc => seekIndex keys .gt [.null] entries
  | .forwards, _ => entries
  | .backwards, some .desc => seekIndex keys .lt [.null] entries
  | .backwards, _ => entries.reverse

def stopAtEnd (iterDir : IterationDirection) (e : List Value) : Bool :=
  match iterDir, (keys.head?).map KeyInfo.sortOrder with
  | .forwards, some .desc => SeekOp.meets (.ge false) (lexCompare .eq e [.null] keys)
  | .backwards, some .asc => SeekOp.meets (.le false) (lexCompare .eq e [.null] keys)
  | _, _ => false

def visitIndex (seekDef : SeekDef) (entries : List (List Value)) : List (List Value) :=
  let es := seekDef.prefixExprs
  let visited : Option (List (List Value)) := do
    let vs ← loadPrefix conv tables b columns es
    let column := (columns[es.length]?).getD ⟨⟨.asc, .binary⟩, none⟩
    let first ← loadLast conv tables b column seekDef.start.lastComponent
    let last ← loadLast conv tables b column seekDef.stop.lastComponent
    let rest :=
      if (vs ++ first).isEmpty then startAtEnd keys seekDef.iterDir entries
      else seekIndex keys seekDef.start.op (vs ++ first) entries
    -- The conversion of the end applies to all registers again.
    let vs' := match seekDef.stop.lastComponent with
      | .expr _ => (columns.zip (es.zip vs)).map fun (c, e, v) => convertKey conv tables c e v
      | _ => vs
    let stops (e : List Value) : Bool :=
      if (vs ++ last).isEmpty then stopAtEnd keys seekDef.iterDir e
      else seekDef.stop.op.meets (lexCompare .eq e (vs' ++ last) keys)
    some (rest.takeWhile fun e => !stops e)
  visited.getD []

end

/-- `9223372036854774784.0`. -/
def largestReal : UInt64 := 0x43DFFFFFFFFFFFFF

/-- `extract_int_value` of a float. -/
def extractIntValue (f : NonNan) : Int64 :=
  if orderKey f.bits < -orderKey largestReal then Int64.minValue
  else if orderKey largestReal < orderKey f.bits then Int64.maxValue
  else Int64.ofInt (trunc f.bits)

def compareIntKey (intKey : Int64) (f : NonNan) : Ordering :=
  if intKey = Int64.maxValue ∧ orderKey largestReal < orderKey f.bits then .lt
  else if intKey = Int64.minValue ∧ orderKey f.bits < -orderKey largestReal then
    if orderKey f.bits = -(magnitude (twoPow 63) : Int) then .eq else .gt
  else F64.cmp (F64.ofInt64 intKey) f.bits

def seekRowid (op : SeekOp) (key : Int64) (rowids : List Int64) : List (Option Int64) :=
  let meets (r : Int64) : Bool := op.meets (compare r.toInt key.toInt)
  match op with
  | .ge _ | .gt => (rowids.dropWhile fun r => !meets r).map some
  | .le _ | .lt => (rowids.reverse.dropWhile fun r => !meets r).map some

/-- `seek_internal` on a table. A cursor without a record is `none`. -/
def seekTable (op : SeekOp) (v : Value) (rowids : List Int64) : List (Option Int64) :=
  match Affinity.number conv v, v with
  | some (.inl i), _ => seekRowid op i rowids
  | some (.inr f), _ =>
    let intKey := extractIntValue f
    seekRowid (op.actual (compareIntKey intKey f)) intKey rowids
  | none, .null => []
  | none, _ =>
    match op with
    | .ge _ | .gt => []
    -- `MoveLast` counts as found in an empty table, too.
    | .le _ | .lt => if rowids.isEmpty then [none] else rowids.reverse.map some

def stopsTable (op : SeekOp) (v : Value) : Option Int64 → Bool
  | none => true
  | some r => v == .null || op.meets (Value.cmp (.integer r) (Affinity.convert conv .numeric v))

/-- The cursor at the start of the loop; `none` where a NULL ends it. -/
def startTable (iterDir : IterationDirection) (key : SeekKey) (rowids : List Int64) :
    Option (List (Option Int64)) :=
  match key.lastComponent with
  | .expr e => (loadExpr tables b e).map fun v => seekTable conv key.op v rowids
  | _ => some ((iterDir.iterate rowids).map some)

def stopTable (key : SeekKey) : Option (Option Int64 → Bool) :=
  match key.lastComponent with
  | .expr e => (loadExpr tables b e).map fun v => stopsTable conv key.op v
  | _ => some fun _ => false

def visitTable (seekDef : SeekDef) (rowids : List Int64) : List (Option Int64) :=
  match startTable conv tables b seekDef.iterDir seekDef.start rowids,
    stopTable conv tables b seekDef.stop with
  | some rest, some stops => rest.takeWhile fun r => !stops r
  | _, _ => []

def Operator.holds : Operator → Ordering → Bool
  | .equals, o => o == .eq
  | .greater, o => o == .gt
  | .greaterEquals, o => o != .lt
  | .less, o => o == .lt
  | .lessEquals, o => o != .gt
  | .other, _ => false

def isTrue (column key : Option Affinity) (collation : CollationSeq) (op : Operator) (v k : Value) :
    Bool :=
  let affinity := comparisonAffinity column key
  v != .null && k != .null &&
    op.holds (compareImmutableSingle (affinity.convert conv v) (affinity.convert conv k) collation)

def RangeConstraintRef.constraints (cref : RangeConstraintRef) (constraints : List Constraint) :
    List Constraint :=
  [cref.eq, cref.lowerBound, cref.upperBound].filterMap fun pos => pos.bind (constraints[·]?)

def usedConstraints (constraints : List Constraint) (refs : List RangeConstraintRef) :
    List (Nat × Constraint) :=
  refs.flatMap fun r => (r.constraints constraints).map (r.indexColPos, ·)

def termHolds (columns : List IndexColumn) (e : List Value) (used : Nat × Constraint) : Bool :=
  match columns[used.1]?, e[used.1]? with
  | some column, some v =>
    isTrue conv column.affinity (exprAffinity tables used.2.expr) column.keyInfo.collation
      used.2.operator v (eval b used.2.expr)
  | _, _ => false

def rowidTermHolds (r : Int64) (used : Nat × Constraint) : Bool :=
  isTrue conv (some .integer) (exprAffinity tables used.2.expr) .binary used.2.operator
    (.integer r) (eval b used.2.expr)

end

end PgMicro.Optimizer.Seek
