import PgMicro.Types.Affinity

/-!
# Key expressions

The expressions a column is compared with, as far as the planner looks into them: whether they are
taken to be non-NULL, and which affinity they have.
-/

namespace PgMicro.Optimizer.Seek

open Types (Value Affinity NonNan)

inductive Literal where
  | numeric (n : Int64 ⊕ NonNan)
  | string (t : List UInt8)
  | blob (b : List UInt8)
  | null
  /-- Keywords, TRUE and FALSE, and the current date and time. -/
  | other (v : Value) (h : v ≠ .null)

inductive BinaryOperator where
  | modulus
  | divide
  | other (symbol : Nat)
  deriving DecidableEq

inductive Operation where
  | binary (op : BinaryOperator)
  | unary (symbol : Nat)
  /-- CAST, with the affinity of its type name if it has one. -/
  | cast (affinity : Option Affinity)
  | collate
  | parenthesized
  | between
  | inList
  | like
  | isNull
  | notNull
  /-- A scalar subquery, with the affinity of its result column if it has one. -/
  | subquery (id : Nat) (affinity : Option Affinity)
  /-- Functions, row values, EXISTS, bound variables, registers and field accesses. -/
  | call (symbol : Nat)
  deriving DecidableEq

mutual

inductive Expr where
  | literal (l : Literal)
  | column (table column : Nat)
  | rowId (table : Nat)
  /-- The base and the ELSE arm are lists of at most one expression. -/
  | case (base whens thens elseExpr : ExprList)
  | apply (op : Operation) (args : ExprList)

inductive ExprList where
  | nil
  | cons (e : Expr) (es : ExprList)

end

structure ColumnInfo where
  affinity : Affinity
  notnull : Bool
  isRowidAlias : Bool

abbrev Tables := Nat → List ColumnInfo

def Operation.keepsNonnull : Operation → Bool
  | .binary .modulus | .binary .divide | .subquery .. | .call _ => false
  | _ => true

mutual

def isNonnull (tables : Tables) : Expr → Bool
  | .literal .null => false
  | .literal _ => true
  | .column table column => ((tables table)[column]?).any fun c => c.isRowidAlias || c.notnull
  | .rowId _ => true
  | .case base _ thens elseExpr =>
    allNonnull tables base && allNonnull tables thens && allNonnull tables elseExpr
  | .apply .isNull _ | .apply .notNull _ => true
  | .apply op args => op.keepsNonnull && allNonnull tables args

def allNonnull (tables : Tables) : ExprList → Bool
  | .nil => true
  | .cons e es => isNonnull tables e && allNonnull tables es

end

/-- `get_expr_affinity_info`; `none` for an expression without affinity. -/
def exprAffinity (tables : Tables) : Expr → Option Affinity
  | .column table column => ((tables table)[column]?).map ColumnInfo.affinity
  | .rowId _ => some .integer
  | .apply (.cast affinity) _ | .apply (.subquery _ affinity) _ => affinity
  | .apply .parenthesized (.cons e .nil) | .apply .collate (.cons e .nil) => exprAffinity tables e
  | _ => none

def exprNeedsNoAffinityChange (tables : Tables) (affinity : Affinity) (e : Expr) : Bool :=
  affinity == .blob ||
    match e with
    | .literal (.numeric _) => affinity.isNumeric
    | .literal (.string _) => affinity == .text
    | .literal (.blob _) => true
    | .column table column =>
      ((tables table)[column]?).any ColumnInfo.isRowidAlias && affinity.isNumeric
    | _ => false

structure Bindings where
  /-- The rowid and the columns of the row a table stands on; `none` for a null-extended row. -/
  row : Nat → Option (Int64 × (Nat → Value))
  operate : Operation → List Value → Value
  truthy : Value → Bool
  equal : Value → Value → Bool

def Literal.value : Literal → Value
  | .numeric n => Affinity.ofNumber n
  | .string t => .text t
  | .blob b => .blob b
  | .null => .null
  | .other v _ => v

def Bindings.choose (b : Bindings) (base whens thens elseExpr : List Value) : Value :=
  let applies (w : Value) : Bool :=
    match base with
    | [] => b.truthy w
    | v :: _ => b.equal v w
  match (whens.zip thens).find? fun p => applies p.1 with
  | some p => p.2
  | none => elseExpr.head?.getD .null

mutual

def eval (b : Bindings) : Expr → Value
  | .literal l => l.value
  | .column table column => ((b.row table).map fun r => r.2 column).getD .null
  | .rowId table => ((b.row table).map fun r => Value.integer r.1).getD .null
  | .case base whens thens elseExpr =>
    b.choose (evalList b base) (evalList b whens) (evalList b thens) (evalList b elseExpr)
  | .apply op args => b.operate op (evalList b args)

def evalList (b : Bindings) : ExprList → List Value
  | .nil => []
  | .cons e es => eval b e :: evalList b es

end

def Bindings.RowsOf (b : Bindings) (tables : Tables) : Prop :=
  ∀ table r, b.row table = some r → ∀ column c, (tables table)[column]? = some c →
    (c.notnull → r.2 column ≠ .null) ∧ (c.isRowidAlias → r.2 column = .integer r.1)

end PgMicro.Optimizer.Seek
