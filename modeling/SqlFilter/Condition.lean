import SqlFilter.Decimal.Layout

/-!
# Conditions

A condition compares a column with literal values. It may be incomplete, as it is while someone
edits it; `Condition.flaw?` says what is missing or superfluous.
-/

namespace SqlFilter

inductive Literal where
  | boolean (value : Bool)
  | integer (value : Int64)
  | float (value : Binary64)
  | string (value : String)
  deriving DecidableEq, Repr

/-- What a column is compared with: one literal or a list of them. -/
inductive Operand where
  | list (values : List Literal)
  | single (value : Literal)
  deriving DecidableEq, Repr

inductive Operator where
  | eq
  | ne
  | gt
  | lt
  | ge
  | le
  | like
  | ilike
  | isIn
  | notIn
  | isNull
  | isNotNull
  | between
  deriving DecidableEq, Repr

/-- What an operator needs on its right. -/
inductive Operator.Shape where
  | nullCheck
  | list
  | bounds
  | single
  deriving DecidableEq, Repr

namespace Operator

def all : List Operator :=
  [eq, ne, gt, lt, ge, le, like, ilike, isIn, notIn, isNull, isNotNull, between]

def name : Operator → String
  | eq => "="
  | ne => "!="
  | gt => ">"
  | lt => "<"
  | ge => ">="
  | le => "<="
  | like => "LIKE"
  | ilike => "ILIKE"
  | isIn => "IN"
  | notIn => "NOT IN"
  | isNull => "IS NULL"
  | isNotNull => "IS NOT NULL"
  | between => "BETWEEN"

def shape : Operator → Shape
  | isNull | isNotNull => .nullCheck
  | isIn | notIn => .list
  | between => .bounds
  | _ => .single

/-- Whether the operator compares two values: the only operators allowed between joined columns. -/
def isComparison : Operator → Bool
  | eq | ne | gt | lt | ge | le => true
  | _ => false

end Operator

/-- The clause that a condition goes to: `ON` of a join, or `WHERE`. -/
inductive Placement where
  | on
  | atWhere
  deriving DecidableEq, Repr

namespace Placement

def all : List Placement := [on, atWhere]

def name : Placement → String
  | on => "on"
  | atWhere => "where"

end Placement

/-- A comparison of a column with literals. -/
structure Condition where
  /-- The alias of the column's table, empty if the column is not qualified. -/
  table : String
  column : String
  operator : Operator
  /-- What it is compared with; the lower bound of `BETWEEN`. -/
  value : Option Operand
  upper : Option Literal
  placement : Placement
  deriving DecidableEq, Repr

namespace Condition

/-- What keeps a condition from being written. -/
inductive Flaw where
  | noColumn
  | valueOfNullCheck
  | emptyList
  | listMissing
  | boundsMissing
  | valueMissing
  deriving DecidableEq, Repr

def Flaw.message : Flaw → String
  | noColumn => "no column selected"
  | valueOfNullCheck => "null checks take no value"
  | emptyList => "IN list is empty"
  | listMissing => "IN requires a list of values"
  | boundsMissing => "BETWEEN requires two values"
  | valueMissing => "operator requires exactly one value"

/-- What keeps the condition from being written, if anything: no column first, then values that do
not fit the operator. -/
def flaw? (c : Condition) : Option Flaw :=
  if c.column = "" then some .noColumn
  else
    match c.operator.shape, c.value, c.upper with
    | .nullCheck, none, none => none
    | .nullCheck, _, _ => some .valueOfNullCheck
    | .list, some (.list []), none => some .emptyList
    | .list, some (.list (_ :: _)), none => none
    | .list, _, _ => some .listMissing
    | .bounds, some (.single _), some _ => none
    | .bounds, _, _ => some .boundsMissing
    | .single, some (.single _), none => none
    | .single, _, _ => some .valueMissing

def IsComplete (c : Condition) : Prop := c.flaw? = none

instance (c : Condition) : Decidable c.IsComplete := inferInstanceAs (Decidable (_ = _))

end Condition

end SqlFilter
