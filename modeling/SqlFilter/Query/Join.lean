import SqlFilter.Conflict

/-!
# Joins

How the tables of a query are joined: the kind of each join and the comparisons of its `ON` clause.
-/

namespace SqlFilter

inductive JoinKind where
  | inner
  | left
  | right
  | full
  deriving DecidableEq, Repr

namespace JoinKind

def all : List JoinKind := [inner, left, right, full]

def name : JoinKind → String
  | inner => "INNER"
  | left => "LEFT"
  | right => "RIGHT"
  | full => "FULL"

def sql : JoinKind → String
  | inner => "INNER JOIN"
  | left => "LEFT JOIN"
  | right => "RIGHT JOIN"
  | full => "FULL OUTER JOIN"

/-- Whether a test of the joined table alone may be made before the join instead of in its `ON`
clause: if the rows of the joined table that match nothing do not appear in the result. -/
def allowsPushDown : JoinKind → Bool
  | inner | left => true
  | right | full => false

end JoinKind

/-- One side of a comparison in a join. -/
inductive JoinOperand where
  | column (ref : ColumnRef)
  /-- SQL that is kept as it stands. -/
  | expression (sql : String)
  deriving DecidableEq, Repr

def JoinOperand.isComplete : JoinOperand → Bool
  | column r => r.table ≠ "" && r.column ≠ ""
  | expression s => !Text.allBlank s

structure JoinCondition where
  left : JoinOperand
  operator : Operator
  right : JoinOperand
  deriving DecidableEq, Repr

namespace JoinCondition

def isComplete (c : JoinCondition) : Bool :=
  c.operator.isComparison && c.left.isComplete && c.right.isComplete

/-- The columns on the two sides, if both sides are columns. -/
def columns? (c : JoinCondition) : Option (ColumnRef × ColumnRef) :=
  match c.left, c.right with
  | .column l, .column r => some (l, r)
  | _, _ => none

end JoinCondition

/-- How a table is joined to the tables before it. -/
structure JoinSpec where
  kind : JoinKind := .inner
  conditions : List JoinCondition := []
  deriving DecidableEq, Repr

def JoinSpec.complete (s : JoinSpec) : List JoinCondition := s.conditions.filter (·.isComplete)

end SqlFilter
