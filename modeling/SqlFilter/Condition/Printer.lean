import SqlFilter.Condition
import SqlFilter.Dialect

/-!
# Conditions as SQL
-/

namespace SqlFilter

/-- The layout of numbers in SQL: a point between `0.0001` and `10 ^ 16`, an exponent outside. -/
def Literal.layout : Decimal.Layout := ⟨-4, 15, .away, false⟩

/-- The name of a number that no numeral denotes. -/
def Binary64.specialName (x : Binary64) : String :=
  if x.isNaN then "NaN" else if x.negative then "-inf" else "inf"

namespace Literal

/-- The literal in SQL. A float always has a fraction or an exponent, so that it is read as a float
again; one that is not finite is written as a string. -/
def sql (d : Dialect) : Literal → String
  | boolean b => if b then "TRUE" else "FALSE"
  | integer n => toString n.toInt
  | float x => if x.isFinite then x.text layout else d.quoteString x.specialName
  | string s => d.quoteString s

end Literal

def Dialect.operatorName (d : Dialect) (op : Operator) : String :=
  if op = .ilike ∧ d.supportsIlike = false then "LIKE" else op.name

namespace Condition

/-- A bound of a range: cast if there is a type to cast it to. -/
def boundSql (d : Dialect) (cast : Option String) (l : Literal) : String :=
  match cast with
  | some t => d.safeCast (l.sql d) t
  | none => l.sql d

/-- The condition in SQL; `cast` is the type that the bounds of a range are cast to. An incomplete
condition is written as nothing. -/
def sql (d : Dialect) (cast : Option String) (c : Condition) : String :=
  if c.IsComplete then
    let head := d.quotePath [c.table, c.column] ++ " " ++ d.operatorName c.operator
    match c.operator.shape, c.value, c.upper with
    | .list, some (.list vs), _ =>
      head ++ " (" ++ String.intercalate ", " (vs.map (Literal.sql d)) ++ ")"
    | .bounds, some (.single low), some high =>
      head ++ " " ++ boundSql d cast low ++ " AND " ++ boundSql d cast high
    | .single, some (.single v), _ => head ++ " " ++ v.sql d
    | _, _, _ => head
  else ""

end Condition

end SqlFilter
