import SqlFilter.Query.Join
import SqlFilter.Table
import SqlFilter.Tree.Printer

/-!
# Statements

A `SELECT` statement over joined tables, and its text.
-/

namespace SqlFilter

structure OutputColumn where
  /-- The alias of its table. -/
  table : String
  column : String
  /-- Its name in the result, where that is another one. -/
  aliasName : Option String
  deriving DecidableEq, Repr

def OutputColumn.name (c : OutputColumn) : String := c.aliasName.getD c.column

structure TableItem where
  ref : TableRef
  aliasName : String
  deriving DecidableEq, Repr

inductive OnPart where
  /-- A comparison, both sides cast to a type if one is given. -/
  | comparison (c : JoinCondition) (cast : Option String)
  | filter (t : Tree String)

structure Joined where
  kind : JoinKind
  item : TableItem
  /-- The filter that the rows of the table pass before the join. -/
  pushed : Option (Tree String)
  /-- The parts of the `ON` clause, all of which have to hold. -/
  on : List OnPart

structure Statement where
  /-- The columns of the result; all columns if there are none. -/
  columns : List OutputColumn
  first : TableItem
  joins : List Joined
  filter : Tree String
  limit : UInt64

/-- The `ON` clause of a join without any part. -/
def Joined.placeholder : String := "TRUE /* join condition required */"

def Joined.isIncomplete (j : Joined) : Bool := j.on.isEmpty

def JoinOperand.sql (d : Dialect) : JoinOperand → String
  | column r => d.quotePath [r.table, r.column]
  | expression s => Text.trim s

/-- A comparison in SQL, both sides cast to a type if one is given. -/
def JoinCondition.sql (d : Dialect) (cast : Option String) (c : JoinCondition) : String :=
  let side (o : JoinOperand) := match cast with
    | some type => d.safeCast (o.sql d) type
    | none => o.sql d
  side c.left ++ " " ++ c.operator.name ++ " " ++ side c.right

namespace Printer

variable (p : Printer String)

def column (c : OutputColumn) : String :=
  let source := p.dialect.quoteName c.table ++ "." ++ p.dialect.quoteName c.column
  match c.aliasName with
  | some a => source ++ " AS " ++ p.dialect.quoteName a
  | none => source

def item (i : TableItem) : String :=
  i.ref.sql p.dialect ++ " AS " ++ p.dialect.quoteName i.aliasName

def onPart : OnPart → String
  | .comparison c cast => c.sql p.dialect cast
  | .filter t => p.tree t

def onClause (parts : List OnPart) : String :=
  if parts.isEmpty then Joined.placeholder else String.intercalate " AND " (parts.map p.onPart)

/-- A joined table in SQL, in a derived table if it is filtered before the join. -/
def joined (j : Joined) : String :=
  let source := match j.pushed with
    | some t =>
      "(SELECT * FROM " ++ p.item j.item ++ " WHERE " ++ p.tree t ++ ") AS "
        ++ p.dialect.quoteName j.item.aliasName
    | none => p.item j.item
  j.kind.sql ++ " " ++ source ++ " ON " ++ p.onClause j.on

def statement (s : Statement) : String :=
  let columns := if s.columns.isEmpty then "*" else String.intercalate ", " (s.columns.map p.column)
  let joins := String.join (s.joins.map fun j => " " ++ p.joined j)
  let filter := p.tree s.filter
  "SELECT " ++ columns ++ " FROM " ++ p.item s.first ++ joins
    ++ (if filter = "" then "" else " WHERE " ++ filter) ++ " LIMIT " ++ toString s.limit.toNat

end Printer

end SqlFilter
