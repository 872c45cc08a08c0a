import SqlFilter.Condition.Printer
import SqlFilter.Error
import SqlFilter.Tree.Keep

/-!
# Filter trees as SQL

Every group is written in parentheses, those with a single member included, so that reading the text
gives the structure back. What is written as nothing is left out together with its connective. Raw
SQL among several members of a group gets parentheses of its own, which keeps its operators from
combining with those around it.
-/

namespace SqlFilter

variable {ι : Type}

/-- What trees are written with. -/
structure Printer (ι : Type) where
  dialect : Dialect
  maxDepth : Nat := 5
  /-- The types that the bounds of ranges are cast to. -/
  casts : ι → Option String := fun _ => none

/-- A member of a group in SQL. -/
structure Member where
  /-- Its text, which is not empty. -/
  sql : String
  isRaw : Bool
  deriving DecidableEq, Repr

namespace Printer

def parenthesized (s : String) : String := "(" ++ s ++ ")"

/-- The members of a group joined by its connective; nothing if there are none. -/
def join (k : Logic) : List Member → String
  | [] => ""
  | [m] => parenthesized m.sql
  | ms => parenthesized <| String.intercalate (" " ++ k.name ++ " ") <|
      ms.map fun m => if m.isRaw then parenthesized m.sql else m.sql

mutual

def node (p : Printer ι) : Node ι → String
  | .condition i c => c.sql p.dialect (p.casts i)
  | .group _ k cs => join k (members p cs)
  | .raw _ s => Text.trim s

/-- The nodes in SQL, without those that are written as nothing. -/
def members (p : Printer ι) : List (Node ι) → List Member
  | [] => []
  | n :: ns =>
    let s := node p n
    if s = "" then members p ns else ⟨s, n.isRaw⟩ :: members p ns

end

/-- A tree in SQL, however deep. -/
def tree (p : Printer ι) (t : Tree ι) : String := join t.logic (p.members t.children)

/-- A node in SQL, unless its groups are nested too deeply. -/
def writeNode (p : Printer ι) (n : Node ι) : Except Error String :=
  (checkDepth n.depth p.maxDepth).map fun _ => p.node n

def write (p : Printer ι) (t : Tree ι) : Except Error String :=
  (checkDepth t.depth p.maxDepth).map fun _ => p.tree t

end Printer

end SqlFilter
