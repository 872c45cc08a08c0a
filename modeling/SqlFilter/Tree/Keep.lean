import SqlFilter.Tree

/-!
# Parts of filter trees

The part of a tree whose leaves satisfy a test. Groups without such a leaf are left out, the root
excepted.
-/

namespace SqlFilter

variable {ι : Type}

/-- A test on leaves: conditions with their identity, and `none` for raw SQL. -/
abbrev LeafTest (ι : Type) := Option (ι × Condition) → Bool

mutual

/-- The node with the leaves that pass the test; nothing is left of a group without any. -/
def Node.kept? (keep : LeafTest ι) : Node ι → Option (Node ι)
  | .condition i c => if keep (some (i, c)) then some (.condition i c) else none
  | .group i k cs => match Node.allKept keep cs with
    | [] => none
    | rest => some (.group i k rest)
  | .raw i s => if keep none then some (.raw i s) else none

def Node.allKept (keep : LeafTest ι) : List (Node ι) → List (Node ι)
  | [] => []
  | n :: ns => match n.kept? keep with
    | some rest => rest :: Node.allKept keep ns
    | none => Node.allKept keep ns

end

namespace Tree

def kept (keep : LeafTest ι) (t : Tree ι) : Tree ι :=
  { t with children := Node.allKept keep t.children }

/-- The tree without empty groups below the root. -/
def pruned (t : Tree ι) : Tree ι := t.kept fun _ => true

/-- The part that goes to the `ON` clause of a table, or of any table if none is given. Raw SQL
never goes there. -/
def onPart (table : Option String) (t : Tree ι) : Tree ι :=
  t.kept fun
    | some (_, c) => c.placement = .on && table.all (c.table == ·)
    | none => false

/-- The part that is placed in the `WHERE` clause, raw SQL included. -/
def wherePart (t : Tree ι) : Tree ι :=
  t.kept fun
    | some (_, c) => c.placement = .atWhere
    | none => true

/-- The part with the given placement; the table matters to `ON` only. -/
def placed (p : Placement) (table : Option String) (t : Tree ι) : Tree ι :=
  match p with
  | .on => t.onPart table
  | .atWhere => t.wherePart

end Tree

end SqlFilter
