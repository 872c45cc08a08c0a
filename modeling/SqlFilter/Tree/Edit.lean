import SqlFilter.Tree

/-!
# Editing filter trees

Nodes are found, removed and changed by their identity. Of several nodes with the same identity a
search and a change take the first one in document order; a removal takes all of them.
-/

namespace SqlFilter

variable {ι : Type} [DecidableEq ι]

/-! ## Finding -/

mutual

/-- The first node with the identity at or below the node. -/
def Node.find? (i : ι) : Node ι → Option (Node ι)
  | .condition j c => if j = i then some (.condition j c) else none
  | .group j k cs => if j = i then some (.group j k cs) else Node.findAmong? i cs
  | .raw j s => if j = i then some (.raw j s) else none

def Node.findAmong? (i : ι) : List (Node ι) → Option (Node ι)
  | [] => none
  | n :: ns => match n.find? i with
    | some found => some found
    | none => Node.findAmong? i ns

end

/-- The first node below the root with the identity. -/
def Tree.find? (i : ι) (t : Tree ι) : Option (Node ι) := Node.findAmong? i t.children

/-- Whether the root or a node below it has the identity. -/
def Tree.contains (i : ι) (t : Tree ι) : Bool := t.id = i || (t.find? i).isSome

/-! ## Removing -/

mutual

/-- The node without the nodes of the identity: nothing is left of a node that has it, nor of a
group that the removal empties. -/
def Node.without? (i : ι) : Node ι → Option (Node ι)
  | .condition j c => if j = i then none else some (.condition j c)
  | .group j k cs =>
    if j = i then none
    else if (Node.findAmong? i cs).isNone then some (.group j k cs)
    else match Node.allWithout i cs with
      | [] => none
      | rest => some (.group j k rest)
  | .raw j s => if j = i then none else some (.raw j s)

def Node.allWithout (i : ι) : List (Node ι) → List (Node ι)
  | [] => []
  | n :: ns => match n.without? i with
    | some rest => rest :: Node.allWithout i ns
    | none => Node.allWithout i ns

end

/-- Removes the nodes with the identity below the root, and the groups that this empties. -/
def Tree.remove (i : ι) (t : Tree ι) : Tree ι := { t with children := Node.allWithout i t.children }

/-! ## Changing -/

mutual

/-- The node with the first node of the identity changed by `f`, which keeps its identity. -/
def Node.update? (i : ι) (f : Node ι → Node ι) : Node ι → Option (Node ι)
  | .condition j c => if j = i then some ((f (.condition j c)).withId j) else none
  | .group j k cs =>
    if j = i then some ((f (.group j k cs)).withId j)
    else (Node.updateAmong? i f cs).map (.group j k)
  | .raw j s => if j = i then some ((f (.raw j s)).withId j) else none

def Node.updateAmong? (i : ι) (f : Node ι → Node ι) : List (Node ι) → Option (List (Node ι))
  | [] => none
  | n :: ns => match n.update? i f with
    | some changed => some (changed :: ns)
    | none => (Node.updateAmong? i f ns).map (n :: ·)

end

/-- Changes the first node with the identity by `f`; the node keeps its identity. The root stays a
group: a leaf in its place becomes its only child. -/
def Tree.update (i : ι) (f : Node ι → Node ι) (t : Tree ι) : Tree ι :=
  if t.id = i then
    match f t.toNode with
    | .group _ k cs => ⟨t.id, k, cs⟩
    | leaf => { t with children := [leaf] }
  else { t with children := (Node.updateAmong? i f t.children).getD t.children }

/-- Appends a condition to the root. It takes the identity `fresh` if its own is in use. -/
def Tree.append (fresh i : ι) (c : Condition) (t : Tree ι) : Tree ι :=
  let i := if t.contains i then fresh else i
  { t with children := t.children ++ [.condition i c] }

def Node.toggled : Node ι → Node ι
  | .group i k cs => .group i k.toggled cs
  | n => n

/-- Toggles the connective of the first node with the identity, if that is a group. -/
def Tree.toggle (i : ι) (t : Tree ι) : Tree ι := t.update i Node.toggled

end SqlFilter
