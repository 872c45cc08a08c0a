import SqlFilter.Condition

/-!
# Filter trees

A filter tree is a group of conditions, further groups and pieces of raw SQL, joined by `AND` or
`OR`. Every node has an identity of the type `ι`, by which editors refer to it; trees that are
merely compared or read from text use `Unit`.
-/

namespace SqlFilter

inductive Logic where
  | and
  | or
  deriving DecidableEq, Repr

namespace Logic

def all : List Logic := [and, or]

def name : Logic → String
  | and => "AND"
  | or => "OR"

def toggled : Logic → Logic
  | and => or
  | or => and

@[simp] theorem toggled_toggled (k : Logic) : k.toggled.toggled = k := by cases k <;> rfl

end Logic

inductive Node (ι : Type) where
  | condition (id : ι) (condition : Condition)
  | group (id : ι) (logic : Logic) (children : List (Node ι))
  /-- A piece of SQL that is kept as it stands. -/
  | raw (id : ι) (sql : String)
  deriving Repr

/-- A filter tree: the group at its root. -/
structure Tree (ι : Type) where
  id : ι
  logic : Logic
  children : List (Node ι)
  deriving Repr

variable {ι : Type}

namespace Node

def id : Node ι → ι
  | condition i _ => i
  | group i _ _ => i
  | raw i _ => i

def withId (i : ι) : Node ι → Node ι
  | condition _ c => condition i c
  | group _ k cs => group i k cs
  | raw _ s => raw i s

def isRaw : Node ι → Bool
  | raw _ _ => true
  | _ => false

@[simp] theorem id_withId (i : ι) (n : Node ι) : (n.withId i).id = i := by cases n <;> rfl

@[simp] theorem withId_id (n : Node ι) : n.withId n.id = n := by cases n <;> rfl

end Node

def Tree.toNode (t : Tree ι) : Node ι := .group t.id t.logic t.children

/-! ## Leaves -/

mutual

/-- The leaves of the node in document order: conditions, and `none` for raw SQL, each with its
identity. -/
def Node.leaves : Node ι → List (ι × Option Condition)
  | .condition i c => [(i, some c)]
  | .group _ _ cs => Node.allLeaves cs
  | .raw i _ => [(i, none)]

def Node.allLeaves : List (Node ι) → List (ι × Option Condition)
  | [] => []
  | n :: ns => n.leaves ++ Node.allLeaves ns

end

def Tree.conditions (t : Tree ι) : List (ι × Condition) :=
  (Node.allLeaves t.children).filterMap fun (i, c) => c.map (i, ·)

/-- The number of conditions; raw SQL does not count. -/
def Tree.count (t : Tree ι) : Nat := t.conditions.length

/-! ## Depth -/

mutual

/-- How deep groups are nested at the node. A leaf adds nothing. -/
def Node.depth : Node ι → Nat
  | .group _ _ cs => 1 + Node.maxDepth cs
  | _ => 0

def Node.maxDepth : List (Node ι) → Nat
  | [] => 0
  | n :: ns => max n.depth (Node.maxDepth ns)

end

/-- How deep groups are nested, the root counting as one. -/
def Tree.depth (t : Tree ι) : Nat := 1 + Node.maxDepth t.children

/-! ## Identities -/

mutual

/-- The identities at and below the node in document order. -/
def Node.ids : Node ι → List ι
  | .condition i _ => [i]
  | .group i _ cs => i :: Node.allIds cs
  | .raw i _ => [i]

def Node.allIds : List (Node ι) → List ι
  | [] => []
  | n :: ns => n.ids ++ Node.allIds ns

end

/-- The identities of the tree in document order, the root first. -/
def Tree.ids (t : Tree ι) : List ι := t.id :: Node.allIds t.children

section Unique

variable [DecidableEq ι]

mutual

/-- Adds the identities of the node to those seen so far, unless one is seen already. -/
def Node.addIds (seen : List ι) : Node ι → Option (List ι)
  | .condition i _ => if i ∈ seen then none else some (i :: seen)
  | .group i _ cs => if i ∈ seen then none else Node.addAllIds (i :: seen) cs
  | .raw i _ => if i ∈ seen then none else some (i :: seen)

def Node.addAllIds (seen : List ι) : List (Node ι) → Option (List ι)
  | [] => some seen
  | n :: ns => (n.addIds seen).bind fun seen => Node.addAllIds seen ns

end

/-- Whether no two nodes have the same identity. -/
def Tree.hasUniqueIds (t : Tree ι) : Bool := (Node.addAllIds [t.id] t.children).isSome

end Unique

/-! ## Renaming -/

mutual

def Node.size : Node ι → Nat
  | .group _ _ cs => 1 + Node.totalSize cs
  | _ => 1

def Node.totalSize : List (Node ι) → Nat
  | [] => 0
  | n :: ns => n.size + Node.totalSize ns

end

mutual

/-- The node with new identities, drawn from `name` in document order from `k` on. -/
def Node.renamed {κ : Type} (name : Nat → κ) (k : Nat) : Node ι → Node κ
  | .condition _ c => .condition (name k) c
  | .group _ logic cs => .group (name k) logic (Node.allRenamed name (k + 1) cs)
  | .raw _ s => .raw (name k) s

def Node.allRenamed {κ : Type} (name : Nat → κ) (k : Nat) : List (Node ι) → List (Node κ)
  | [] => []
  | n :: ns => n.renamed name k :: Node.allRenamed name (k + n.size) ns

end

def Tree.size (t : Tree ι) : Nat := 1 + Node.totalSize t.children

def Tree.renamed {κ : Type} (name : Nat → κ) (k : Nat) (t : Tree ι) : Tree κ :=
  ⟨name k, t.logic, Node.allRenamed name (k + 1) t.children⟩

end SqlFilter
