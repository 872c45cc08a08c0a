import SqlFilter.Category
import SqlFilter.Tree

/-!
# Type conflicts

A comparison of two columns in a join, or of the two bounds of a range, is in conflict if the
categories of its sides differ. A conflict goes by a key that stays the same as long as the
comparison does, so that the decision on it survives when the conflicts are looked for again.
-/

namespace SqlFilter

/-- A column of a table, by the alias of the table. -/
structure ColumnRef where
  table : String
  column : String
  deriving DecidableEq, Repr

inductive ConflictKey where
  | join (left right : ColumnRef)
  /-- The bounds of the range with this identity. -/
  | range (node : String)
  deriving DecidableEq, Repr

def ConflictKey.message : ConflictKey → String
  | join l r => l.table ++ "." ++ l.column ++ " = " ++ r.table ++ "." ++ r.column
  | range node => "BETWEEN bounds of " ++ node

inductive Resolution where
  | unresolved
  | acceptedDefault
  | overridden (type : String)
  deriving DecidableEq, Repr

structure Conflict where
  key : ConflictKey
  /-- The type of the left side, or the category of the lower bound. -/
  leftType : String
  /-- The type of the right side, or the category of the upper bound. -/
  rightType : String
  verdict : Verdict
  recommended : Option String
  resolution : Resolution
  deriving DecidableEq, Repr

namespace Conflict

/-- Whether the conflict has to be decided before a statement may run. -/
def isBlocking (c : Conflict) : Bool := c.verdict ≠ .compatible && c.resolution = .unresolved

/-- The type to cast both sides to, once that is decided. -/
def castType (c : Conflict) : Option String :=
  match c.resolution with
  | .unresolved => none
  | .acceptedDefault => c.recommended
  | .overridden type => some type

end Conflict

/-- Two columns compared in a join, with their reported types. -/
structure ColumnPair where
  left : ColumnRef
  leftType : String
  right : ColumnRef
  rightType : String
  deriving DecidableEq, Repr

def ColumnPair.key (p : ColumnPair) : ConflictKey := .join p.left p.right

/-- A comparison that may be in conflict: its key, and what is known about its sides. -/
structure Comparison where
  key : ConflictKey
  leftType : String
  rightType : String
  left : Category
  right : Category
  deriving DecidableEq, Repr

namespace Comparison

def ofPair (p : ColumnPair) : Comparison :=
  ⟨p.key, p.leftType, p.rightType, .ofType p.leftType, .ofType p.rightType⟩

/-- The comparison of the bounds of a range that has both. -/
def ofRange? (node : String) (c : Condition) : Option Comparison :=
  match c.operator, c.value, c.upper with
  | .between, some (.single low), some high =>
    let l := Category.ofLiteral low
    let r := Category.ofLiteral high
    some ⟨.range node, l.name, r.name, l, r⟩
  | _, _, _ => none

def ofBounds (node : String) (low high : Literal) : Comparison :=
  ⟨.range node, (Category.ofLiteral low).name, (Category.ofLiteral high).name, .ofLiteral low,
    .ofLiteral high⟩

theorem ofRange?_eq_some_iff {node : String} {c : Condition} {comparison : Comparison} :
    ofRange? node c = some comparison ↔ ∃ low high, c.operator = .between ∧
      c.value = some (.single low) ∧ c.upper = some high ∧ comparison = ofBounds node low high := by
  constructor
  · intro h
    unfold ofRange? at h
    split at h
    · next low high hop hvalue hupper =>
      exact ⟨low, high, hop, hvalue, hupper, (Option.some.inj h).symm⟩
    · cases h
  · rintro ⟨low, high, hop, hvalue, hupper, rfl⟩
    rw [ofRange?, hop, hvalue, hupper]
    rfl

/-- The comparisons of a query: of columns first, then of bounds in document order. -/
def all (pairs : List ColumnPair) (filter : Tree String) : List Comparison :=
  pairs.map ofPair ++ filter.conditions.filterMap fun (i, c) => ofRange? i c

def conflict? (c : Comparison) (resolution : Resolution) : Option Conflict :=
  match c.left.compare c.right with
  | (.compatible, _) => none
  | (verdict, cast) => some ⟨c.key, c.leftType, c.rightType, verdict, cast, resolution⟩

end Comparison

/-- The conflicts of a session with what is decided on them. -/
structure ConflictLog where
  /-- The conflicts in the order they were found. -/
  conflicts : List Conflict := []
  deriving DecidableEq, Repr

namespace ConflictLog

def find? (log : ConflictLog) (key : ConflictKey) : Option Conflict :=
  log.conflicts.find? (·.key = key)

def resolution (log : ConflictLog) (key : ConflictKey) : Resolution :=
  match log.find? key with
  | some c => c.resolution
  | none => .unresolved

/-- Adds the conflict that a comparison is in, unless its key is there already. Decisions are taken
over from `old`. -/
def add (old log : ConflictLog) (c : Comparison) : ConflictLog :=
  match c.conflict? (old.resolution c.key) with
  | none => log
  | some conflict =>
    if (log.find? c.key).isSome then log else ⟨log.conflicts ++ [conflict]⟩

/-- Looks for the conflicts again. Decisions on keys that are still in conflict are kept, all others
are forgotten. -/
def detect (log : ConflictLog) (pairs : List ColumnPair) (filter : Tree String) : ConflictLog :=
  (Comparison.all pairs filter).foldl (add log) {}

/-- Accepts the recommended cast of a conflict on which nothing is decided. -/
def acceptDefault (c : Conflict) : Conflict :=
  if c.resolution = .unresolved ∧ c.recommended.isSome then
    { c with resolution := .acceptedDefault }
  else c

def acceptDefaults (log : ConflictLog) : ConflictLog := ⟨log.conflicts.map acceptDefault⟩

def isTypeChar (c : Char) : Bool :=
  c.isAlphanum || c == '_' || c == ' ' || c == '(' || c == ')' || c == ','

/-- Whether the text, less the blanks around it, may be the name of a type. -/
def isTypeName (s : String) : Bool :=
  match (Text.trim s).toList with
  | [] => false
  | c :: cs => c.isAlpha && (c :: cs).all isTypeChar

/-- The decision that a user takes by naming a type to cast to, or none to undecide. A name that no
type can have is no decision. -/
def decision? : Option String → Option Resolution
  | none => some .unresolved
  | some type =>
    if isTypeName type then some (.overridden (Text.upper (Text.trim type))) else none

/-- Takes a decision on the first of the conflicts that has the key. -/
def decideAmong (key : ConflictKey) (r : Resolution) : List Conflict → List Conflict
  | [] => []
  | c :: cs => if c.key = key then { c with resolution := r } :: cs else c :: decideAmong key r cs

/-- Takes the user's decision on a conflict. It is refused if there is no such conflict or no such
type. -/
def resolve (log : ConflictLog) (key : ConflictKey) (type : Option String) : Bool × ConflictLog :=
  if (log.find? key).isNone then (false, log)
  else match decision? type with
    | none => (false, log)
    | some r => (true, ⟨decideAmong key r log.conflicts⟩)

def unresolved (log : ConflictLog) : List Conflict := log.conflicts.filter Conflict.isBlocking

/-- The type to cast the sides of a comparison to. -/
def castFor (log : ConflictLog) (key : ConflictKey) : Option String :=
  (log.find? key).bind Conflict.castType

def rangeCast (log : ConflictLog) (node : String) : Option String := log.castFor (.range node)

def rangeCasts (log : ConflictLog) : List (String × String) :=
  log.conflicts.filterMap fun c =>
    match c.key, c.castType with
    | .range node, some type => some (node, type)
    | _, _ => none

end ConflictLog

end SqlFilter
