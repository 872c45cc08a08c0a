import SqlFilter.Json
import SqlFilter.Tree

/-!
# Filters as JSON

A literal is the JSON value of its kind; a number that is no 64-bit integer is a float. A node says
what it is by a field `type`; the tree itself is a group without that field. What is inside a node
may be given more freely: a type also by its number, a case also with an empty object for the null.
-/

namespace SqlFilter

namespace Literal

/-- The literal as JSON. JSON has no form for a number that is not finite. -/
def toJson : Literal → Json
  | boolean b => .boolean b
  | integer n => .integer n.toInt
  | float x => if x.isFinite then .float x else .null
  | string s => .string s

/-- The literal that a JSON integer is: the nearest float if it needs more than 64 bits. -/
def ofInt (n : Int) : Literal :=
  let i := Int64.ofInt n
  if i.toInt = n then integer i else float (.ofRatio (n < 0) n.natAbs 1)

def ofJson? : Json → Option Literal
  | .boolean b => some (boolean b)
  | .integer n => some (ofInt n)
  | .float x => some (float x)
  | .string s => some (string s)
  | _ => none

end Literal

namespace Operand

def toJson : Operand → Json
  | list vs => .array (vs.map Literal.toJson)
  | single v => v.toJson

def ofJson? : Json → Option Operand
  | .array js => (js.mapM Literal.ofJson?).map list
  | j => (Literal.ofJson? j).map single

end Operand

def Operator.ofJson? : Json → Option Operator := Json.case? all name

def Logic.ofJson? : Json → Option Logic := Json.case? all name

def Placement.ofJson? : Json → Option Placement := Json.case? all name

namespace Condition

/-- The fields of a condition with its identity. What it is not compared with has no field. -/
def toFields (id : String) (c : Condition) : Json.Fields :=
  [("id", .string id), ("table", .string c.table), ("column", .string c.column),
    ("operator", .string c.operator.name)]
  ++ (c.value.map fun v => ("value", v.toJson)).toList
  ++ (c.upper.map fun l => ("value2", l.toJson)).toList
  ++ [("placement", .string c.placement.name)]

def requiredFields : List String := ["id", "table", "column", "operator"]

def optionalFields : List String := ["value", "value2", "placement"]

/-- Reads the fields of a condition. It is placed in the `WHERE` clause unless it says otherwise. -/
def ofFields? (fs : Json.Fields) : Option (String × Condition) := do
  let id ← fs.required "id" Json.string?
  let table ← fs.required "table" Json.string?
  let column ← fs.required "column" Json.string?
  let operator ← fs.required "operator" Operator.ofJson?
  let value ← fs.optional "value" Operand.ofJson?
  let upper ← fs.optional "value2" Literal.ofJson?
  let placement ← fs.withDefault "placement" .atWhere Placement.ofJson?
  return (id, ⟨table, column, operator, value, upper, placement⟩)

def ofJson? (j : Json) : Option (String × Condition) :=
  (j.fields? requiredFields optionalFields).bind ofFields?

end Condition

namespace Node

mutual

def toJson : Node String → Json
  | .condition i c => .object (("type", .string "condition") :: c.toFields i)
  | .group i k cs => .object
    [("type", .string "group"), ("id", .string i), ("logic", .string k.name),
      ("children", .array (allToJson cs))]
  | .raw i s => .object [("type", .string "raw"), ("id", .string i), ("sql", .string s)]

def allToJson : List (Node String) → List Json
  | [] => []
  | n :: ns => toJson n :: allToJson ns

end

/-- What a node may be, in the order of their numbers. -/
def typeNames : List String := ["condition", "group", "raw"]

/-- What a node is, by its field `type`. Inside a node this may be a number. -/
def typeOf? (inNode : Bool) (j : Json) : Option String := do
  let type ← match j with
    | .object ms => ms.lookup "type"
    | .array js => js.head?
    | _ => none
  match type with
  | .string s => some s
  | .integer n => if inNode ∧ 0 ≤ n then typeNames[n.toNat]? else none
  | _ => none

mutual

/-- Reads a node that is inside a node or not. -/
def read? (inNode : Bool) (j : Json) : Option (Node String) :=
  match typeOf? inNode j with
  | some "condition" =>
    (j.fields? ("type" :: Condition.requiredFields) Condition.optionalFields).bind fun fs =>
      (Condition.ofFields? fs.relaxed).map fun (i, c) => .condition i c
  | some "group" =>
    match h : j.fields? ["type", "id", "logic", "children"] [] with
    | none => none
    | some fs =>
      match h' : fs.lookup "children" with
      | some (.array js) =>
        have : sizeOf js < sizeOf j := by
          have := Json.sizeOf_lt_of_fields? h h'
          simp only [Json.array.sizeOf_spec] at this
          omega
        match fs.required "id" Json.string?, fs.relaxed.required "logic" Logic.ofJson?,
          readAll? true js with
        | some i, some k, some cs => some (.group i k cs)
        | _, _, _ => none
      | _ => none
  | some "raw" =>
    match j.fields? ["type", "id", "sql"] [] with
    | none => none
    | some fs =>
      match fs.required "id" Json.string?, fs.required "sql" Json.string? with
      | some i, some s => some (.raw i s)
      | _, _ => none
  | _ => none
termination_by sizeOf j

def readAll? (inNode : Bool) (js : List Json) : Option (List (Node String)) :=
  match js with
  | [] => some []
  | j :: js =>
    match read? inNode j, readAll? inNode js with
    | some n, some ns => some (n :: ns)
    | _, _ => none
termination_by sizeOf js

end

/-- Reads a node that stands by itself. -/
def ofJson? : Json → Option (Node String) := read? false

end Node

namespace Tree

def toJson (t : Tree String) : Json := .object
  [("id", .string t.id), ("logic", .string t.logic.name),
    ("children", .array (Node.allToJson t.children))]

def ofJson? (j : Json) : Option (Tree String) := do
  let fs ← j.fields? ["id", "logic", "children"] []
  let id ← fs.required "id" Json.string?
  let logic ← fs.required "logic" Logic.ofJson?
  let children ← fs.required "children" fun
    | .array js => Node.readAll? false js
    | _ => none
  return ⟨id, logic, children⟩

end Tree

end SqlFilter
