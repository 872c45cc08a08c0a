import SqlFilter.Json
import SqlFilter.Json.Filter
import SqlFilter.Query.Session

/-!
# Queries and plans as JSON

Records are objects with one member for each field. What is one of several cases says which one by a
field of its own, beside the fields of that case.
-/

namespace SqlFilter

def Json.ofText : Option String → Json
  | some s => .string s
  | none => .null

/-- The case that a record is, by the field `tag`, and its other fields. -/
def Json.tagged? (tag : String) (cases : List (String × List String)) (j : Json) :
    Option (String × Json.Fields) := do
  let name ← match j with
    | .object ms => Json.Fields.required ms tag Json.string?
    | .array (t :: _) => t.string?
    | _ => none
  let names ← cases.lookup name
  let fs ← j.fields? (tag :: names) []
  return (name, fs)

/-! ## Tables -/

def Dialect.ofJson? : Json → Option Dialect := Json.case? all name

namespace Connection

def toJson (c : Connection) : Json :=
  .object [("id", .string c.id), ("name", .string c.name), ("type", .string c.kind)]

def ofJson? (j : Json) : Option Connection := do
  let fs ← j.fields? ["id", "name", "type"] []
  return ⟨← fs.required "id" Json.string?, ← fs.required "name" Json.string?,
    ← fs.required "type" Json.string?⟩

end Connection

namespace Column

def toJson (c : Column) : Json := .object [("name", .string c.name), ("type", .string c.type)]

def ofJson? (j : Json) : Option Column := do
  let fs ← j.fields? ["name", "type"] []
  return ⟨← fs.required "name" Json.string?, ← fs.required "type" Json.string?⟩

end Column

namespace Attachment

def toJson (a : Attachment) : Json :=
  .object [("alias", .string a.aliasName), ("connection_id", .string a.connection),
    ("type", .string a.kind)]

def ofJson? (j : Json) : Option Attachment := do
  let fs ← j.fields? ["alias", "connection_id", "type"] []
  return ⟨← fs.required "alias" Json.string?, ← fs.required "connection_id" Json.string?,
    ← fs.required "type" Json.string?⟩

end Attachment

namespace TableSource

def toJson : TableSource → Json
  | ownEngine => .object [("kind", .string "local")]
  | external c => .object [("kind", .string "external"), ("connection", c.toJson)]

def ofJson? (j : Json) : Option TableSource := do
  match ← j.tagged? "kind" [("local", []), ("external", ["connection"])] with
  | ("local", _) => return ownEngine
  | (_, fs) => return external (← fs.required "connection" Connection.ofJson?)

end TableSource

namespace Table

/-- The table as JSON. Without a schema there is no field for it. -/
def toJson (t : Table) : Json := .object <|
  [("name", .string t.name)] ++ (t.schema.map fun s => ("schema", Json.string s)).toList
  ++ [("source", t.source.toJson), ("columns", .array (t.columns.map Column.toJson))]

def ofJson? (j : Json) : Option Table := do
  let fs ← j.fields? ["name", "schema", "source"] ["columns"]
  return ⟨← fs.required "name" Json.string?, ← fs.optional "schema" Json.string?,
    ← fs.required "source" TableSource.ofJson?,
    ← fs.withDefault "columns" [] (Json.items? Column.ofJson?)⟩

end Table

namespace TableRef

def toJson : TableRef → Json
  | ownTable n s => .object
    [("kind", .string "local"), ("name", .string n), ("schema", Json.ofText s)]
  | external n s a c => .object
    [("kind", .string "external"), ("name", .string n), ("schema", Json.ofText s),
      ("alias", .string a), ("connection_id", .string c)]

def ofJson? (j : Json) : Option TableRef := do
  let cases := [("local", ["name", "schema"]),
    ("external", ["name", "schema", "alias", "connection_id"])]
  match ← j.tagged? "kind" cases with
  | ("local", fs) =>
    return ownTable (← fs.required "name" Json.string?) (← fs.optional "schema" Json.string?)
  | (_, fs) =>
    return external (← fs.required "name" Json.string?) (← fs.optional "schema" Json.string?)
      (← fs.required "alias" Json.string?) (← fs.required "connection_id" Json.string?)

end TableRef

namespace ExecutionSource

def toJson : ExecutionSource → Json
  | ownEngine => .object [("type", .string "duckdb")]
  | federated attached => .object
    [("type", .string "federated"), ("attach_databases", .array (attached.map Attachment.toJson))]

def ofJson? (j : Json) : Option ExecutionSource := do
  match ← j.tagged? "type" [("duckdb", []), ("federated", ["attach_databases"])] with
  | ("duckdb", _) => return ownEngine
  | (_, fs) => return federated (← fs.required "attach_databases" (Json.items? Attachment.ofJson?))

end ExecutionSource

/-! ## Joins -/

def JoinKind.ofJson? : Json → Option JoinKind := Json.case? all name

namespace JoinOperand

def toJson : JoinOperand → Json
  | column r => .object
    [("mode", .string "column"), ("table", .string r.table), ("column", .string r.column)]
  | expression s => .object [("mode", .string "expression"), ("sql", .string s)]

def ofJson? (j : Json) : Option JoinOperand := do
  match ← j.tagged? "mode" [("column", ["table", "column"]), ("expression", ["sql"])] with
  | ("column", fs) =>
    return column ⟨← fs.required "table" Json.string?, ← fs.required "column" Json.string?⟩
  | (_, fs) => return expression (← fs.required "sql" Json.string?)

end JoinOperand

namespace JoinCondition

def toJson (c : JoinCondition) : Json :=
  .object [("left", c.left.toJson), ("operator", .string c.operator.name),
    ("right", c.right.toJson)]

def ofJson? (j : Json) : Option JoinCondition := do
  let fs ← j.fields? ["left", "operator", "right"] []
  return ⟨← fs.required "left" JoinOperand.ofJson?, ← fs.required "operator" Operator.ofJson?,
    ← fs.required "right" JoinOperand.ofJson?⟩

end JoinCondition

namespace JoinSpec

def toJson (s : JoinSpec) : Json :=
  .object [("kind", .string s.kind.name),
    ("conditions", .array (s.conditions.map JoinCondition.toJson))]

def ofJson? (j : Json) : Option JoinSpec := do
  let fs ← j.fields? ["kind"] ["conditions"]
  return ⟨← fs.required "kind" JoinKind.ofJson?,
    ← fs.withDefault "conditions" [] (Json.items? JoinCondition.ofJson?)⟩

end JoinSpec

/-! ## Conflicts -/

def Category.ofJson? : Json → Option Category := Json.case? all name

def Verdict.ofJson? : Json → Option Verdict := Json.case? all name

namespace ColumnPair

def toJson (p : ColumnPair) : Json :=
  .object [("left_table", .string p.left.table), ("left_column", .string p.left.column),
    ("left_type", .string p.leftType), ("right_table", .string p.right.table),
    ("right_column", .string p.right.column), ("right_type", .string p.rightType)]

def ofJson? (j : Json) : Option ColumnPair := do
  let fs ← j.fields? ["left_table", "left_column", "left_type", "right_table", "right_column",
    "right_type"] []
  let text (name : String) := fs.required name Json.string?
  return ⟨⟨← text "left_table", ← text "left_column"⟩, ← text "left_type",
    ⟨← text "right_table", ← text "right_column"⟩, ← text "right_type"⟩

end ColumnPair

namespace ConflictKey

def toJson : ConflictKey → Json
  | join l r => .object
    [("kind", .string "join"), ("left_table", .string l.table), ("left_column", .string l.column),
      ("right_table", .string r.table), ("right_column", .string r.column)]
  | range node => .object [("kind", .string "range"), ("node_id", .string node)]

def ofJson? (j : Json) : Option ConflictKey := do
  let cases := [("join", ["left_table", "left_column", "right_table", "right_column"]),
    ("range", ["node_id"])]
  match ← j.tagged? "kind" cases with
  | ("join", fs) =>
    let text (name : String) := fs.required name Json.string?
    return join ⟨← text "left_table", ← text "left_column"⟩
      ⟨← text "right_table", ← text "right_column"⟩
  | (_, fs) => return range (← fs.required "node_id" Json.string?)

end ConflictKey

namespace Resolution

def toJson : Resolution → Json
  | unresolved => .object [("state", .string "unresolved")]
  | acceptedDefault => .object [("state", .string "accepted-default")]
  | overridden type => .object [("state", .string "user-overridden"), ("cast_type", .string type)]

/-- Reads a decision. Without a type to cast to there is no field for it, or it is null. In an array
the state is a text and in an object it is a case. -/
def ofJson? (j : Json) : Option Resolution := do
  let fs ← j.fields? ["state", "cast_type"] []
  let name? := if j matches .array _ then Json.string? else Json.caseName?
  match ← fs.required "state" name?, (fs.lookup "cast_type").getD .null with
  | "unresolved", .null => return unresolved
  | "accepted-default", .null => return acceptedDefault
  | "user-overridden", .string type => return overridden type
  | _, _ => none

end Resolution

namespace Conflict

def toJson (c : Conflict) : Json :=
  .object [("key", c.key.toJson), ("left_type", .string c.leftType),
    ("right_type", .string c.rightType), ("verdict", .string c.verdict.name),
    ("recommended_cast", Json.ofText c.recommended), ("resolution", c.resolution.toJson)]

def ofJson? (j : Json) : Option Conflict := do
  let fs ← j.fields? ["key", "left_type", "right_type", "verdict", "recommended_cast",
    "resolution"] []
  return ⟨← fs.required "key" ConflictKey.ofJson?, ← fs.required "left_type" Json.string?,
    ← fs.required "right_type" Json.string?, ← fs.required "verdict" Verdict.ofJson?,
    ← fs.optional "recommended_cast" Json.string?, ← fs.required "resolution" Resolution.ofJson?⟩

end Conflict

/-! ## Plans -/

def QueryShape.ofJson? : Json → Option QueryShape := Json.case? all name

namespace Plan

def toJson (p : Plan) : Json :=
  .object [("sql", .string p.sql),
    ("attach_databases", .array (p.attached.map Attachment.toJson)),
    ("unresolved_conflicts", .array (p.unresolved.map Conflict.toJson)),
    ("source", p.source.toJson), ("shape", .string p.shape.name),
    ("incomplete_joins", .array (p.incomplete.map .string))]

def ofJson? (j : Json) : Option Plan := do
  let fs ← j.fields? ["sql", "attach_databases", "unresolved_conflicts", "source", "shape",
    "incomplete_joins"] []
  return ⟨← fs.required "sql" Json.string?,
    ← fs.required "attach_databases" (Json.items? Attachment.ofJson?),
    ← fs.required "unresolved_conflicts" (Json.items? Conflict.ofJson?),
    ← fs.required "source" ExecutionSource.ofJson?, ← fs.required "shape" QueryShape.ofJson?,
    ← fs.required "incomplete_joins" (Json.items? Json.string?)⟩

end Plan

end SqlFilter
