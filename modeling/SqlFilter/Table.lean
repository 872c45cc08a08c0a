import SqlFilter.Dialect
import SqlFilter.Error

/-!
# Tables

The tables of a query are local or belong to an external connection. A statement refers to them by
qualified names, whose first part is the alias of the attached database for external tables and for
those only.
-/

namespace SqlFilter

/-- An external database. -/
structure Connection where
  id : String
  name : String
  /-- The engine it runs on. -/
  kind : String
  deriving DecidableEq, Repr

inductive TableSource where
  | ownEngine
  | external (connection : Connection)
  deriving DecidableEq, Repr

structure Column where
  name : String
  /-- Its type as the engine reports it. -/
  type : String
  deriving DecidableEq, Repr

structure Table where
  name : String
  schema : Option String
  source : TableSource
  columns : List Column
  deriving DecidableEq, Repr

namespace Table

def connection? (t : Table) : Option Connection :=
  match t.source with
  | .ownEngine => none
  | .external c => some c

def isExternal (t : Table) : Bool := t.connection?.isSome

def columnType? (t : Table) (column : String) : Option String :=
  (t.columns.find? (·.name = column)).map Column.type

end Table

/-- An external database as it is attached to a statement. -/
structure Attachment where
  aliasName : String
  /-- The identity of its connection. -/
  connection : String
  kind : String
  deriving DecidableEq, Repr

/-- The way a statement refers to a table. -/
inductive TableRef where
  | ownTable (name : String) (schema : Option String)
  | external (name : String) (schema : Option String) (aliasName connection : String)
  deriving DecidableEq, Repr

namespace TableRef

def name : TableRef → String
  | ownTable n _ => n
  | external n _ _ _ => n

def schema : TableRef → Option String
  | ownTable _ s => s
  | external _ s _ _ => s

def aliasName? : TableRef → Option String
  | ownTable _ _ => none
  | external _ _ a _ => some a

/-- The parts of the qualified name: the alias of the database, the schema and the table. -/
def parts (r : TableRef) : List String := r.aliasName?.toList ++ r.schema.toList ++ [r.name]

/-- The qualified name as it is shown: empty parts are left out. -/
def shown (d : Dialect) (r : TableRef) : String := d.quotePath r.parts

/-- The qualified name as it stands in a statement, with all its parts. -/
def sql (d : Dialect) (r : TableRef) : String :=
  String.intercalate "." (r.parts.map d.quoteName)

def ofTable (attached : List Attachment) (t : Table) : Except Error TableRef :=
  match t.source with
  | .ownEngine => .ok (ownTable t.name t.schema)
  | .external c =>
    match attached.find? (·.connection = c.id) with
    | some a => .ok (external t.name t.schema a.aliasName c.id)
    | none => .error (.unknownConnection t.name c.id)

end TableRef

end SqlFilter
