import SqlFilter.Text.Blank
import SqlFilter.Text.Case
import SqlFilter.Text.Quoted

/-!
# Dialects

The dialects of SQL that statements are written in, and what they differ in: the mark that quotes an
identifier, escapes inside strings, the operator `ILIKE` and the form of a cast.
-/

namespace SqlFilter

/-- A dialect of SQL. Federated statements run on DuckDB. -/
inductive Dialect where
  | duckdb
  | postgres
  | mysql
  | sqlite
  deriving DecidableEq, Repr

namespace Dialect

def all : List Dialect := [duckdb, postgres, mysql, sqlite]

def name : Dialect → String
  | duckdb => "duckdb"
  | postgres => "postgres"
  | mysql => "mysql"
  | sqlite => "sqlite"

/-- A text that names no dialect, trimmed and in lower case. -/
structure Unknown where
  name : String
  deriving DecidableEq, Repr

def Unknown.message (e : Unknown) : String := "unknown dialect '" ++ e.name ++ "'"

/-- The dialect that a user names, in any case and with blanks around the name. Two dialects go by
a second name. -/
def ofText (s : String) : Except Unknown Dialect :=
  let wanted := Text.lower (Text.trim s)
  let names := [("duckdb", duckdb), ("postgres", postgres), ("postgresql", postgres),
    ("mysql", mysql), ("mariadb", mysql), ("sqlite", sqlite)]
  match names.lookup wanted with
  | some d => .ok d
  | none => .error ⟨wanted⟩

def backslashEscapes (d : Dialect) : Bool := d = mysql

def supportsIlike (d : Dialect) : Bool := d ≠ mysql

def backtick : Char := Char.ofNat 0x60

def nameMark (d : Dialect) : Char := if d = mysql then backtick else '"'

def quoteName (d : Dialect) (s : String) : String :=
  String.ofList (Text.quoted d.nameMark s.toList)

/-- A qualified name: its parts quoted and joined by points, empty parts left out. -/
def quotePath (d : Dialect) (parts : List String) : String :=
  String.intercalate "." ((parts.filter (· ≠ "")).map d.quoteName)

/-- A string literal. Where a backslash escapes, it is written twice like the quote. -/
def quoteString (d : Dialect) (s : String) : String :=
  let inner := Text.doubled '\'' s.toList
  String.ofList ('\'' :: (if d.backslashEscapes then Text.doubled '\\' inner else inner) ++ ['\''])

/-- The name of a type as the target of a cast. MySQL casts to a few types of its own only. -/
def castTarget (d : Dialect) (sqlType : String) : String :=
  if d ≠ mysql then sqlType
  else
    let own := [("VARCHAR", "CHAR"), ("TEXT", "CHAR"), ("BIGINT", "SIGNED"), ("INTEGER", "SIGNED"),
      ("INT", "SIGNED"), ("TIMESTAMP", "DATETIME"), ("BOOLEAN", "UNSIGNED")]
    (own.lookup (Text.upper sqlType)).getD sqlType

/-- The cast of an expression. DuckDB has one that gives `NULL` instead of failing. -/
def safeCast (d : Dialect) (expr sqlType : String) : String :=
  (if d = duckdb then "TRY_CAST(" else "CAST(") ++ expr ++ " AS " ++ d.castTarget sqlType ++ ")"

end Dialect

end SqlFilter
