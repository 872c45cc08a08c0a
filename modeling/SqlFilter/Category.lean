import SqlFilter.Category.Moment
import SqlFilter.Condition
import SqlFilter.Text.Case

/-!
# Categories of types

The types that engines report are folded into a few categories. Values of two different categories
cannot be compared without a cast; a type that is not known gives no reason to object.
-/

namespace SqlFilter

inductive Category where
  | integer
  | float
  | string
  | boolean
  | temporal
  | unknown
  deriving DecidableEq, Repr

namespace Category

def all : List Category := [integer, float, string, boolean, temporal, unknown]

def name : Category → String
  | integer => "integer"
  | float => "float"
  | string => "string"
  | boolean => "boolean"
  | temporal => "temporal"
  | unknown => "unknown"

def integerTypes : List String :=
  ["int", "integer", "bigint", "smallint", "tinyint", "mediumint", "hugeint", "int1", "int2",
    "int4", "int8", "serial", "bigserial", "smallserial", "ubigint", "uinteger", "usmallint",
    "utinyint", "uhugeint", "long"]

def floatTypes : List String :=
  ["float", "float4", "float8", "double", "double precision", "real", "decimal", "numeric", "money",
    "number"]

def stringTypes : List String :=
  ["varchar", "char", "character", "character varying", "text", "string", "nvarchar", "nchar",
    "bpchar", "tinytext", "mediumtext", "longtext", "clob", "uuid", "json", "jsonb", "enum", "name"]

def booleanTypes : List String := ["bool", "boolean", "bit"]

/-- The names of types of dates and times that do not start with `time`. -/
def temporalTypes : List String := ["date", "datetime", "year", "interval", "timestamptz", "timetz"]

def ofName (s : String) : Category :=
  if s ∈ integerTypes then integer
  else if s ∈ floatTypes then float
  else if s ∈ stringTypes then string
  else if s ∈ booleanTypes then boolean
  else if s ∈ temporalTypes then temporal
  else if "time".toList.isPrefixOf s.toList then temporal
  else unknown

/-- The text without the endings `ending`, however often it is repeated. -/
def dropEndings (ending cs : List Char) : List Char :=
  if h : ending ≠ [] ∧ ending.isSuffixOf cs ∧ cs ≠ [] then
    have : cs.length - ending.length < cs.length := by
      have := List.length_pos_iff.mpr h.1
      have := List.length_pos_iff.mpr h.2.2
      omega
    dropEndings ending (cs.take (cs.length - ending.length))
  else cs
termination_by cs.length

/-- The category of a type as an engine reports it. Its parameters and `unsigned` do not matter, but
`tinyint(1)` holds truth values; lists of values are not known. -/
def ofType (sqlType : String) : Category :=
  let cs := (Text.lower (Text.trim sqlType)).toList
  if "tinyint(1)".toList.isPrefixOf (cs.filter (· ≠ ' ')) then boolean
  else if "[]".toList.isSuffixOf cs then unknown
  else
    let base := Text.trimEnd (Text.trimStart (cs.takeWhile (· ≠ '(')))
    let base := dropEndings " unsigned".toList base
    ofName (String.ofList (Text.trimEnd (Text.trimStart base)))

/-- The category of a literal. A string that reads as a date or a time is temporal. -/
def ofLiteral : Literal → Category
  | .integer _ => integer
  | .float _ => float
  | .boolean _ => boolean
  | .string s => if Moment.isMoment s then temporal else string

end Category

/-- Whether two categories can be compared. -/
inductive Verdict where
  | compatible
  | castable
  /-- With a cast that may well fail. -/
  | unsound
  deriving DecidableEq, Repr

namespace Verdict

def all : List Verdict := [compatible, castable, unsound]

def name : Verdict → String
  | compatible => "compatible"
  | castable => "castable"
  | unsound => "unsafe"

end Verdict

/-- The verdict on a comparison of two categories, with the type to cast both sides to. -/
def Category.compare : Category → Category → Verdict × Option String
  | unknown, _ => (.compatible, none)
  | _, unknown => (.compatible, none)
  | l, r =>
    if l = r then (.compatible, none)
    else if (l = integer ∧ r = float) ∨ (l = float ∧ r = integer) then (.castable, some "DOUBLE")
    else if l = string ∨ r = string then (.castable, some "VARCHAR")
    else if (l = boolean ∧ r = integer) ∨ (l = integer ∧ r = boolean) then
      (.castable, some "BIGINT")
    else (.unsound, some "VARCHAR")

end SqlFilter
