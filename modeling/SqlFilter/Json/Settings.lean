import SqlFilter.Json.Query
import SqlFilter.Json.Reader
import SqlFilter.Settings

/-!
# Settings as JSON, and from a file

A settings file holds one JSON document. Settings that it does not mention have their defaults, and
it may mention others; but each setting may be given once only.
-/

namespace SqlFilter.Settings

def fieldNames : List String :=
  ["dialect", "max_nesting_depth", "max_rows", "parse_step_budget", "parse_timeout_ms",
    "push_down_join_filters"]

def ofUInt64 (n : UInt64) : Json := .integer n.toNat

def toJson (s : Settings) : Json :=
  .object [("dialect", .string s.dialect.name),
    ("max_nesting_depth", ofUInt64 s.maxNestingDepth), ("max_rows", ofUInt64 s.maxRows),
    ("parse_step_budget", ofUInt64 s.parseStepBudget),
    ("parse_timeout_ms", ofUInt64 s.parseTimeoutMs),
    ("push_down_join_filters", .boolean s.pushDownJoinFilters)]

def ofJson? (j : Json) : Option Settings := do
  let fs ← j.fields? [] fieldNames
  if !fs.distinct fieldNames then none
  else
    let d : Settings := {}
    return {
      dialect := ← fs.withDefault "dialect" d.dialect Dialect.ofJson?
      maxNestingDepth := ← fs.withDefault "max_nesting_depth" d.maxNestingDepth Json.uint64?
      maxRows := ← fs.withDefault "max_rows" d.maxRows Json.uint64?
      parseStepBudget := ← fs.withDefault "parse_step_budget" d.parseStepBudget Json.uint64?
      parseTimeoutMs := ← fs.withDefault "parse_timeout_ms" d.parseTimeoutMs Json.uint64?
      pushDownJoinFilters :=
        ← fs.withDefault "push_down_join_filters" d.pushDownJoinFilters Json.boolean? }

/-- What is found at the place of a settings file. -/
inductive File where
  | absent
  | unreadable
  | bytes (content : ByteArray)

/-- Why no settings can be taken from a file. -/
inductive LoadError where
  | missing
  /-- It cannot be read, or is no text. -/
  | unreadable
  | malformed
  deriving DecidableEq, Repr

def File.load : File → Except LoadError Settings
  | absent => .error .missing
  | unreadable => .error .unreadable
  | bytes content =>
    match String.fromUTF8? content with
    | none => .error .unreadable
    | some text =>
      match (Json.ofText? text).bind ofJson? with
      | none => .error .malformed
      | some s => .ok s

end SqlFilter.Settings
