import SqlFilter.Query.Statement
import SqlFilter.Settings
import SqlFilter.Table.Attach

/-!
# Sessions

A session turns queries into plans: a statement with all that is needed to run it. Between queries
it keeps the type conflicts of the last one and what is decided on them.
-/

namespace SqlFilter

/-- The columns chosen for the result, by table alias. -/
abbrev Selection := List (String × List String)

/-- What is asked for. -/
structure Query where
  tables : List Table
  /-- How each table after the first is joined. -/
  joins : List JoinSpec
  filter : Tree String
  /-- The columns of the result; all columns if none is chosen. -/
  columns : Selection

inductive QueryShape where
  /-- None: there is no table. -/
  | empty
  | singleTable
  | joined
  deriving DecidableEq, Repr

namespace QueryShape

def all : List QueryShape := [empty, singleTable, joined]

def name : QueryShape → String
  | empty => "empty"
  | singleTable => "single_table"
  | joined => "joined"

end QueryShape

structure Plan where
  sql : String
  attached : List Attachment
  unresolved : List Conflict
  source : ExecutionSource
  shape : QueryShape
  /-- The joined tables whose `ON` clause is still missing. -/
  incomplete : List String
  deriving DecidableEq, Repr

namespace Plan

def empty : Plan := ⟨"", [], [], .ownEngine, .empty, []⟩

def isExecutable (p : Plan) : Bool :=
  p.shape ≠ .empty && p.unresolved.isEmpty && p.incomplete.isEmpty

end Plan

/-- A table of a query with its alias and the way the statement refers to it. -/
structure Bound where
  table : Table
  aliasName : String
  ref : TableRef
  deriving DecidableEq, Repr

def Bound.item (b : Bound) : TableItem := ⟨b.ref, b.aliasName⟩

namespace Query

/-- The aliases of tables in order: their names, with numbers behind names that are in use. -/
def aliases (tables : List Table) : List String :=
  tables.foldl (fun used t => used ++ [unusedName used t.name]) []

def bind (attached : List Attachment) (tables : List Table) : Except Error (List Bound) :=
  (tables.zip (aliases tables)).mapM fun (t, a) => do return ⟨t, a, ← TableRef.ofTable attached t⟩

/-- The joined tables with their specifications; a table without one is joined without comparisons,
and specifications without a table are ignored. -/
def withSpecs : List Bound → List JoinSpec → List (Bound × JoinSpec)
  | [], _ => []
  | b :: bs, [] => (b, {}) :: withSpecs bs []
  | b :: bs, s :: ss => (b, s) :: withSpecs bs ss

/-- The reported type of a column, empty if it is not known. -/
def columnType (bound : List Bound) (c : ColumnRef) : String :=
  match bound.find? (·.aliasName = c.table) with
  | some b => (b.table.columnType? c.column).getD ""
  | none => ""

/-- The comparisons of two columns that can be written, with the types of the columns. -/
def columnPairs (bound : List Bound) (specs : List JoinSpec) : List ColumnPair :=
  (specs.flatMap JoinSpec.complete).filterMap fun c =>
    c.columns?.map fun (l, r) => ⟨l, columnType bound l, r, columnType bound r⟩

/-- The columns of the result. A name chosen more than once is prefixed by the table wherever it
occurs. -/
def outputColumns (bound : List Bound) (columns : Selection) : List OutputColumn :=
  let chosen := bound.flatMap fun b => ((columns.lookup b.aliasName).getD []).map (b.aliasName, ·)
  let names := chosen.map Prod.snd
  chosen.map fun (table, column) =>
    ⟨table, column, if 1 < names.count column then some (table ++ "_" ++ column) else none⟩

/-- The part of the filter that goes to the `WHERE` clause: raw SQL, what is placed there, and what
is placed in an `ON` clause that there is none of. -/
def wherePart (joined : List String) (filter : Tree String) : Tree String :=
  filter.kept fun
    | some (_, c) => c.placement = .atWhere || !joined.contains c.table
    | none => true

end Query

structure Session where
  settings : Settings := {}
  /-- The conflicts of the last query. -/
  log : ConflictLog := {}
  deriving DecidableEq, Repr

namespace Session

/-- What the filters of a statement are written with, given the conflicts. -/
def printer (settings : Settings) (log : ConflictLog) : Printer String :=
  { dialect := settings.dialect
    maxDepth := settings.maxNestingDepth.toNat
    casts := log.rangeCast }

def joinCast (log : ConflictLog) (c : JoinCondition) : Option String :=
  c.columns?.bind fun (l, r) => log.castFor (.join l r)

/-- A joined table of a statement. Filters on it go to its `ON` clause, or before the join if the
settings say so, the kind of the join allows it and the clause has something else. -/
def joined (settings : Settings) (log : ConflictLog) (filter : Tree String) (b : Bound)
    (spec : JoinSpec) : Except Error Joined := do
  let onTree := filter.onPart (some b.aliasName)
  let onSql ← (printer settings log).write onTree
  let comparisons := spec.complete.map fun c => OnPart.comparison c (joinCast log c)
  if onSql = "" then return ⟨spec.kind, b.item, none, comparisons⟩
  else if settings.pushDownJoinFilters && spec.kind.allowsPushDown && !comparisons.isEmpty then
    return ⟨spec.kind, b.item, some onTree, comparisons⟩
  else return ⟨spec.kind, b.item, none, comparisons ++ [.filter onTree]⟩

def statement (settings : Settings) (log : ConflictLog) (q : Query) (first : Bound)
    (others : List (Bound × JoinSpec)) : Except Error Statement := do
  let joins ← others.mapM fun (b, spec) => joined settings log q.filter b spec
  let whereTree := Query.wherePart (others.map fun o => o.1.aliasName) q.filter
  let _ ← (printer settings log).write whereTree
  return {
    columns := Query.outputColumns (first :: others.map Prod.fst) q.columns
    first := first.item
    joins
    filter := whereTree
    limit := settings.maxRows }

/-- The plan of a query whose first table is `first`, given the conflicts found in it. MySQL has no
full join. -/
def plan (settings : Settings) (log : ConflictLog) (q : Query) (attached : List Attachment)
    (first : Bound) (others : List (Bound × JoinSpec)) : Except Error Plan := do
  let s ← statement settings log q first others
  if settings.dialect = .mysql ∧ s.joins.any (·.kind = .full) then throw .noFullJoin
  return {
    sql := (printer settings log).statement s
    attached
    unresolved := log.unresolved
    source := .ofAttached attached
    shape := if others.isEmpty then .singleTable else .joined
    incomplete := (s.joins.filter Joined.isIncomplete).map fun j => j.item.aliasName }

/-- Plans a query. A filter nested too deeply is refused before anything changes; otherwise the
conflicts are looked for again, also where no plan can be made in the end. -/
def build (s : Session) (q : Query) : Except Error Plan × Session :=
  let attached := Attachment.ofTables q.tables
  match checkDepth q.filter.depth s.settings.maxNestingDepth.toNat,
      Query.bind attached q.tables with
  | .error e, _ => (.error e, s)
  | _, .error e => (.error e, s)
  | .ok _, .ok [] => (.ok Plan.empty, { s with log := s.log.detect [] ⟨"", .and, []⟩ })
  | .ok _, .ok (first :: others) =>
    let specs := Query.withSpecs others q.joins
    let pairs := Query.columnPairs (first :: others) (specs.map Prod.snd)
    let log := s.log.detect pairs q.filter
    (plan s.settings log q attached first specs, { s with log })

end Session

end SqlFilter
