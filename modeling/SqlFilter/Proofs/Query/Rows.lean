import SqlFilter.Proofs.Tree.Printed
import SqlFilter.Query.Statement

/-!
# The rows of a statement

What a statement denotes on an engine with a database: tables are joined from left to right, the
`WHERE` clause picks joint rows, and the columns are taken from the first of those. Conditions and
comparisons may mean anything, as long as a condition looks at nothing but the row of the table that
it names and a comparison at nothing but the values of its two columns.
-/

namespace SqlFilter

variable {ρ ν : Type}

/-! ## Joins -/

/-- The rows of the tables joined so far, by their aliases. A table of which no row matched has none
there, and all its columns are null. -/
abbrev JointRow (ρ : Type) := List (String × Option ρ)

namespace JointRow

/-- The row of the table with the alias. -/
def row? (row : JointRow ρ) (a : String) : Option ρ := (row.lookup a).join

/-- The joint row with the row of a further table. -/
def extend (row : JointRow ρ) (a : String) (r : Option ρ) : JointRow ρ := row ++ [(a, r)]

theorem map_fst_extend (row : JointRow ρ) (a : String) (r : Option ρ) :
    (row.extend a r).map Prod.fst = row.map Prod.fst ++ [a] :=
  List.map_append

/-- A further table is found under its alias, unless that is in use already. -/
theorem row?_extend {row : JointRow ρ} {a : String} (h : a ∉ row.map Prod.fst) (r : Option ρ) :
    (row.extend a r).row? a = r := by
  have hnone : row.lookup a = none := by
    rw [List.lookup_eq_none_iff]
    intro x hx
    simpa using fun heq : a = x.1 => h (heq ▸ List.mem_map_of_mem hx)
  rw [row?, extend, List.lookup_append, hnone, Option.none_or, List.lookup_cons_self]
  rfl

end JointRow

/-- Tables by their aliases, and joint rows of just these tables. -/
@[ext]
structure Relation (ρ : Type) where
  /-- The aliases in order. -/
  aliases : List String
  /-- The joint rows. -/
  rows : List (JointRow ρ)
  /-- Every joint row is of the tables. -/
  aligned : ∀ row ∈ rows, row.map Prod.fst = aliases

namespace JoinKind

/-- Whether joint rows that match no row of the joined table are in the result. -/
def keepsLeft : JoinKind → Bool
  | left | full => true
  | inner | right => false

/-- Whether rows of the joined table that match no joint row are in the result. -/
def keepsRight : JoinKind → Bool
  | right | full => true
  | inner | left => false

end JoinKind

namespace Relation

section Join

variable (on : JointRow ρ → Bool) (a : String) (rs : List ρ)

/-- The joint row with all rows of a table that it matches. -/
def matched (row : JointRow ρ) : List (JointRow ρ) :=
  (rs.map fun r => row.extend a (some r)).filter on

/-- The joint row with all rows of a table that it matches, or with none if it matches none and the
join keeps it. -/
def continued (k : JoinKind) (row : JointRow ρ) : List (JointRow ρ) :=
  if k.keepsLeft && (matched on a rs row).isEmpty then [row.extend a none] else matched on a rs row

variable (rel : Relation ρ)

/-- The joint row without a row of any table. -/
def blank : JointRow ρ := rel.aliases.map fun b => (b, none)

/-- The rows of a table that match no joint row. -/
def unmatched : List ρ := rs.filter fun r => rel.rows.all fun row => !on (row.extend a (some r))

/-- The rows of the relation joined to a table. -/
def joinedRows (k : JoinKind) : List (JointRow ρ) :=
  rel.rows.flatMap (continued on a rs k) ++
    if k.keepsRight then (unmatched on a rs rel).map fun r => rel.blank.extend a (some r) else []

variable {on a rs} in
theorem exists_extend_of_mem_continued {k : JoinKind} {row x : JointRow ρ}
    (hx : x ∈ continued on a rs k row) : ∃ r, x = row.extend a r := by
  unfold continued matched at hx
  split_ifs at hx
  · exact ⟨none, List.mem_singleton.1 hx⟩
  · obtain ⟨r, -, rfl⟩ := List.mem_map.1 (List.mem_filter.1 hx).1
    exact ⟨some r, rfl⟩

theorem map_fst_blank : rel.blank.map Prod.fst = rel.aliases := by
  rw [blank, List.map_map]
  exact List.map_id _

variable {on a rs rel} in
/-- Joining adds one table to every joint row. -/
theorem map_fst_of_mem_joinedRows {k : JoinKind} {x : JointRow ρ}
    (hx : x ∈ joinedRows on a rs rel k) : x.map Prod.fst = rel.aliases ++ [a] := by
  rcases List.mem_append.1 hx with hx | hx
  · obtain ⟨row, hrow, hx⟩ := List.mem_flatMap.1 hx
    obtain ⟨r, rfl⟩ := exists_extend_of_mem_continued hx
    rw [JointRow.map_fst_extend, rel.aligned row hrow]
  · split_ifs at hx
    · obtain ⟨r, -, rfl⟩ := List.mem_map.1 hx
      rw [JointRow.map_fst_extend, map_fst_blank]
    · cases hx

/-- The relation joined to a table. -/
def join (k : JoinKind) : Relation ρ where
  aliases := rel.aliases ++ [a]
  rows := joinedRows on a rs rel k
  aligned := fun _ => map_fst_of_mem_joinedRows

end Join

/-- The rows of a single table. -/
def ofTable (a : String) (rs : List ρ) : Relation ρ where
  aliases := [a]
  rows := rs.map fun r => [(a, some r)]
  aligned := List.forall_mem_map.2 fun _ _ => rfl

end Relation

/-! ## Statements -/

/-- Whether a clause with this value lets a row pass. One with nothing to say does. -/
def Truth.accepts (v : Option Truth) : Bool := v.getD .true = .true

theorem Truth.accepts_merge (a b : Option Truth) :
    accepts (Logic.and.merge a b) = (accepts a && accepts b) := by
  rcases a with _ | a <;> rcases b with _ | b
  · rfl
  · rfl
  · exact (Bool.and_true _).symm
  · cases a <;> cases b <;> rfl

/-- Whether the part keeps its meaning next to other parts. SQL that is kept as it stands may have
operators that take hold of what is beside it. -/
def OnPart.standsAlone : OnPart → Bool
  | .comparison c _ => c.columns?.isSome
  | .filter _ => true

/-- An engine with its database, as far as statements depend on them. -/
structure Engine (ρ ν : Type) where
  /-- The columns of a table. -/
  header : TableRef → List String
  /-- The rows of a table. -/
  rows : TableRef → List ρ
  /-- The value of a column in a row. -/
  value : ρ → String → ν
  /-- The value of every column of a table without a row. -/
  null : ν
  /-- What comparing two values gives, both cast to a type if one is given. -/
  compare : Operator → Option String → ν → ν → Truth
  /-- What a condition says of the row of the table that it names, the bounds of a range cast to a
  type if one is given. -/
  test : Condition → Option String → Option ρ → Truth
  /-- What SQL that is kept as it stands says of a joint row. -/
  raw : String → JointRow ρ → Truth

namespace Engine

variable (m : Engine ρ ν) (p : Printer String)

/-- The value of a column in a joint row. -/
def cell (row : JointRow ρ) (c : ColumnRef) : ν :=
  match row.row? c.table with
  | some r => m.value r c.column
  | none => m.null

/-- What a leaf of a filter says of a joint row. Groups are no leaves. -/
def leaf (row : JointRow ρ) : Node String → Truth
  | .condition i c => m.test c (p.casts i) (row.row? c.table)
  | .raw _ s => m.raw s row
  | .group _ _ _ => .true

/-- What a filter says of a joint row, as far as it is written. -/
def filter (row : JointRow ρ) (t : Tree String) : Option Truth := t.value p.shows (m.leaf p row)

/-- What a part of an `ON` clause says of a joint row. -/
def part (row : JointRow ρ) : OnPart → Option Truth
  | .comparison c cast => c.columns?.map fun (l, r) =>
    m.compare c.operator cast (m.cell row l) (m.cell row r)
  | .filter t => m.filter p row t

/-- What an `ON` clause says of a joint row: the conjunction of its parts, if they can be told
apart. -/
def clause (row : JointRow ρ) (parts : List OnPart) : Option Truth :=
  if parts.all OnPart.standsAlone then Logic.and.mergeAll (parts.map (m.part p row))
  else some (m.raw (p.onClause parts) row)

/-- The rows of a joined table that are left to be joined. -/
def source (j : Joined) : List ρ :=
  match j.pushed with
  | some t => (m.rows j.item.ref).filter fun r =>
    Truth.accepts (m.filter p [(j.item.aliasName, some r)] t)
  | none => m.rows j.item.ref

/-- The relation joined to a table of a statement. -/
def joined (rel : Relation ρ) (j : Joined) : Relation ρ :=
  rel.join (fun row => Truth.accepts (m.clause p row j.on)) j.item.aliasName (m.source p j) j.kind

/-- The tables of a statement joined from left to right. -/
def relation (s : Statement) : Relation ρ :=
  s.joins.foldl (m.joined p) (.ofTable s.first.aliasName (m.rows s.first.ref))

/-- The columns of the result with their values in a joint row. -/
def output (s : Statement) (row : JointRow ρ) : List (String × ν) :=
  if s.columns.isEmpty then
    (s.first :: s.joins.map Joined.item).flatMap fun i =>
      (m.header i.ref).map fun c => (c, m.cell row ⟨i.aliasName, c⟩)
  else s.columns.map fun c => (c.name, m.cell row ⟨c.table, c.column⟩)

/-- The rows that a statement gives. -/
def result (s : Statement) : List (List (String × ν)) :=
  let rows := (m.relation p s).rows.filter fun row => Truth.accepts (m.filter p row s.filter)
  (rows.take s.limit.toNat).map (m.output s)

end Engine

end SqlFilter
