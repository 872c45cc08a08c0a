import SqlFilter.Proofs.Table.Attached
import SqlFilter.Proofs.Token.Quoted

/-!
# Qualified names

A name in quotes ends where its quotes end, whatever its characters are. So a qualified name shows
its parts (`Dialect.qualified_injective`), and it has a name as its first qualifier just if that is
the first of several parts (`Dialect.isPrefix_qualified_iff`). What an alias of an attached database
qualifies is therefore an external table, or a table of the engine in a schema of that name
(`Attachment.shown_apart_iff`).

A statement writes all parts of a name, also empty ones, which are left out where a name is shown
(`TableRef.sql_eq_shown_iff`).
-/

namespace SqlFilter

namespace Dialect

variable (d : Dialect)

/-- Names in quotes with points between them. -/
def qualified (parts : List String) : String := String.intercalate "." (parts.map d.quoteName)

/-- What is behind the first part of a qualified name. -/
def behindFirst : List String → List Char
  | [] => []
  | s :: ps => '.' :: (d.qualified (s :: ps)).toList

theorem toList_qualified_cons (s : String) (ps : List String) :
    (d.qualified (s :: ps)).toList = (d.quoteName s).toList ++ d.behindFirst ps := by
  unfold qualified
  cases ps with
  | nil => rw [List.map_singleton, String.intercalate_singleton, behindFirst, List.append_nil]
  | cons t ps =>
    rw [List.map_cons, List.map_cons, String.intercalate_cons_cons, String.toList_append,
      String.toList_append, List.append_assoc, ← List.map_cons]
    rfl

theorem quoteName_append_ne_nil (s : String) (cs : List Char) :
    (d.quoteName s).toList ++ cs ≠ [] := by
  rw [toList_quoteName]
  exact List.cons_ne_nil _ _

theorem point_ne_nameMark : '.' ≠ d.nameMark := by cases d <;> decide

theorem head?_behindFirst_ne (ps : List String) : (d.behindFirst ps).head? ≠ some d.nameMark := by
  cases ps with
  | nil => exact nofun
  | cons s ps => exact fun h => d.point_ne_nameMark (Option.some.inj h)

variable {d}

/-- A name in quotes ends where its quotes end. -/
theorem quoteName_append_inj {s t : String} {as bs : List Char}
    (ha : as.head? ≠ some d.nameMark) (hb : bs.head? ≠ some d.nameMark)
    (h : (d.quoteName s).toList ++ as = (d.quoteName t).toList ++ bs) : s = t ∧ as = bs := by
  have hs := d.ofText_quoteName false s ha
  rw [h, d.ofText_quoteName false t hb] at hs
  obtain ⟨htoken, -⟩ := Piece.token.inj (List.cons.inj hs).1
  obtain rfl : t = s := Token.quotedName.inj htoken
  exact ⟨rfl, List.append_cancel_left h⟩

/-- The parts of a qualified name are seen from it. -/
theorem qualified_injective {ps qs : List String} (h : d.qualified ps = d.qualified qs) :
    ps = qs := by
  have hne : ∀ s (ps : List String), d.qualified (s :: ps) ≠ d.qualified [] := by
    intro s ps hnil
    have hlist := congrArg String.toList hnil
    rw [toList_qualified_cons] at hlist
    exact quoteName_append_ne_nil d _ _ hlist
  induction ps generalizing qs with
  | nil =>
    cases qs with
    | nil => rfl
    | cons t qs => exact absurd h.symm (hne t qs)
  | cons s ps ih =>
    cases qs with
    | nil => exact absurd h (hne s ps)
    | cons t qs =>
      have hlist := congrArg String.toList h
      rw [toList_qualified_cons, toList_qualified_cons] at hlist
      obtain ⟨rfl, hbehind⟩ := quoteName_append_inj (d.head?_behindFirst_ne ps)
        (d.head?_behindFirst_ne qs) hlist
      have htail : ps = qs := by
        cases ps with
        | nil =>
          cases qs with
          | nil => rfl
          | cons t qs => cases hbehind
        | cons s ps =>
          cases qs with
          | nil => cases hbehind
          | cons t qs => exact ih (String.toList_inj.1 (List.cons.inj hbehind).2)
      rw [htail]

/-- A name is the first qualifier of a qualified name just if it is the first of several parts. -/
theorem isPrefix_qualified_iff {a : String} {ps : List String} :
    (d.quoteName a ++ ".").toList <+: (d.qualified ps).toList ↔ ∃ s qs, ps = a :: s :: qs := by
  rw [String.toList_append]
  constructor
  · rintro ⟨rest, h⟩
    rw [List.append_assoc] at h
    cases ps with
    | nil => exact absurd h (quoteName_append_ne_nil d _ _)
    | cons t ps =>
      have hdot : (".".toList ++ rest).head? ≠ some d.nameMark :=
        fun h => d.point_ne_nameMark (Option.some.inj h)
      rw [toList_qualified_cons] at h
      obtain ⟨rfl, hbehind⟩ := quoteName_append_inj hdot (d.head?_behindFirst_ne ps) h
      cases ps with
      | nil => cases hbehind
      | cons s qs => exact ⟨s, qs, rfl⟩
  · rintro ⟨s, qs, rfl⟩
    refine ⟨(d.qualified (s :: qs)).toList, ?_⟩
    rw [d.toList_qualified_cons a, List.append_assoc]
    rfl

end Dialect

/-! ## Tables -/

/-- The parts of a table's name within its database, those that are not empty. -/
def Table.shownParts (t : Table) : List String := (t.schema.toList ++ [t.name]).filter (· ≠ "")

namespace TableRef

theorem shown_ownTable (d : Dialect) (t : Table) :
    (ownTable t.name t.schema).shown d = d.qualified t.shownParts := rfl

theorem shown_external (d : Dialect) (t : Table) {a : String} (ha : a ≠ "") (connection : String) :
    (external t.name t.schema a connection).shown d = d.qualified (a :: t.shownParts) := by
  have hparts : ((external t.name t.schema a connection).parts.filter (· ≠ "")) =
      a :: t.shownParts := List.filter_cons_of_pos (decide_eq_true ha)
  exact congrArg d.qualified hparts

end TableRef

/-! ## Names in statements -/

/-- The forms that the name of a table has in a statement. -/
inductive TableName where
  | table (name : String)
  | schemaTable (schema name : String)
  | databaseTable (database schema name : String)
  deriving DecidableEq, Repr

namespace TableName

/-- The form for some parts, by their number. There is none without parts, and more than three would
lose all but the first. -/
def ofParts? : List String → Option TableName
  | [database, schema, name] => some (databaseTable database schema name)
  | [schema, name] => some (schemaTable schema name)
  | name :: _ => some (table name)
  | [] => none

/-- The name as it is written. -/
def sql (d : Dialect) : TableName → String
  | table n => d.quoteName n
  | schemaTable s n => d.quoteName s ++ "." ++ d.quoteName n
  | databaseTable b s n => d.quoteName b ++ "." ++ d.quoteName s ++ "." ++ d.quoteName n

/-- Up to three parts are all written. -/
theorem exists_ofParts? (d : Dialect) {parts : List String} (hne : parts ≠ [])
    (hle : parts.length ≤ 3) : ∃ n, ofParts? parts = some n ∧ n.sql d = d.qualified parts := by
  match parts, hne, hle with
  | [n], _, _ => exact ⟨_, rfl, String.intercalate_singleton.symm⟩
  | [s, n], _, _ =>
    refine ⟨_, rfl, ?_⟩
    simp only [sql, Dialect.qualified, List.map_cons, List.map_nil,
      String.intercalate_cons_cons, String.intercalate_singleton, String.append_assoc]
  | [b, s, n], _, _ =>
    refine ⟨_, rfl, ?_⟩
    simp only [sql, Dialect.qualified, List.map_cons, List.map_nil,
      String.intercalate_cons_cons, String.intercalate_singleton, String.append_assoc]
  | _ :: _ :: _ :: _ :: _, _, hle =>
    simp only [List.length_cons] at hle
    omega

end TableName

namespace TableRef

theorem parts_ne_nil (r : TableRef) : r.parts ≠ [] :=
  List.append_ne_nil_of_right_ne_nil _ (List.cons_ne_nil _ _)

theorem length_parts_le (r : TableRef) : r.parts.length ≤ 3 := by
  have halias := Option.length_toList_le (o := r.aliasName?)
  have hschema := Option.length_toList_le (o := r.schema)
  simp only [parts, List.length_append, List.length_singleton]
  omega

theorem mem_parts_iff {r : TableRef} {s : String} :
    s ∈ r.parts ↔ r.aliasName? = some s ∨ r.schema = some s ∨ r.name = s := by
  simp only [parts, List.mem_append, Option.mem_toList, List.mem_singleton, or_assoc,
    eq_comm (a := s)]

/-- **The name of a table** in a statement has all parts of the reference. It is the name that is
shown just if none of them is empty. -/
theorem sql_eq_shown_iff (d : Dialect) (r : TableRef) :
    ∃ n, TableName.ofParts? r.parts = some n ∧ n.sql d = r.sql d ∧
      (r.sql d = r.shown d ↔ r.aliasName? ≠ some "" ∧ r.schema ≠ some "" ∧ r.name ≠ "") := by
  obtain ⟨n, hn, hsql⟩ := TableName.exists_ofParts? d r.parts_ne_nil r.length_parts_le
  refine ⟨n, hn, hsql, ?_⟩
  have hparts : r.sql d = r.shown d ↔ r.parts = r.parts.filter (· ≠ "") :=
    ⟨Dialect.qualified_injective, congrArg d.qualified⟩
  have hempty : "" ∉ r.parts ↔ r.parts = r.parts.filter (· ≠ "") := by
    rw [eq_comm, List.filter_eq_self]
    simp only [decide_eq_true_eq]
    exact ⟨fun h s hs hnil => h (hnil ▸ hs), fun h hnil => h "" hnil rfl⟩
  rw [hparts, ← hempty, mem_parts_iff, not_or, not_or]

end TableRef

namespace Table

theorem shownParts_of_schema {t : Table} {a : String} (ha : a ≠ "") (hs : t.schema = some a)
    (hn : t.name ≠ "") : t.shownParts = [a, t.name] := by
  simp [shownParts, hs, ha, hn]

theorem shownParts_of_no_schema {t : Table} (hs : t.schema.getD "" = "") (hn : t.name ≠ "") :
    t.shownParts = [t.name] := by
  cases h : t.schema with
  | none => simp [shownParts, h, hn]
  | some a =>
    obtain rfl : a = "" := by simpa [h] using hs
    simp [shownParts, h, hn]

theorem shownParts_ne_nil {t : Table} (hn : t.name ≠ "") : t.shownParts ≠ [] :=
  List.ne_nil_of_mem (List.mem_filter.2 ⟨List.mem_append_right _ (List.mem_singleton_self _),
    decide_eq_true hn⟩)

/-- A name that is shown alone has no schema. -/
theorem shownParts_eq_singleton {t : Table} {s : String} (hn : t.name ≠ "")
    (h : t.shownParts = [s]) : t.schema.getD "" = "" ∧ t.name = s := by
  by_cases hs : t.schema.getD "" = ""
  · rw [shownParts_of_no_schema hs hn] at h
    exact ⟨hs, List.singleton_inj.1 h⟩
  · cases ha : t.schema with
    | none => exact absurd (congrArg (·.getD "") ha) hs
    | some a =>
      have hne : a ≠ "" := by
        rintro rfl
        exact hs (congrArg (·.getD "") ha)
      rw [shownParts_of_schema hne ha hn] at h
      cases h

/-- There are several parts just if there are a schema and a name. -/
theorem shownParts_eq_cons_cons {t : Table} {a s : String} {qs : List String}
    (h : t.shownParts = a :: s :: qs) : t.schema = some a ∧ t.name = s ∧ s ≠ "" ∧ qs = [] := by
  have hlength : t.shownParts.length = qs.length + 2 := by rw [h]; rfl
  unfold shownParts at h hlength
  cases hs : t.schema with
  | none =>
    rw [hs] at hlength
    have := List.length_filter_le (fun s => decide (s ≠ "")) [t.name]
    simp only [Option.toList_none, List.nil_append, List.length_singleton] at hlength this
    omega
  | some b =>
    rw [hs] at h
    by_cases hb : b = "" <;> by_cases hn : t.name = "" <;> simp_all

end Table

namespace Attachment

theorem aliasName_ne_empty {tables : List Table} {a : Attachment} (ha : a ∈ ofTables tables) :
    a.aliasName ≠ "" := by
  obtain ⟨c, cs, hname, -⟩ := isIdentifier_aliasName ha
  intro hempty
  rw [hempty] at hname
  cases hname

/-- **Tables of the engine** are shown with the alias of an attached database as a qualifier just if
their schema has that name. An external table with a name is then shown as the same table just if it
has the alias, no schema of its own and the same name. -/
theorem shown_apart_iff (tables : List Table) (d : Dialect) {t : Table}
    (ht : t.isExternal = false) :
    let attached := ofTables tables
    ∃ r, TableRef.ofTable attached t = .ok r ∧
      (∀ a ∈ attached, (d.quoteName a.aliasName ++ ".").toList <+: (r.shown d).toList ↔
        t.schema = some a.aliasName ∧ t.name ≠ "") ∧
      ∀ u ∈ tables, ∀ c, u.connection? = some c → ∃ a ∈ attached, a.connection = c.id ∧
        ∃ ru, TableRef.ofTable attached u = .ok ru ∧
          (ru.shown d = r.shown d ↔ a.aliasName :: u.shownParts = t.shownParts) ∧
          (u.name ≠ "" → (ru.shown d = r.shown d ↔
            t.schema = some a.aliasName ∧ u.schema.getD "" = "" ∧ t.name = u.name)) := by
  intro attached
  refine ⟨_, TableRef.ofTable_of_not_isExternal ht attached, ?_, ?_⟩
  · intro a ha
    rw [TableRef.shown_ownTable, Dialect.isPrefix_qualified_iff]
    constructor
    · rintro ⟨s, qs, hparts⟩
      obtain ⟨hs, rfl, hn, -⟩ := Table.shownParts_eq_cons_cons hparts
      exact ⟨hs, hn⟩
    · rintro ⟨hs, hn⟩
      exact ⟨t.name, [], Table.shownParts_of_schema (aliasName_ne_empty ha) hs hn⟩
  · intro u hu c hc
    obtain ⟨a, ha, hid, href⟩ := exists_ofTable_eq hu hc
    have hne : a.aliasName ≠ "" := aliasName_ne_empty ha
    have hiff : (TableRef.external u.name u.schema a.aliasName c.id).shown d =
        (TableRef.ownTable t.name t.schema).shown d ↔
          a.aliasName :: u.shownParts = t.shownParts := by
      rw [TableRef.shown_external d u hne, TableRef.shown_ownTable]
      exact ⟨Dialect.qualified_injective, congrArg d.qualified⟩
    refine ⟨a, ha, hid, _, href, hiff, fun hn => hiff.trans ⟨fun hparts => ?_, ?_⟩⟩
    · cases hu : u.shownParts with
      | nil => exact absurd hu (Table.shownParts_ne_nil hn)
      | cons s qs =>
        rw [hu] at hparts
        obtain ⟨hs, hname, -, rfl⟩ := Table.shownParts_eq_cons_cons hparts.symm
        obtain ⟨hbare, hs'⟩ := Table.shownParts_eq_singleton hn hu
        exact ⟨hs, hbare, hname.trans hs'.symm⟩
    · rintro ⟨hs, hu, hname⟩
      rw [Table.shownParts_of_no_schema hu hn,
        Table.shownParts_of_schema hne hs (hname ▸ hn), hname]

theorem shown_apart_iff_schema :
    let t : Table := ⟨"t", some "MySQL_x", .ownEngine, []⟩
    let u : Table := ⟨"t", none, .external ⟨"c", "x", "MySQL"⟩, []⟩
    t.isExternal = false ∧ (ofTables [u, t]).map aliasName = ["mysql_x"] ∧
      ∃ r ru, TableRef.ofTable (ofTables [u, t]) t = .ok r ∧
        TableRef.ofTable (ofTables [u, t]) u = .ok ru ∧
        ¬ ("\x60mysql_x\x60.".toList <+: (r.shown .mysql).toList) ∧
        ru.shown .mysql ≠ r.shown .mysql := by
  intro t u
  have haliases : (ofTables [u, t]).map aliasName = ["mysql_x"] := by decide +kernel
  obtain ⟨r, hr, hbegins, hnames⟩ := shown_apart_iff [u, t] .mysql (t := t) rfl
  obtain ⟨a, ha, -, ru, hru, -, hiff⟩ := hnames u (by simp) _ rfl
  have halias : a.aliasName = "mysql_x" :=
    List.mem_singleton.1 (haliases ▸ List.mem_map_of_mem ha)
  have hschema : t.schema ≠ some a.aliasName := by
    rw [halias]
    decide
  refine ⟨rfl, haliases, r, ru, hr, hru, fun h => hschema ?_, fun h => hschema ?_⟩
  · refine ((hbegins a ha).1 ?_).1
    rw [halias]
    exact h
  · exact ((hiff (by decide)).1 h).1

/-- A schema of the engine may have the name that an alias is made of. -/
theorem exists_shown_with_alias : ∃ (tables : List Table) (t u : Table) (r ru : TableRef),
    t ∈ tables ∧ u ∈ tables ∧ t.isExternal = false ∧ u.isExternal = true ∧
      TableRef.ofTable (ofTables tables) t = .ok r ∧
      TableRef.ofTable (ofTables tables) u = .ok ru ∧
      (∃ a ∈ ofTables tables,
        (Dialect.duckdb.quoteName a.aliasName ++ ".").toList <+: (r.shown .duckdb).toList) ∧
      ru.shown .duckdb = r.shown .duckdb := by
  let t : Table := ⟨"customers", some "mysql_sales", .ownEngine, []⟩
  let u : Table := ⟨"customers", none, .external ⟨"c1", "sales", "mysql"⟩, []⟩
  refine ⟨[u, t], t, u, .ownTable "customers" (some "mysql_sales"),
    .external "customers" none "mysql_sales" "c1", ?_⟩
  decide +kernel

end Attachment

end SqlFilter
