import SqlFilter.Proofs.Query.Planned

/-!
# The columns of a result

A statement has one column in its result for each column that is chosen, in the order of the tables
and then in the order of choice. A name that is chosen of several tables gets the alias of its table
in front, and an underscore in between. The names in the result are then different unless such an
alias meets another name (`Query.nodup_names_iff`), which takes a column with an underscore in its
name (`Query.not_clash`).
-/

namespace SqlFilter

namespace Query

/-- The columns that are chosen of the tables with these aliases, each with the alias. -/
def chosen (aliases : List String) (columns : Selection) : List (String × String) :=
  aliases.flatMap fun a => ((columns.lookup a).getD []).map (a, ·)

section Names

variable (cs : List (String × String))

/-- The name is chosen more than once. -/
def IsShared (column : String) : Prop := 1 < (cs.map Prod.snd).count column

instance (column : String) : Decidable (IsShared cs column) := inferInstanceAs (Decidable (_ < _))

/-- The name of a shared column in the result. -/
def sharedName (x : String × String) : String := x.1 ++ "_" ++ x.2

/-- A chosen column in the result. -/
def output (x : String × String) : OutputColumn :=
  ⟨x.1, x.2, if IsShared cs x.2 then some (sharedName x) else none⟩

/-- The name that a shared column gets is that of a column of another name, or the one that a shared
column of another table gets. -/
def Clash : Prop :=
  ∃ x ∈ cs, ∃ y ∈ cs, IsShared cs x.2 ∧
    (¬ IsShared cs y.2 ∧ y.2 = sharedName x ∨
      IsShared cs y.2 ∧ x.1 ≠ y.1 ∧ sharedName y = sharedName x)

variable {cs} {x y : String × String}

theorem name_output_of_shared (h : IsShared cs x.2) : (output cs x).name = sharedName x := by
  rw [output, if_pos h]
  rfl

theorem name_output_of_not_shared (h : ¬ IsShared cs x.2) : (output cs x).name = x.2 := by
  rw [output, if_neg h]
  rfl

/-- Two columns of the same name share it. -/
theorem isShared_of_ne (hx : x ∈ cs) (hy : y ∈ cs) (hne : x ≠ y) (hname : x.2 = y.2) :
    IsShared cs x.2 := by
  unfold IsShared
  obtain ⟨before, behind, rfl⟩ := List.append_of_mem hx
  have hothers : x.2 ∈ (before ++ behind).map Prod.snd := by
    rw [hname]
    refine List.mem_map_of_mem ?_
    simpa [Ne.symm hne] using hy
  have hcount := List.count_pos_iff.2 hothers
  simp only [List.map_append, List.map_cons, List.count_append, List.count_cons_self] at hcount ⊢
  omega

theorem sharedName_injective {a c e : String} (h : sharedName (a, c) = sharedName (a, e)) :
    c = e := by
  simpa [sharedName, String.append_assoc] using h

/-- **The names** in the result are different unless one that is made meets another. -/
theorem nodup_names_iff (h : cs.Nodup) :
    ((cs.map (output cs)).map OutputColumn.name).Nodup ↔ ¬ Clash cs := by
  rw [List.map_map, List.nodup_map_iff_inj_on h]
  constructor
  · rintro hinj ⟨x, hx, y, hy, hshared, ⟨hplain, hname⟩ | ⟨hshared', hne, hname⟩⟩
    · have heq : x = y := hinj x hx y hy
        ((name_output_of_shared hshared).trans
          (hname.symm.trans (name_output_of_not_shared hplain).symm))
      exact hplain (heq ▸ hshared)
    · have heq : x = y := hinj x hx y hy
        ((name_output_of_shared hshared).trans
          (hname.symm.trans (name_output_of_shared hshared').symm))
      exact hne (congrArg Prod.fst heq)
  · intro hclash x hx y hy hname
    simp only [Function.comp_apply] at hname
    by_cases hsx : IsShared cs x.2 <;> by_cases hsy : IsShared cs y.2
    · rw [name_output_of_shared hsx, name_output_of_shared hsy] at hname
      by_cases htable : x.1 = y.1
      · obtain ⟨a, c⟩ := x
        obtain ⟨b, e⟩ := y
        obtain rfl : a = b := htable
        rw [sharedName_injective hname]
      · exact absurd ⟨x, hx, y, hy, hsx, .inr ⟨hsy, htable, hname.symm⟩⟩ hclash
    · rw [name_output_of_shared hsx, name_output_of_not_shared hsy] at hname
      exact absurd ⟨x, hx, y, hy, hsx, .inl ⟨hsy, hname.symm⟩⟩ hclash
    · rw [name_output_of_not_shared hsx, name_output_of_shared hsy] at hname
      exact absurd ⟨y, hy, x, hx, hsy, .inl ⟨hsx, hname⟩⟩ hclash
    · rw [name_output_of_not_shared hsx, name_output_of_not_shared hsy] at hname
      by_contra hne
      exact hsx (isShared_of_ne hx hy hne hname)

/-! ## Underscores -/

theorem toList_sharedName (x : String × String) :
    (sharedName x).toList = x.1.toList ++ '_' :: x.2.toList := by
  unfold sharedName
  rw [String.toList_append, String.toList_append, List.append_assoc]
  rfl

/-- The last underscore of a text cuts it in one way only. -/
theorem append_underscore_inj {as bs us vs : List Char} (hu : '_' ∉ us) (hv : '_' ∉ vs)
    (h : as ++ '_' :: us = bs ++ '_' :: vs) : as = bs := by
  obtain ⟨cs, rfl, htail⟩ | ⟨cs, rfl, htail⟩ := List.append_eq_append_iff.1 h
  · cases cs with
    | nil => rw [List.append_nil]
    | cons c cs =>
      rw [(List.cons.inj htail).2] at hu
      exact absurd (List.mem_append_right cs List.mem_cons_self) hu
  · cases cs with
    | nil => rw [List.append_nil]
    | cons c cs =>
      rw [(List.cons.inj htail).2] at hv
      exact absurd (List.mem_append_right cs List.mem_cons_self) hv

/-- Names meet only where a chosen column has an underscore in its name. -/
theorem not_clash (h : ∀ x ∈ cs, '_' ∉ x.2.toList) : ¬ Clash cs := by
  rintro ⟨x, hx, y, hy, -, ⟨-, hname⟩ | ⟨-, hne, hname⟩⟩
  · refine h y hy ?_
    rw [hname, toList_sharedName]
    exact List.mem_append_right _ List.mem_cons_self
  · have hlist := congrArg String.toList hname
    rw [toList_sharedName, toList_sharedName] at hlist
    exact hne (String.toList_inj.1 (append_underscore_inj (h y hy) (h x hx) hlist)).symm

end Names

/-! ## Selections -/

theorem outputColumns_eq (bound : List Bound) (columns : Selection) :
    outputColumns bound columns =
      (chosen (bound.map Bound.aliasName) columns).map
        (output (chosen (bound.map Bound.aliasName) columns)) := by
  unfold chosen
  rw [List.flatMap_map]
  rfl

/-- No column is chosen twice if no table has one chosen twice. -/
theorem nodup_chosen {aliases : List String} {columns : Selection} (ha : aliases.Nodup)
    (hc : ∀ a ∈ aliases, ((columns.lookup a).getD []).Nodup) : (chosen aliases columns).Nodup := by
  refine List.nodup_flatMap.2 ⟨fun a h => (hc a h).map (Prod.mk_right_injective a), ?_⟩
  refine ha.imp fun {a b} hne => ?_
  rintro ⟨t, c⟩ hx hy
  obtain ⟨_, _, htable⟩ := List.mem_map.1 hx
  obtain ⟨_, _, htable'⟩ := List.mem_map.1 hy
  exact hne ((congrArg Prod.fst htable).trans (congrArg Prod.fst htable').symm)

end Query

namespace Session

variable {s : Session} {q : Query}

/-- A statement starts with its columns. -/
theorem exists_statement_eq (p : Printer String) {st : Statement} (h : st.columns ≠ []) :
    ∃ rest, p.statement st =
      "SELECT " ++ String.intercalate ", " (st.columns.map p.column) ++ " FROM " ++ rest := by
  unfold Printer.statement
  rw [if_neg (by simpa using h)]
  simp only [String.append_assoc]
  exact ⟨_, rfl⟩

/-- **The result** of a query has one column for each that is chosen, in the order of the tables and
then in the order of choice. A name that is chosen of several tables gets an alias. If no table has
a column chosen twice, all names in the result are different just if no alias meets another name,
and none does unless a chosen column has an underscore in its name. -/
theorem build_columns {plan : Plan} (h : (s.build q).1 = .ok plan)
    (hchosen : Query.chosen (Query.aliases q.tables) q.columns ≠ [])
    (hdistinct : ∀ a ∈ Query.aliases q.tables, ((q.columns.lookup a).getD []).Nodup) :
    let p : Printer String := { dialect := s.settings.dialect }
    let chosen := Query.chosen (Query.aliases q.tables) q.columns
    ∃ cols : List OutputColumn,
      (∃ rest, plan.sql =
        "SELECT " ++ String.intercalate ", " (cols.map p.column) ++ " FROM " ++ rest) ∧
      cols.map (fun c => (c.table, c.column)) = chosen ∧
      (∀ c ∈ cols, c.aliasName =
        if 1 < (chosen.map Prod.snd).count c.column then some (c.table ++ "_" ++ c.column)
        else none) ∧
      ((cols.map OutputColumn.name).Nodup ↔ ¬ Query.Clash chosen) ∧
      ((∀ x ∈ chosen, '_' ∉ x.2.toList) → (cols.map OutputColumn.name).Nodup) := by
  intro p chosen
  obtain ⟨-, ⟨hnil, -⟩ | ⟨first, others, hbind, -, rfl⟩⟩ := eq_of_build h
  · rw [hnil] at hchosen
    exact absurd rfl hchosen
  · obtain ⟨bound, hbound, hnames⟩ := Query.exists_bind q.tables
    obtain rfl : first :: others = bound := Except.ok.inj (hbind.symm.trans hbound)
    have hcolumns : Query.outputColumns (first :: others) q.columns =
        chosen.map (Query.output chosen) := by
      rw [Query.outputColumns_eq, hnames]
    have hiff := Query.nodup_names_iff (Query.nodup_chosen (Query.nodup_aliases q.tables) hdistinct)
    refine ⟨chosen.map (Query.output chosen), ?_, ?_, ?_, hiff, fun hplain =>
      hiff.2 (Query.not_clash hplain)⟩
    · have hst : (statementOf s.settings (s.detected q first others) q first
          (Query.withSpecs others q.joins)).columns = chosen.map (Query.output chosen) := by
        rw [← hcolumns]
        show Query.outputColumns (first :: (Query.withSpecs others q.joins).map Prod.fst) _ = _
        rw [Query.map_fst_withSpecs]
      have hne : chosen.map (Query.output chosen) ≠ [] := mt List.map_eq_nil_iff.1 hchosen
      have hsql := exists_statement_eq (printer s.settings (s.detected q first others))
        (hst ▸ hne)
      rwa [hst] at hsql
    · rw [List.map_map]
      exact List.map_id chosen
    · intro c hc
      obtain ⟨x, -, rfl⟩ := List.mem_map.1 hc
      rfl

theorem build_columns_shared : ∃ (q : Query) (plan : Plan) (cols : List OutputColumn),
    (build {} q).1 = .ok plan ∧
      Query.chosen (Query.aliases q.tables) q.columns ≠ [] ∧
      (∀ a ∈ Query.aliases q.tables, ((q.columns.lookup a).getD []).Nodup) ∧
      cols.map (fun c => (c.table, c.column)) =
        [("o", "id"), ("o", "total"), ("o_2", "id"), ("o_2", "note")] ∧
      (cols.map OutputColumn.name).Nodup := by
  let t : Table := ⟨"o", none, .ownEngine, []⟩
  let q : Query :=
    { tables := [t, t]
      joins := []
      filter := ⟨"r", .and, []⟩
      columns := [("o_2", ["id", "note"]), ("p", ["id"]), ("o", ["id", "total"])] }
  have haliases : Query.aliases q.tables = ["o", "o_2"] := by decide +kernel
  have hdistinct : ∀ a ∈ Query.aliases q.tables, ((q.columns.lookup a).getD []).Nodup := by
    rw [haliases]
    decide
  have hchosen : Query.chosen (Query.aliases q.tables) q.columns =
      [("o", "id"), ("o", "total"), ("o_2", "id"), ("o_2", "note")] := by
    rw [haliases]
    rfl
  have hne : Query.chosen (Query.aliases q.tables) q.columns ≠ [] := by
    rw [hchosen]
    exact List.cons_ne_nil _ _
  obtain ⟨plan, hplan⟩ : ∃ plan, (build {} q).1 = .ok plan := by
    cases h : (build {} q).1 with
    | ok plan => exact ⟨plan, rfl⟩
    | error e =>
      have hok : (build {} q).1.toBool = true := by decide +kernel
      rw [h] at hok
      cases hok
  obtain ⟨cols, -, hcols, -, -, hnodup⟩ := build_columns hplan hne hdistinct
  refine ⟨q, plan, cols, hplan, hne, hdistinct, hcols.trans hchosen, hnodup ?_⟩
  rw [hchosen]
  decide

/-- A column that refers to another table may have the name that a shared column of that table
gets. -/
theorem exists_same_names : ∃ (q : Query) (plan : Plan) (cols : List OutputColumn) (rest : String),
    (build {} q).1 = .ok plan ∧
      (∀ a ∈ Query.aliases q.tables, ((q.columns.lookup a).getD []).Nodup) ∧
      plan.sql = "SELECT " ++
        String.intercalate ", " (cols.map ({ dialect := .duckdb } : Printer String).column) ++
          " FROM " ++ rest ∧
      cols.map OutputColumn.name = ["orders_id", "customers_id", "customers_id"] := by
  let table (name : String) : Table := ⟨name, none, .ownEngine, []⟩
  let q : Query :=
    { tables := [table "orders", table "customers"]
      joins := []
      filter := ⟨"r", .and, []⟩
      columns := [("orders", ["id", "customers_id"]), ("customers", ["id"])] }
  let cols : List OutputColumn := [⟨"orders", "id", some "orders_id"⟩,
    ⟨"orders", "customers_id", none⟩, ⟨"customers", "id", some "customers_id"⟩]
  let rest := "\"orders\" AS \"orders\" INNER JOIN \"customers\" AS \"customers\" ON " ++
    Joined.placeholder ++ " LIMIT 1000"
  have hsql : (build {} q).1.map Plan.sql = .ok ("SELECT " ++
      String.intercalate ", " (cols.map ({ dialect := .duckdb } : Printer String).column) ++
        " FROM " ++ rest) := by decide +kernel
  have haliases : Query.aliases q.tables = ["orders", "customers"] := by decide +kernel
  cases hplan : (build {} q).1 with
  | error e =>
    rw [hplan] at hsql
    cases hsql
  | ok plan =>
    rw [hplan] at hsql
    refine ⟨q, plan, cols, rest, hplan, ?_, Except.ok.inj hsql, rfl⟩
    rw [haliases]
    decide

end Session

end SqlFilter
