import SqlFilter.Proofs.Condition.Text
import SqlFilter.Proofs.Conflict.Detection
import SqlFilter.Proofs.Query.Planned
import SqlFilter.Proofs.Tree.Identity

/-!
# Conflicts in a plan

The conflicts of a session are looked for again before a statement is put together, so that no
comparison of two columns and no range of the statement escapes them, whatever the session went
through before (`Session.build_guards`): it is among the conflicts that the plan waits for, or cast
to a type, or there is nothing to decide on it. A plan that waits for nothing has an `ON` clause
for every join.
-/

namespace SqlFilter

/-! ## Texts -/

/-- An expression in SQL, cast to a type if one is given. -/
def Dialect.castTo (d : Dialect) (cast : Option String) (sql : String) : String :=
  cast.elim sql (d.safeCast sql)

theorem JoinCondition.sql_eq (d : Dialect) (cast : Option String) (c : JoinCondition) :
    c.sql d cast = d.castTo cast (c.left.sql d) ++ " " ++ c.operator.name ++ " " ++
      d.castTo cast (c.right.sql d) := by
  cases cast <;> rfl

theorem Condition.boundSql_eq (d : Dialect) (cast : Option String) (l : Literal) :
    boundSql d cast l = d.castTo cast (l.sql d) := by
  cases cast <;> rfl

/-- A complete range has its bounds. -/
theorem Condition.exists_bounds {c : Condition} (h : c.IsComplete) (hop : c.operator = .between) :
    ∃ low high, c.value = some (.single low) ∧ c.upper = some high := by
  have hfits := (isComplete_iff.1 h).2
  rw [hop] at hfits
  generalize c.value = value at hfits
  generalize c.upper = upper at hfits
  cases hfits with
  | bounds low high => exact ⟨low, high, rfl, rfl⟩

theorem Condition.sql_of_bounds {c : Condition} {low high : Literal} (h : c.IsComplete)
    (hop : c.operator = .between) (hlow : c.value = some (.single low))
    (hhigh : c.upper = some high) (d : Dialect) (cast : Option String) :
    c.sql d cast = d.quotePath [c.table, c.column] ++ " BETWEEN " ++ d.castTo cast (low.sql d) ++
      " AND " ++ d.castTo cast (high.sql d) := by
  have hname : " BETWEEN " = " " ++ "BETWEEN" ++ " " := by decide
  rw [sql, if_pos h, hlow, hhigh, hop, ← boundSql_eq, ← boundSql_eq, hname]
  simp only [String.append_assoc]
  rfl

/-! ## Comparisons of a query -/

namespace Query

variable {bound : List Bound} {specs : List JoinSpec}

/-- Two columns of a query with their types. -/
def pairOf (bound : List Bound) (l r : ColumnRef) : ColumnPair :=
  ⟨l, columnType bound l, r, columnType bound r⟩

theorem pairOf_mem_columnPairs {spec : JoinSpec} {c : JoinCondition} {l r : ColumnRef}
    (hspec : spec ∈ specs) (hc : c ∈ spec.complete) (hcols : c.columns? = some (l, r)) :
    pairOf bound l r ∈ columnPairs bound specs := by
  refine List.mem_filterMap.2 ⟨c, List.mem_flatMap.2 ⟨spec, hspec, hc⟩, ?_⟩
  rw [hcols]
  rfl

theorem eq_pairOf_of_mem {pair : ColumnPair} (h : pair ∈ columnPairs bound specs) :
    pair = pairOf bound pair.left pair.right := by
  obtain ⟨c, -, hc⟩ := List.mem_filterMap.1 h
  obtain ⟨⟨l, r⟩, -, rfl⟩ := Option.map_eq_some_iff.1 hc
  rfl

end Query

namespace Comparison

theorem key_of_ofRange? {i : String} {c : Condition} {comparison : Comparison}
    (h : ofRange? i c = some comparison) : comparison.key = .range i := by
  obtain ⟨low, high, -, -, -, rfl⟩ := ofRange?_eq_some_iff.1 h
  rfl

/-- A key belongs to one comparison of a query at most. -/
theorem eq_of_key_eq {bound : List Bound} {specs : List JoinSpec} {filter : Tree String}
    (hids : filter.ids.Nodup) {a b : Comparison}
    (ha : a ∈ all (Query.columnPairs bound specs) filter)
    (hb : b ∈ all (Query.columnPairs bound specs) filter) (hkey : a.key = b.key) : a = b := by
  rcases List.mem_append.1 ha with ha | ha <;> rcases List.mem_append.1 hb with hb | hb
  · obtain ⟨p, hp, rfl⟩ := List.mem_map.1 ha
    obtain ⟨p', hp', rfl⟩ := List.mem_map.1 hb
    obtain ⟨hl, hr⟩ := ConflictKey.join.inj hkey
    rw [Query.eq_pairOf_of_mem hp, Query.eq_pairOf_of_mem hp', hl, hr]
  · obtain ⟨p, -, rfl⟩ := List.mem_map.1 ha
    obtain ⟨⟨i, c⟩, -, hc⟩ := List.mem_filterMap.1 hb
    rw [key_of_ofRange? hc] at hkey
    cases hkey
  · obtain ⟨p, -, rfl⟩ := List.mem_map.1 hb
    obtain ⟨⟨i, c⟩, -, hc⟩ := List.mem_filterMap.1 ha
    rw [key_of_ofRange? hc] at hkey
    cases hkey
  · obtain ⟨⟨i, c⟩, hmem, hc⟩ := List.mem_filterMap.1 ha
    obtain ⟨⟨j, d⟩, hmem', hd⟩ := List.mem_filterMap.1 hb
    rw [key_of_ofRange? hc, key_of_ofRange? hd] at hkey
    obtain rfl := ConflictKey.range.inj hkey
    obtain rfl := Tree.eq_of_mem_conditions hids hmem hmem'
    exact Option.some.inj (hc.symm.trans hd)

end Comparison

/-! ## Clauses -/

namespace Printer

theorem mem_toList_intercalate {sep s : String} {ss : List String} {x : Char}
    (h : x ∈ s.toList) : x ∈ (String.intercalate sep (s :: ss)).toList := by
  cases ss with
  | nil => rwa [String.intercalate_singleton]
  | cons t ts =>
    rw [String.intercalate_cons_cons, String.toList_append, String.toList_append]
    exact List.mem_append_left _ (List.mem_append_left _ h)

theorem leftParen_mem_tree {ι : Type} {p : Printer ι} {t : Tree ι} (h : p.tree t ≠ "") :
    '(' ∈ (p.tree t).toList := by
  rw [tree] at h ⊢
  unfold join at h ⊢
  cases hms : p.members t.children with
  | nil => exact absurd (congrArg (join t.logic) hms) h
  | cons m ms =>
    cases ms <;> simp only [toList_parenthesized] <;> exact List.mem_cons_self

variable {p : Printer String}

/-- Characters of `ON` clauses that the placeholder does not have. -/
def clauseMarks : List Char := ['(', '=', '<', '>']

theorem not_mem_placeholder {x : Char} (h : x ∈ clauseMarks) : x ∉ Joined.placeholder.toList := by
  have hall : Joined.placeholder.toList.all (fun x => x ∉ clauseMarks) = true := by decide +kernel
  exact fun hx => of_decide_eq_true (List.all_eq_true.1 hall x hx) h

/-- A comparison that can be written has one of the marks in its operator. -/
theorem exists_mark_comparison {c : JoinCondition} (h : c.isComplete = true)
    (cast : Option String) : ∃ x ∈ clauseMarks, x ∈ (p.onPart (.comparison c cast)).toList := by
  have hcomparison : c.operator.isComparison = true := by
    rw [JoinCondition.isComplete, Bool.and_eq_true, Bool.and_eq_true] at h
    exact h.1.1
  have hany : clauseMarks.any (fun x => c.operator.name.toList.contains x) = true := by
    revert hcomparison
    cases c.operator <;> decide
  obtain ⟨x, hx, hmem⟩ := List.any_eq_true.1 hany
  refine ⟨x, hx, ?_⟩
  rw [onPart, JoinCondition.sql_eq]
  simp only [String.toList_append, List.mem_append]
  exact .inl (.inl (.inr (List.contains_iff_mem.1 hmem)))

end Printer

namespace Session

variable {settings : Settings} {log : ConflictLog} {filter : Tree String}

/-- The parts of an `ON` clause have one of the marks each. -/
theorem exists_mark_onPart {b : Bound} {spec : JoinSpec} {part : OnPart}
    (h : part ∈ (joinedOf settings log filter b spec).on) :
    ∃ x ∈ Printer.clauseMarks, x ∈ ((printer settings log).onPart part).toList := by
  have hcomparison : ∀ part ∈ comparisonsOf log spec, ∃ x ∈ Printer.clauseMarks,
      x ∈ ((printer settings log).onPart part).toList := by
    intro part hpart
    obtain ⟨c, hc, rfl⟩ := List.mem_map.1 hpart
    exact Printer.exists_mark_comparison (List.mem_filter.1 hc).2 _
  unfold joinedOf at h
  dsimp only at h
  split_ifs at h with hempty hpush
  · exact hcomparison part h
  · exact hcomparison part h
  · rcases List.mem_append.1 h with h | h
    · exact hcomparison part h
    · rw [List.mem_singleton.1 h]
      exact ⟨_, List.mem_cons_self, Printer.leftParen_mem_tree hempty⟩

/-- An `ON` clause that has parts is not the placeholder. -/
theorem onClause_ne_placeholder {b : Bound} {spec : JoinSpec}
    (h : (joinedOf settings log filter b spec).isIncomplete = false) :
    (printer settings log).onClause (joinedOf settings log filter b spec).on ≠
      Joined.placeholder := by
  have hmarks := fun part => @exists_mark_onPart settings log filter b spec part
  unfold Joined.isIncomplete at h
  unfold Printer.onClause
  rw [if_neg (by rw [h]; exact Bool.false_ne_true)]
  cases hon : (joinedOf settings log filter b spec).on with
  | nil =>
    rw [hon] at h
    cases h
  | cons part parts =>
    obtain ⟨x, hx, hmem⟩ := hmarks part (by rw [hon]; exact List.mem_cons_self)
    intro heq
    refine Printer.not_mem_placeholder hx (heq ▸ ?_)
    exact Printer.mem_toList_intercalate hmem

/-! ## The conflicts of a query -/

section Detected

variable {s : Session} {q : Query} (hids : q.filter.ids.Nodup) (first : Bound)
  (others : List Bound)

include hids in
/-- All comparisons of a query are guarded. -/
theorem guarded_detected {c : Comparison} (hc : c ∈ Comparison.all (Query.columnPairs
      (first :: others) ((Query.withSpecs others q.joins).map Prod.snd)) q.filter) :
    c.Guarded (s.detected q first others).unresolved
      ((s.detected q first others).castFor c.key) := by
  refine s.log.guarded_detect hc fun c' hc' hkey => ?_
  rw [Comparison.eq_of_key_eq hids hc' hc hkey]
  exact ⟨rfl, rfl⟩

end Detected

end Session

/-! ## Guarded statements -/

/-- The comparison of an `ON` clause that the part is, with its cast. -/
def OnPart.comparison? : OnPart → Option (JoinCondition × Option String)
  | comparison c cast => some (c, cast)
  | filter _ => none

/-- The comparisons of a joined table with their casts. -/
def Joined.comparisons (j : Joined) : List (JoinCondition × Option String) :=
  j.on.filterMap OnPart.comparison?

section Guards

variable (p : Printer String) (waiting : List Conflict)

/-- The comparison of two columns is written with its cast on both sides and guarded by it. -/
structure JoinCondition.Guards (bound : List Bound) (c : JoinCondition) (cast : Option String)
    (l r : ColumnRef) : Prop where
  sql : p.onPart (.comparison c cast) =
    p.dialect.castTo cast (p.dialect.quotePath [l.table, l.column]) ++ " " ++ c.operator.name ++
      " " ++ p.dialect.castTo cast (p.dialect.quotePath [r.table, r.column])
  guarded : (Comparison.ofPair (Query.pairOf bound l r)).Guarded waiting cast

/-- A joined table has the comparisons of its specification, each pair of columns guarded. -/
structure Joined.Guards (bound : List Bound) (casts : JoinCondition → Option String)
    (spec : JoinSpec) (j : Joined) : Prop where
  comparisons : j.comparisons = spec.complete.map fun c => (c, casts c)
  columns : ∀ c ∈ spec.complete, ∀ l r, c.columns? = some (l, r) →
    c.Guards p waiting bound (casts c) l r

/-- A range stands in one of the filters, is written with its cast on both bounds and guarded by
it. -/
structure Condition.Guards (filters : List (Tree String)) (i : String) (c : Condition)
    (low high : Literal) : Prop where
  value : c.value = some (.single low)
  upper : c.upper = some high
  mem : ∃ t ∈ filters, .condition i c ∈ t.leafNodes
  sql : p.node (.condition i c) = p.dialect.quotePath [c.table, c.column] ++ " BETWEEN " ++
    p.dialect.castTo (p.casts i) (low.sql p.dialect) ++ " AND " ++
      p.dialect.castTo (p.casts i) (high.sql p.dialect)
  guarded : (Comparison.ofBounds i low high).Guarded waiting (p.casts i)

end Guards

namespace Session

section Guards

variable {s : Session} {q : Query} (hids : q.filter.ids.Nodup) (first : Bound)
  (others : List Bound)

include hids in
theorem guards_joinedOf {b : Bound} {spec : JoinSpec}
    (h : (b, spec) ∈ Query.withSpecs others q.joins) :
    (joinedOf s.settings (s.detected q first others) q.filter b spec).Guards
      (printer s.settings (s.detected q first others)) (s.detected q first others).unresolved
      (first :: others) (joinCast (s.detected q first others)) spec where
  comparisons := by
    unfold joinedOf Joined.comparisons
    dsimp only
    split_ifs <;> simp [comparisonsOf, OnPart.comparison?, Function.comp_def]
  columns := by
    intro c hc l r hcols
    refine ⟨?_, ?_⟩
    · obtain ⟨left, op, right⟩ := c
      unfold JoinCondition.columns? at hcols
      dsimp only at hcols
      split at hcols
      · obtain ⟨rfl, rfl⟩ := Prod.mk.inj (Option.some.inj hcols)
        exact JoinCondition.sql_eq _ _ _
      · cases hcols
    · have hpair : Query.pairOf (first :: others) l r ∈ Query.columnPairs (first :: others)
          ((Query.withSpecs others q.joins).map Prod.snd) :=
        Query.pairOf_mem_columnPairs (List.mem_map_of_mem h) hc hcols
      have hmem : Comparison.ofPair (Query.pairOf (first :: others) l r) ∈ Comparison.all
          (Query.columnPairs (first :: others) ((Query.withSpecs others q.joins).map Prod.snd))
          q.filter := List.mem_append_left _ (List.mem_map_of_mem hpair)
      have hcast : joinCast (s.detected q first others) c =
          (s.detected q first others).castFor
            (Comparison.ofPair (Query.pairOf (first :: others) l r)).key := by
        rw [joinCast, hcols]
        rfl
      have hguarded := @guarded_detected s q hids first others _ hmem
      rw [hcast]
      exact hguarded

include hids in
theorem guards_range {i : String} {c : Condition} (hmem : (i, c) ∈ q.filter.conditions)
    (hc : c.IsComplete) (hop : c.operator = .between) : ∃ low high,
      c.Guards (printer s.settings (s.detected q first others))
        (s.detected q first others).unresolved
        (statementOf s.settings (s.detected q first others) q first
          (Query.withSpecs others q.joins)).filters i low high := by
  obtain ⟨low, high, hlow, hhigh⟩ := Condition.exists_bounds hc hop
  have hsql := Condition.sql_of_bounds hc hop hlow hhigh s.settings.dialect
    ((s.detected q first others).rangeCast i)
  have hshown : (printer s.settings (s.detected q first others)).shows (.condition i c) = true := by
    refine decide_eq_true fun hempty => ?_
    have hlength := congrArg String.length (hsql.symm.trans hempty)
    rw [String.length_append, String.length_append, String.length_append] at hlength
    exact absurd hlength (by simp)
  refine ⟨low, high, hlow, hhigh, ?_, hsql, ?_⟩
  · exact exists_mem_filters (Tree.mem_conditions_iff.1 hmem) hshown _ _
  · refine guarded_detected hids first others (List.mem_append_right _ ?_)
    exact List.mem_filterMap.2 ⟨(i, c), hmem,
      Comparison.ofRange?_eq_some_iff.2 ⟨low, high, hop, hlow, hhigh, rfl⟩⟩

end Guards

/-- **Conflicts** do not escape a plan. Whatever the session went through before, each comparison of
two columns and each range of a query with tables is guarded in the statement of its plan, and a
plan that may run has no placeholder. -/
theorem build_guards {s : Session} {q : Query} {plan : Plan} (hplan : (s.build q).1 = .ok plan)
    (hids : q.filter.hasUniqueIds = true) :
    let p := printer s.settings (s.build q).2.log
    q.tables = [] ∧ plan = Plan.empty ∨
      ∃ first others casts st,
        Query.bind (Attachment.ofTables q.tables) q.tables = .ok (first :: others) ∧
          plan.sql = p.statement st ∧
          List.Forall₂ (Joined.Guards p plan.unresolved (first :: others) casts)
            ((Query.withSpecs others q.joins).map Prod.snd) st.joins ∧
          (∀ i c, (i, c) ∈ q.filter.conditions → c.IsComplete → c.operator = .between →
            ∃ low high, c.Guards p plan.unresolved st.filters i low high) ∧
          (plan.isExecutable = true → ∀ j ∈ st.joins, p.onClause j.on ≠ Joined.placeholder) := by
  intro p
  have hnodup : q.filter.ids.Nodup := q.filter.hasUniqueIds_iff.1 hids
  obtain ⟨hdepth, hempty | ⟨first, others, hbind, -, rfl⟩⟩ := eq_of_build hplan
  · exact .inl hempty
  · have hp : p = printer s.settings (s.detected q first others) := by
      rw [show p = printer s.settings (s.build q).2.log from rfl, build_of_bind hdepth hbind]
    rw [hp]
    refine .inr ⟨first, others, joinCast (s.detected q first others), _, hbind, rfl, ?_, ?_, ?_⟩
    · refine List.forall₂_map_left_iff.2 (List.forall₂_map_right_iff.2 ?_)
      exact List.forall₂_same.2 fun o ho => guards_joinedOf hnodup first others ho
    · exact fun i c hmem hc hop => guards_range hnodup first others hmem hc hop
    · intro hexec j hj
      obtain ⟨o, -, rfl⟩ := List.mem_map.1 hj
      refine onClause_ne_placeholder ?_
      rw [Plan.isExecutable, Bool.and_eq_true, List.isEmpty_iff] at hexec
      have hnone := List.filter_eq_nil_iff.1 (List.map_eq_nil_iff.1 hexec.2) _ hj
      exact (Bool.not_eq_true _).mp hnone

theorem build_guards_of_decided : ∃ (s : Session) (q : Query) (plan : Plan) (st : Statement)
    (c : Condition) (low high : Literal),
      (s.build q).1 = .ok plan ∧ q.filter.hasUniqueIds = true ∧
        plan.sql = "SELECT * FROM \"o\" AS \"o\" INNER JOIN \"c\" AS \"c\" ON " ++
          "TRY_CAST(\"o\".\"id\" AS TEXT) = TRY_CAST(\"c\".\"id\" AS TEXT) " ++
          "WHERE (\"o\".\"n\" BETWEEN 1 AND 'x') LIMIT 1000" ∧
        plan.unresolved.map Conflict.key = [.range "a"] ∧
        plan.sql = (printer s.settings (s.build q).2.log).statement st ∧
        c.Guards (printer s.settings (s.build q).2.log) plan.unresolved st.filters "a" low
          high := by
  let c : Condition :=
    ⟨"o", "n", .between, some (.single (.integer 1)), some (.string "x"), .atWhere⟩
  let q : Query :=
    { tables := [⟨"o", none, .ownEngine, [⟨"id", "INTEGER"⟩]⟩,
        ⟨"c", none, .ownEngine, [⟨"id", "VARCHAR"⟩]⟩]
      joins := [⟨.inner, [⟨.column ⟨"o", "id"⟩, .eq, .column ⟨"c", "id"⟩⟩]⟩]
      filter := ⟨"r", .and, [.condition "a" c]⟩
      columns := [] }
  let s : Session :=
    { log := ((build {} q).2.log.resolve (.join ⟨"o", "id"⟩ ⟨"c", "id"⟩) (some "text")).2 }
  have hok : (s.build q).1.map (fun plan => (plan.sql, plan.unresolved.map Conflict.key)) = .ok
      ("SELECT * FROM \"o\" AS \"o\" INNER JOIN \"c\" AS \"c\" ON " ++
        "TRY_CAST(\"o\".\"id\" AS TEXT) = TRY_CAST(\"c\".\"id\" AS TEXT) " ++
        "WHERE (\"o\".\"n\" BETWEEN 1 AND 'x') LIMIT 1000", [.range "a"]) := by decide +kernel
  cases hplan : (s.build q).1 with
  | error e =>
    rw [hplan] at hok
    cases hok
  | ok plan =>
    rw [hplan] at hok
    obtain ⟨hsql, hkeys⟩ := Prod.mk.inj (Except.ok.inj hok)
    have hids : q.filter.hasUniqueIds = true := by decide
    obtain ⟨htables, -⟩ | ⟨-, -, -, st, -, hst, -, hranges, -⟩ := build_guards hplan hids
    · cases htables
    · obtain ⟨low, high, hguards⟩ := hranges "a" c (List.mem_singleton_self _) (by decide) rfl
      exact ⟨s, q, plan, st, c, low, high, hplan, hids, hsql, hkeys, hst, hguards⟩

/-- Without a table there is no statement, and the ranges of the filter are not looked at. -/
theorem exists_unguarded_without_table : ∃ (q : Query) (plan : Plan) (i : String) (c : Condition)
    (low high : Literal),
      (build {} q).1 = .ok plan ∧ q.filter.hasUniqueIds = true ∧ (i, c) ∈ q.filter.conditions ∧
        c.IsComplete ∧ c.operator = .between ∧ c.value = some (.single low) ∧
        c.upper = some high ∧
        (Comparison.ofBounds i low high).left.Clashes (Comparison.ofBounds i low high).right ∧
        plan.unresolved = [] ∧ plan.sql = "" :=
  ⟨{ tables := []
     joins := []
     filter := ⟨"r", .and, [.condition "a"
       ⟨"t", "c", .between, some (.single (.integer 1)), some (.string "x"), .atWhere⟩]⟩
     columns := [] },
    Plan.empty, "a", _, .integer 1, .string "x", rfl, by decide, List.mem_singleton_self _,
    by decide, rfl, rfl, rfl, by decide +kernel, rfl, rfl⟩

end Session

end SqlFilter
