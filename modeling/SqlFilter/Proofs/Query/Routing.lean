import SqlFilter.Proofs.Query.Aliases
import SqlFilter.Proofs.Table.Attached
import SqlFilter.Proofs.Tree.Printed

/-!
# The filter of a query in its statement

A statement has the filter of its query in parts, one in the `WHERE` clause and one for each joined
table. Every leaf is in one of them (`Query.leafNodes_routed`), and together they mean what the
filter means unless a disjunction is split between them (`Session.build_routes`). All tables get a
reference and an alias of their own on the way, so that a filter that is not nested too deeply is
never lost to an error.
-/

namespace SqlFilter

/-! ## Tables -/

namespace Query

/-- All tables of a query are found, under their aliases. -/
theorem exists_bind (tables : List Table) :
    ∃ bound, bind (Attachment.ofTables tables) tables = .ok bound ∧
      bound.map Bound.aliasName = aliases tables := by
  have hok : ∀ x ∈ tables.zip (aliases tables), ∃ b : Bound,
      (do return ⟨x.1, x.2, ← TableRef.ofTable (Attachment.ofTables tables) x.1⟩) =
        (.ok b : Except Error Bound) ∧ b.aliasName = x.2 := by
    rintro ⟨t, a⟩ hx
    obtain ⟨r, hr⟩ := TableRef.exists_ofTable (List.of_mem_zip hx).1
    refine ⟨⟨t, a, r⟩, ?_, rfl⟩
    rw [hr]
    rfl
  obtain ⟨bound, hbound, hnames⟩ := exists_mapM_eq_ok hok
  refine ⟨bound, hbound, hnames.trans ?_⟩
  exact List.map_snd_zip (Nat.le_of_eq (length_aliases tables))

/-- A query that has tables has a first one. -/
theorem exists_bind_cons {tables : List Table} (h : tables ≠ []) : ∃ first others,
    bind (Attachment.ofTables tables) tables = .ok (first :: others) ∧
      first.aliasName :: others.map Bound.aliasName = aliases tables := by
  obtain ⟨bound, hbound, hnames⟩ := exists_bind tables
  cases bound with
  | nil =>
    have hlength := congrArg List.length hnames
    rw [length_aliases] at hlength
    exact absurd (List.length_eq_zero_iff.1 hlength.symm) h
  | cons first others => exact ⟨first, others, hbound, hnames⟩

@[simp] theorem map_fst_withSpecs (bound : List Bound) (specs : List JoinSpec) :
    (withSpecs bound specs).map Prod.fst = bound := by
  induction bound generalizing specs with
  | nil => rfl
  | cons b bs ih => cases specs <;> simp [withSpecs, ih]

/-! ## Routes -/

/-- Where a leaf goes: to the `ON` clause of the joined table with the alias, or to the `WHERE`
clause if there is none. -/
def route (joined : List String) : Node String → Option String
  | .condition _ c => if c.placement = .on ∧ c.table ∈ joined then some c.table else none
  | _ => none

/-- All routes. -/
def routes (joined : List String) : List (Option String) := none :: joined.map some

/-- The part of the filter on a route. -/
def routed (joined : List String) (filter : Tree String) : Option String → Tree String
  | none => wherePart joined filter
  | some a => filter.onPart (some a)

/-- The test that a part of the filter passes. -/
def routeTest (joined : List String) : Option String → LeafTest String
  | none, some (_, c) => c.placement = .atWhere || !joined.contains c.table
  | none, none => true
  | some a, some (_, c) => c.placement = .on && a == c.table
  | some _, none => false

variable {joined : List String}

theorem routed_eq_kept (filter : Tree String) (r : Option String) :
    routed joined filter r = filter.kept (routeTest joined r) := by
  cases r with
  | none =>
    refine congrArg (fun keep => filter.kept keep) (funext fun x => ?_)
    rcases x with _ | ⟨i, c⟩ <;> rfl
  | some a =>
    refine congrArg (fun keep => filter.kept keep) (funext fun x => ?_)
    rcases x with _ | ⟨i, c⟩
    · rfl
    · simp only [routeTest, Option.all_some]
      rw [Bool.beq_comm]

theorem nodup_routes (h : joined.Nodup) : (routes joined).Nodup := by
  refine List.nodup_cons.2 ⟨?_, h.map fun _ _ => Option.some.inj⟩
  simp

theorem route_mem_routes (leaf : Node String) : route joined leaf ∈ routes joined := by
  unfold route
  split
  · split_ifs with h
    · exact List.mem_cons_of_mem _ (List.mem_map_of_mem h.2)
    · exact List.mem_cons_self
  · exact List.mem_cons_self

/-- A leaf passes the test of its own route only. -/
theorem passes_routeTest {r : Option String} (hr : r ∈ routes joined) (leaf : Node String) :
    (routeTest joined r).passes leaf = true ↔ route joined leaf = r := by
  have ha : ∀ a, r = some a → a ∈ joined := by
    rintro a rfl
    simpa [routes] using hr
  cases leaf with
  | condition i c =>
    unfold LeafTest.passes route
    cases r with
    | none => cases hp : c.placement <;> simp [routeTest, hp]
    | some a =>
      have hj := ha a rfl
      simp only [routeTest, Bool.and_eq_true, decide_eq_true_eq, beq_iff_eq]
      split_ifs with h
      · simp [h.1, eq_comm]
      · simp only [iff_false]
        rintro ⟨hp, rfl⟩
        exact h ⟨hp, hj⟩
  | group i k cs => cases r <;> simp [LeafTest.passes, routeTest, route]
  | raw i t => cases r <;> simp [LeafTest.passes, routeTest, route]

/-- **Every leaf** is in the part of the filter on its own route and in no other part. -/
theorem leafNodes_routed (filter : Tree String) {r : Option String} (hr : r ∈ routes joined) :
    (routed joined filter r).leafNodes =
      filter.leafNodes.filter fun leaf => route joined leaf = r := by
  rw [routed_eq_kept, Tree.leafNodes_kept]
  refine List.filter_congr fun leaf _ => ?_
  rw [Bool.eq_iff_iff, decide_eq_true_iff]
  exact passes_routeTest hr leaf

/-- The parts of a filter have its value as their conjunction, if no disjunction is split. -/
theorem mergeAll_routed {shown : Node String → Bool} {v : Node String → Truth}
    (hnodup : joined.Nodup) {filter : Tree String}
    (h : filter.toNode.Unsplit shown (route joined)) :
    Logic.and.mergeAll ((routes joined).map fun r => (routed joined filter r).value shown v) =
      filter.value shown v := by
  simp only [routed_eq_kept]
  exact Tree.mergeAll_kept (nodup_routes hnodup) route_mem_routes
    (fun r hr leaf => passes_routeTest hr leaf) filter h

end Query

/-! ## Statements -/

/-- The filter that the part of an `ON` clause is, if it is one. -/
def OnPart.filter? : OnPart → Option (Tree String)
  | filter t => some t
  | comparison _ _ => none

/-- The filters of a joined table: the one before the join, and those of its `ON` clause. -/
def Joined.filters (j : Joined) : List (Tree String) :=
  j.pushed.toList ++ j.on.filterMap OnPart.filter?

/-- The filters of a statement, all of which have to hold. -/
def Statement.filters (s : Statement) : List (Tree String) :=
  s.filter :: s.joins.flatMap Joined.filters

/-- The tree, unless it is written as nothing. -/
def Printer.written (p : Printer String) (t : Tree String) : List (Tree String) :=
  if p.tree t = "" then [] else [t]

/-- Trees that are written as nothing do not count. -/
theorem Printer.mergeAll_flatMap_written {α : Type} (p : Printer String) (v : Node String → Truth)
    (k : Logic) (f : α → Tree String) (xs : List α) :
    k.mergeAll ((xs.flatMap fun x => p.written (f x)).map fun t => t.value p.shows v) =
      k.mergeAll (xs.map fun x => (f x).value p.shows v) := by
  induction xs with
  | nil => rfl
  | cons x xs ih =>
    rw [List.flatMap_cons, List.map_append, Logic.mergeAll_append, ih, List.map_cons]
    unfold written
    split_ifs with h
    · have hnone := (tree_eq_empty_iff v (f x)).1 h
      simp [Logic.mergeAll, hnone]
    · simp [Logic.mergeAll]

namespace Session

section

variable {settings : Settings} {filter : Tree String}
  (hdepth : filter.depth ≤ settings.maxNestingDepth.toNat) (log : ConflictLog)

theorem filterMap_comparison (cs : List JoinCondition) (cast : JoinCondition → Option String) :
    (cs.map fun c => OnPart.comparison c (cast c)).filterMap OnPart.filter? = [] := by
  induction cs with
  | nil => rfl
  | cons c cs ih => exact ih

include hdepth in
/-- A joined table is filtered by the part of the filter on it and by nothing else. -/
theorem exists_joined (b : Bound) (spec : JoinSpec) :
    ∃ j, joined settings log filter b spec = .ok j ∧ (j.item.aliasName, j.filters) =
      (b.aliasName, (printer settings log).written (filter.onPart (some b.aliasName))) := by
  have hle : (filter.onPart (some b.aliasName)).depth ≤ (printer settings log).maxDepth :=
    Nat.le_trans (Tree.depth_kept_le _ filter) hdepth
  unfold joined Printer.written
  simp only [Printer.write_of_depth_le _ hle, bind, Except.bind]
  split_ifs with hempty hpush
  · refine ⟨_, rfl, Prod.ext rfl ?_⟩
    simp only [Joined.filters, filterMap_comparison]
    rfl
  · refine ⟨_, rfl, Prod.ext rfl ?_⟩
    simp only [Joined.filters, filterMap_comparison]
    rfl
  · refine ⟨_, rfl, Prod.ext rfl ?_⟩
    simp only [Joined.filters, List.filterMap_append, filterMap_comparison]
    rfl

include hdepth in
/-- The parts of the filter on joined tables and what is left of it are the filters of the
statement. -/
theorem exists_statement {q : Query} (hq : q.filter = filter) (first : Bound)
    (others : List (Bound × JoinSpec)) {joined : List String}
    (hjoined : others.map (fun o => o.1.aliasName) = joined) :
    ∃ st, statement settings log q first others = .ok st ∧
      st.filter = Query.wherePart joined filter ∧
      st.joins.map (fun j => (j.item.aliasName, j.filters)) =
        joined.map fun a => (a, (printer settings log).written (filter.onPart (some a))) := by
  subst hq hjoined
  have hle : (Query.wherePart (others.map fun o => o.1.aliasName) q.filter).depth ≤
      (printer settings log).maxDepth := Nat.le_trans (Tree.depth_kept_le _ q.filter) hdepth
  obtain ⟨joins, hjoins, hfilters⟩ := @exists_mapM_eq_ok _ _ _ _ _ _ _ others fun o _ =>
    exists_joined hdepth log o.1 o.2
  refine ⟨⟨Query.outputColumns (first :: others.map Prod.fst) q.columns, first.item, joins,
    Query.wherePart (others.map fun o => o.1.aliasName) q.filter, settings.maxRows⟩, ?_, rfl, ?_⟩
  · unfold statement
    simp only [hjoins, Printer.write_of_depth_le _ hle]
    rfl
  · show joins.map _ = _
    rw [hfilters, List.map_map]
    rfl

end

/-- A session makes a plan of the statement, except that MySQL has no full join. -/
theorem build_eq {s : Session} {q : Query} (htables : q.tables ≠ [])
    (hdepth : q.filter.depth ≤ s.settings.maxNestingDepth.toNat) : ∃ first others,
      others.map (fun o => o.1.aliasName) = (Query.aliases q.tables).tail ∧
        (s.build q).1 = plan s.settings (s.build q).2.log q (Attachment.ofTables q.tables) first
          others := by
  obtain ⟨first, others, hbound, hnames⟩ := Query.exists_bind_cons htables
  refine ⟨first, Query.withSpecs others q.joins, ?_, ?_⟩
  · rw [← hnames, List.tail_cons, ← Query.map_fst_withSpecs others q.joins, List.map_map,
      Query.map_fst_withSpecs]
    rfl
  · unfold build
    simp only [checkDepth_of_le hdepth, hbound]

/-- The plan of a statement has its text. -/
theorem sql_plan {settings : Settings} {log : ConflictLog} {q : Query} {attached : List Attachment}
    {first : Bound} {others : List (Bound × JoinSpec)} {st : Statement}
    (h : statement settings log q first others = .ok st) :
    (plan settings log q attached first others).map Plan.sql =
      if settings.dialect = .mysql ∧ st.joins.any (·.kind = .full) then .error .noFullJoin
      else .ok ((printer settings log).statement st) := by
  unfold plan
  simp only [h, bind, Except.bind]
  split_ifs <;> rfl

/-- **The filter** of a query is in its statement in parts. Its leaves are in the parts on their own
routes, and the filters of the statement have its value as their conjunction unless one of its
disjunctions is split. -/
theorem build_routes (s : Session) (q : Query) (htables : q.tables ≠ [])
    (hdepth : q.filter.depth ≤ s.settings.maxNestingDepth.toNat) :
    let p := printer s.settings (s.build q).2.log
    let joined := (Query.aliases q.tables).tail
    ∃ st : Statement,
      (s.build q).1.map Plan.sql =
          (if s.settings.dialect = .mysql ∧ st.joins.any (·.kind = .full) then .error .noFullJoin
          else .ok (p.statement st)) ∧
        st.filter = Query.routed joined q.filter none ∧
        st.joins.map (fun j => (j.item.aliasName, j.filters)) =
          joined.map (fun a => (a, p.written (Query.routed joined q.filter (some a)))) ∧
        joined.Nodup ∧
        (∀ r ∈ Query.routes joined, (Query.routed joined q.filter r).leafNodes =
          q.filter.leafNodes.filter fun leaf => Query.route joined leaf = r) ∧
        ∀ v : Node String → Truth, q.filter.toNode.Unsplit p.shows (Query.route joined) →
          Logic.and.mergeAll (st.filters.map fun t => t.value p.shows v) =
            q.filter.value p.shows v := by
  intro p joined
  obtain ⟨first, others, hnames, hplan⟩ := build_eq htables hdepth
  obtain ⟨st, hst, hwhere, hjoins⟩ := exists_statement hdepth (s.build q).2.log rfl first others
    hnames
  have hnodup : joined.Nodup := (Query.nodup_aliases q.tables).tail
  refine ⟨st, ?_, hwhere, hjoins, hnodup, fun r hr => Query.leafNodes_routed q.filter hr,
    fun v hv => ?_⟩
  · rw [hplan]
    exact sql_plan hst
  · have hfilters : st.joins.flatMap Joined.filters =
        joined.flatMap fun a => p.written (Query.routed joined q.filter (some a)) := by
      have := congrArg (List.flatMap Prod.snd) hjoins
      rwa [List.flatMap_map, List.flatMap_map] at this
    rw [← Query.mergeAll_routed hnodup hv, Statement.filters, hfilters, hwhere, Query.routes,
      List.map_cons, List.map_cons, List.map_map]
    exact congrArg (Logic.and.merge _) (p.mergeAll_flatMap_written v .and _ joined)

theorem build_routes_same_name : ∃ (q : Query) (st : Statement),
    (build {} q).1.map Plan.sql = .ok ((printer {} (build {} q).2.log).statement st) ∧
      st.joins.map (fun j => j.item.aliasName) = ["t_2"] ∧
      st.filter.leafNodes.map Node.isRaw = [true] ∧
      ∀ v, Logic.and.mergeAll
          (st.filters.map fun t => t.value (printer {} (build {} q).2.log).shows v) =
        q.filter.value (printer {} (build {} q).2.log).shows v := by
  obtain ⟨st, hsql, hwhere, hjoins, -, hleaves, hvalue⟩ := build_routes {}
    { tables := [⟨"t", none, .ownEngine, []⟩, ⟨"t", none, .ownEngine, []⟩]
      joins := []
      filter := ⟨"r", .and, [.condition "a" ⟨"t_2", "c", .isNull, none, none, .on⟩,
        .raw "b" "x > 1"]⟩
      columns := [] } (by decide) (by decide)
  refine ⟨_, st, hsql.trans (if_neg fun h => nomatch h.1), ?_, ?_, fun v => hvalue v ?_⟩
  · have := congrArg (List.map Prod.fst) hjoins
    rw [List.map_map, List.map_map] at this
    exact this.trans (by decide +kernel)
  · rw [hwhere, hleaves none List.mem_cons_self]
    decide +kernel
  · exact ⟨nofun, trivial, trivial, trivial⟩

end Session

end SqlFilter
