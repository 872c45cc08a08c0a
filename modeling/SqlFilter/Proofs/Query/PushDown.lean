import SqlFilter.Proofs.Query.Planned
import SqlFilter.Proofs.Query.Rows

/-!
# Filters before joins

A filter on a joined table alone may be made before the join instead of in its `ON` clause just if
the rows of the table that match nothing are not in the result (`JoinKind.allowsPushDown_iff`). So
the plans with and without filters before joins differ in their statements only, and the statements
give the same rows on every engine (`Session.build_pushing`).
-/

namespace SqlFilter

variable {ρ ν : Type}

/-! ## One join -/

theorem JoinKind.allowsPushDown_eq (k : JoinKind) : k.allowsPushDown = !k.keepsRight := by
  cases k <;> rfl

namespace Relation

variable {on on' : JointRow ρ → Bool} {a : String} {rs : List ρ} {f : ρ → Bool}

theorem matched_filter {row : JointRow ρ}
    (h : ∀ r, on' (row.extend a (some r)) = (on (row.extend a (some r)) && f r)) :
    matched on a (rs.filter f) row = matched on' a rs row := by
  rw [matched, matched, List.filter_map, List.filter_map, List.filter_filter]
  refine congrArg _ (List.filter_congr fun r _ => ?_)
  exact (h r).symm

/-- Where the rows that match nothing are left out, testing them before the join and testing them
in it are the same. -/
theorem join_filter {k : JoinKind} (hk : k.allowsPushDown = true) {rel : Relation ρ}
    (h : ∀ row ∈ rel.rows, ∀ r,
      on' (row.extend a (some r)) = (on (row.extend a (some r)) && f r)) :
    rel.join on a (rs.filter f) k = rel.join on' a rs k := by
  have hright : k.keepsRight = false := by
    rwa [JoinKind.allowsPushDown_eq, Bool.not_eq_true'] at hk
  refine Relation.ext rfl ?_
  simp only [join, joinedRows, hright, if_neg Bool.false_ne_true]
  refine congrArg (· ++ []) (List.flatMap_congr fun row hrow => ?_)
  rw [continued, continued, matched_filter (h row hrow)]

end Relation

/-- A kind of join allows filters before it just if they never change its result. -/
theorem JoinKind.allowsPushDown_iff (k : JoinKind) : k.allowsPushDown = true ↔
    ∀ (ρ : Type) (rel : Relation ρ) (on : JointRow ρ → Bool) (a : String) (rs : List ρ)
      (test : Option ρ → Bool), a ∉ rel.aliases →
      rel.join on a (rs.filter fun r => test (some r)) k =
        rel.join (fun row => on row && test (row.row? a)) a rs k := by
  constructor
  · intro hk ρ rel on a rs test ha
    refine Relation.join_filter hk fun row hrow r => ?_
    rw [JointRow.row?_extend (rel.aligned row hrow ▸ ha)]
  · intro h
    -- a row that fails the test, and nothing to join it to
    have := congrArg Relation.rows
      (h Unit ⟨[], [], fun _ hx => absurd hx List.not_mem_nil⟩ (fun _ => true) "" [()]
        (fun _ => false) List.not_mem_nil)
    cases k
    · rfl
    · rfl
    · cases this
    · cases this

/-! ## Joined tables -/

/-- The leaves of the part of a filter on a table are conditions on that table. -/
theorem Tree.exists_of_mem_onPart {t : Tree String} {a : String} {l : Node String}
    (hl : l ∈ (t.onPart (some a)).leafNodes) : ∃ i c, l = .condition i c ∧ c.table = a := by
  rw [Tree.onPart, Tree.leafNodes_kept, List.mem_filter] at hl
  obtain ⟨-, hpass⟩ := hl
  cases l with
  | condition i c =>
    refine ⟨i, c, rfl, ?_⟩
    simp only [LeafTest.passes, Option.all_some, Bool.and_eq_true, beq_iff_eq] at hpass
    exact hpass.2
  | group i k cs => cases hpass
  | raw i s => cases hpass

namespace Engine

variable (m : Engine ρ ν) (p : Printer String)

/-- What a filter on a table says depends on the row of the table only. -/
theorem filter_onPart (filter : Tree String) {row row' : JointRow ρ} {a : String}
    (h : row.row? a = row'.row? a) :
    m.filter p row (filter.onPart (some a)) = m.filter p row' (filter.onPart (some a)) := by
  refine Tree.value_congr fun l hl => ?_
  obtain ⟨i, c, rfl, rfl⟩ := Tree.exists_of_mem_onPart hl
  rw [leaf, leaf, h]

theorem clause_append {parts : List OnPart} (hparts : parts.all OnPart.standsAlone = true)
    (row : JointRow ρ) (t : Tree String) :
    m.clause p row (parts ++ [.filter t]) =
      Logic.and.merge (m.clause p row parts) (m.filter p row t) := by
  have hall : (parts ++ [OnPart.filter t]).all OnPart.standsAlone = true := by
    rw [List.all_append, hparts]
    rfl
  rw [clause, clause, if_pos hparts, if_pos hall, List.map_append, Logic.mergeAll_append]
  exact congrArg _ (Logic.and.merge_none _)

/-- A filter on a joined table may be made before the join. -/
theorem joined_pushed {kind : JoinKind} (hkind : kind.allowsPushDown = true) {rel : Relation ρ}
    {item : TableItem} (hnew : item.aliasName ∉ rel.aliases) (filter : Tree String)
    {parts : List OnPart} (hparts : parts.all OnPart.standsAlone = true) :
    m.joined p rel ⟨kind, item, some (filter.onPart (some item.aliasName)), parts⟩ =
      m.joined p rel
        ⟨kind, item, none, parts ++ [.filter (filter.onPart (some item.aliasName))]⟩ := by
  refine Relation.join_filter hkind fun row hrow r => ?_
  dsimp only
  rw [clause_append m p hparts, Truth.accepts_merge]
  refine congrArg (fun v => _ && Truth.accepts v) (filter_onPart m p filter ?_)
  rw [JointRow.row?_extend (rel.aligned row hrow ▸ hnew)]
  exact (@JointRow.row?_extend ρ [] item.aliasName List.not_mem_nil _).symm

end Engine

/-! ## Statements -/

/-- The tables of a query have aliases of their own. -/
theorem Query.nodup_of_bind {tables : List Table} {bound : List Bound}
    (h : bind (Attachment.ofTables tables) tables = .ok bound) :
    (bound.map Bound.aliasName).Nodup := by
  obtain ⟨bound', hbound', hnames⟩ := exists_bind tables
  obtain rfl : bound = bound' := Except.ok.inj (h.symm.trans hbound')
  exact hnames ▸ nodup_aliases tables

/-- A joined table has one of the specifications, or is joined without comparisons. -/
theorem Query.spec_of_mem_withSpecs {bound : List Bound} {specs : List JoinSpec}
    {o : Bound × JoinSpec} (h : o ∈ withSpecs bound specs) : o.2 ∈ specs ∨ o.2 = {} := by
  induction bound generalizing specs with
  | nil => cases h
  | cons b bs ih =>
    cases specs with
    | nil =>
      obtain rfl | h := List.mem_cons.1 h
      · exact .inr rfl
      · exact ih h
    | cons spec specs =>
      obtain rfl | h := List.mem_cons.1 h
      · exact .inl List.mem_cons_self
      · exact (ih h).imp_left (List.mem_cons_of_mem _)

/-- The settings with or without filters before joins. -/
def Settings.pushing (s : Settings) (push : Bool) : Settings :=
  { s with pushDownJoinFilters := push }

namespace Session

/-- The session with or without filters before joins. -/
def pushing (s : Session) (push : Bool) : Session := { s with settings := s.settings.pushing push }

section Statements

variable (m : Engine ρ ν) (settings : Settings) (log : ConflictLog) (filter : Tree String)

/-- Joining a table gives the same with and without filters before joins. -/
theorem joined_joinedOf {b : Bound} {spec : JoinSpec} {rel : Relation ρ}
    (hnew : b.aliasName ∉ rel.aliases) (hcols : ∀ c ∈ spec.complete, c.columns?.isSome = true) :
    m.joined (printer settings log) rel (joinedOf settings log filter b spec) =
      m.joined (printer settings log) rel
        (joinedOf (settings.pushing false) log filter b spec) := by
  have hparts : (comparisonsOf log spec).all OnPart.standsAlone = true := by
    rw [List.all_eq_true]
    exact List.forall_mem_map.2 hcols
  have hplain : pushes (settings.pushing false) log spec = false := rfl
  have hprinter : printer (settings.pushing false) log = printer settings log := rfl
  unfold joinedOf
  simp only [hplain, hprinter, if_neg Bool.false_ne_true]
  split_ifs with hempty hpush
  · rfl
  · have hkind : spec.kind.allowsPushDown = true := by
      rw [pushes, Bool.and_eq_true, Bool.and_eq_true] at hpush
      exact hpush.1.2
    exact @Engine.joined_pushed _ _ m _ _ hkind _ b.item hnew filter _ hparts
  · rfl

/-- So do all joins of a statement, one after the other. -/
theorem foldl_joinedOf {others : List (Bound × JoinSpec)}
    (hcols : ∀ o ∈ others, ∀ c ∈ o.2.complete, c.columns?.isSome = true) {rel : Relation ρ}
    (hnodup : (rel.aliases ++ others.map fun o => o.1.aliasName).Nodup) :
    (others.map fun o => joinedOf settings log filter o.1 o.2).foldl
        (m.joined (printer settings log)) rel =
      (others.map fun o => joinedOf (settings.pushing false) log filter o.1 o.2).foldl
        (m.joined (printer settings log)) rel := by
  induction others generalizing rel with
  | nil => rfl
  | cons o others ih =>
    obtain ⟨ho, hothers⟩ := List.forall_mem_cons.1 hcols
    rw [List.map_cons, List.append_cons] at hnodup
    have hnew : o.1.aliasName ∉ rel.aliases := by
      have := (List.nodup_append.1 hnodup).1
      exact fun h => (List.disjoint_of_nodup_append this) h (List.mem_singleton_self _)
    rw [List.map_cons, List.map_cons, List.foldl_cons, List.foldl_cons,
      joined_joinedOf m settings log filter hnew ho]
    refine ih hothers ?_
    rwa [Engine.joined, Relation.join, item_joinedOf]

variable {settings log filter}

/-- The statement of a query gives the same rows with and without filters before joins. -/
theorem result_statementOf {q : Query} {first : Bound} {others : List (Bound × JoinSpec)}
    (hcols : ∀ o ∈ others, ∀ c ∈ o.2.complete, c.columns?.isSome = true)
    (hnodup : (first.aliasName :: others.map fun o => o.1.aliasName).Nodup) :
    m.result (printer settings log) (statementOf settings log q first others) =
      m.result (printer settings log)
        (statementOf (settings.pushing false) log q first others) := by
  have hrelation : m.relation (printer settings log) (statementOf settings log q first others) =
      m.relation (printer settings log) (statementOf (settings.pushing false) log q first others) :=
    foldl_joinedOf m settings log q.filter hcols hnodup
  have houtput : m.output (statementOf settings log q first others) =
      m.output (statementOf (settings.pushing false) log q first others) := by
    funext row
    simp only [Engine.output, statementOf, List.map_map, Function.comp_def, item_joinedOf]
  rw [Engine.result, Engine.result, hrelation, houtput]
  rfl

end Statements

/-! ## Plans -/

section Plans

variable {settings : Settings} {log : ConflictLog} {q : Query} {first : Bound}

/-- Which `ON` clauses are still missing does not depend on where filters go. -/
theorem incomplete_planOf (others : List (Bound × JoinSpec)) :
    (planOf settings log q first others).incomplete =
      (others.filter fun o => (comparisonsOf log o.2).isEmpty &&
        (printer settings log).tree (q.filter.onPart (some o.1.aliasName)) = "").map
          fun o => o.1.aliasName := by
  simp only [planOf, statementOf, List.filter_map, List.map_map, Function.comp_def,
    isIncomplete_joinedOf, item_joinedOf]
  rfl

/-- The plans with and without filters before joins differ in their statements only. -/
theorem planOf_pushing (settings : Settings) (push push' : Bool)
    (others : List (Bound × JoinSpec)) :
    planOf (settings.pushing push') log q first others =
      { planOf (settings.pushing push) log q first others with
        sql := (planOf (settings.pushing push') log q first others).sql } := by
  have hincomplete : (planOf (settings.pushing push') log q first others).incomplete =
      (planOf (settings.pushing push) log q first others).incomplete := by
    rw [incomplete_planOf, incomplete_planOf]
    rfl
  rw [Plan.mk.injEq]
  exact ⟨rfl, rfl, rfl, rfl, rfl, hincomplete⟩

end Plans

/-- What the statement of a query is written with. -/
def printerFor (s : Session) (q : Query) : Printer String := printer s.settings (s.build q).2.log

/-- The plan of the query has the text of the statement that is made of its tables. -/
structure Plans (s : Session) (q : Query) (plan : Plan) (st : Statement) : Prop where
  /-- The plan is made. -/
  built : (s.build q).1 = .ok plan
  /-- The statement is made of all tables of the query, their joins and the filter. -/
  made : ∃ first others,
    Query.bind (Attachment.ofTables q.tables) q.tables = .ok (first :: others) ∧
      statement s.settings (s.build q).2.log q first (Query.withSpecs others q.joins) = .ok st
  /-- The plan has its text. -/
  text : plan.sql = (s.printerFor q).statement st

theorem build_of_no_tables {s : Session} {q : Query} (htables : q.tables = [])
    (hdepth : q.filter.depth ≤ s.settings.maxNestingDepth.toNat) :
    (s.build q).1 = .ok Plan.empty :=
  congrArg Prod.fst (build_of_tables_eq_nil htables hdepth)

section Made

variable {s : Session} {q : Query} {first : Bound} {others : List Bound}
  (hdepth : q.filter.depth ≤ s.settings.maxNestingDepth.toNat)
  (hbind : Query.bind (Attachment.ofTables q.tables) q.tables = .ok (first :: others))

include hdepth hbind in
theorem log_build_of_bind : (s.build q).2.log = s.detected q first others := by
  rw [build_of_bind hdepth hbind]

include hdepth hbind in
theorem plans_of_bind (hfull : ¬ (s.settings.dialect = .mysql ∧
    (Query.withSpecs others q.joins).any (·.2.kind = .full))) :
    s.Plans q
      (planOf s.settings (s.detected q first others) q first (Query.withSpecs others q.joins))
      (statementOf s.settings (s.detected q first others) q first
        (Query.withSpecs others q.joins)) where
  built := by rw [build_of_bind hdepth hbind, if_neg hfull]
  made := by
    refine ⟨first, others, hbind, ?_⟩
    rw [log_build_of_bind hdepth hbind]
    exact statement_of_depth_le hdepth first _
  text := by
    rw [printerFor, log_build_of_bind hdepth hbind]
    rfl

end Made

/-- **Filters before joins.** Whether or not they are wanted, a query has a plan with the same
fields except for the statement, and the statement gives the same rows on every engine. -/
theorem build_pushing {s : Session} {q : Query} {push : Bool} {plan : Plan}
    (hcols : ∀ spec ∈ q.joins, ∀ c ∈ spec.complete, c.columns?.isSome = true)
    (h : ((s.pushing push).build q).1 = .ok plan) (push' : Bool) :
    ∃ plan', ((s.pushing push').build q).1 = .ok plan' ∧ plan' = { plan with sql := plan'.sql } ∧
      (q.tables = [] ∧ plan = Plan.empty ∧ plan' = Plan.empty ∨
        ∃ st st', (s.pushing push).Plans q plan st ∧ (s.pushing push').Plans q plan' st' ∧
          ∀ (ρ ν : Type) (m : Engine ρ ν),
            m.result ((s.pushing push).printerFor q) st =
              m.result ((s.pushing push').printerFor q) st') := by
  obtain ⟨hdepth, ⟨htables, rfl⟩ | ⟨first, others, hbind, hfull, rfl⟩⟩ := eq_of_build h
  · exact ⟨Plan.empty, build_of_no_tables htables hdepth, rfl, .inl ⟨htables, rfl, rfl⟩⟩
  · have hplans : ∀ b : Bool, (s.pushing b).Plans q
        (planOf (s.settings.pushing b) (s.detected q first others) q first
          (Query.withSpecs others q.joins))
        (statementOf (s.settings.pushing b) (s.detected q first others) q first
          (Query.withSpecs others q.joins)) := fun b =>
      plans_of_bind (s := s.pushing b) hdepth hbind hfull
    have hlog : ∀ b : Bool, (s.pushing b).printerFor q =
        printer s.settings (s.detected q first others) := fun b =>
      congrArg (printer s.settings) (log_build_of_bind (s := s.pushing b) hdepth hbind)
    refine ⟨_, (hplans push').built, planOf_pushing _ _ _ _,
      .inr ⟨_, _, hplans push, hplans push', fun ρ ν m => ?_⟩⟩
    have hspecs : ∀ o ∈ Query.withSpecs others q.joins, ∀ c ∈ o.2.complete,
        c.columns?.isSome = true := by
      intro o ho c hc
      obtain hmem | hnone := Query.spec_of_mem_withSpecs ho
      · exact hcols _ hmem c hc
      · rw [hnone] at hc
        cases hc
    have hnodup : (first.aliasName ::
        (Query.withSpecs others q.joins).map fun o => o.1.aliasName).Nodup := by
      have hnames := congrArg (List.map Bound.aliasName) (Query.map_fst_withSpecs others q.joins)
      rw [List.map_map] at hnames
      exact hnames ▸ Query.nodup_of_bind hbind
    rw [hlog, hlog]
    have hplain := fun b : Bool => @result_statementOf _ _ m (s.settings.pushing b)
      (s.detected q first others) q first _ hspecs hnodup
    exact (hplain push).trans (hplain push').symm

theorem build_pushing_left_right : ∃ (q : Query) (plan plan' : Plan) (st st' : Statement),
    plan.sql = "SELECT * FROM \"o\" AS \"o\" LEFT JOIN (SELECT * FROM \"c\" AS \"c\" " ++
        "WHERE (\"c\".\"n\" IS NULL)) AS \"c\" ON \"o\".\"id\" = \"c\".\"id\" " ++
        "RIGHT JOIN \"d\" AS \"d\" " ++
        "ON \"d\".\"id\" = \"o\".\"id\" AND (\"d\".\"n\" IS NULL) LIMIT 1000" ∧
      plan'.sql = "SELECT * FROM \"o\" AS \"o\" LEFT JOIN \"c\" AS \"c\" " ++
        "ON \"o\".\"id\" = \"c\".\"id\" AND (\"c\".\"n\" IS NULL) " ++
        "RIGHT JOIN \"d\" AS \"d\" " ++
        "ON \"d\".\"id\" = \"o\".\"id\" AND (\"d\".\"n\" IS NULL) LIMIT 1000" ∧
      (({} : Session).pushing true).Plans q plan st ∧
      (({} : Session).pushing false).Plans q plan' st' ∧
      ∀ (ρ ν : Type) (m : Engine ρ ν),
        m.result ((({} : Session).pushing true).printerFor q) st =
          m.result ((({} : Session).pushing false).printerFor q) st' := by
  let q : Query :=
    { tables := [⟨"o", none, .ownEngine, []⟩, ⟨"c", none, .ownEngine, []⟩,
        ⟨"d", none, .ownEngine, []⟩]
      joins := [⟨.left, [⟨.column ⟨"o", "id"⟩, .eq, .column ⟨"c", "id"⟩⟩]⟩,
        ⟨.right, [⟨.column ⟨"d", "id"⟩, .eq, .column ⟨"o", "id"⟩⟩]⟩]
      filter := ⟨"r", .and, [.condition "a" ⟨"c", "n", .isNull, none, none, .on⟩,
        .condition "b" ⟨"d", "n", .isNull, none, none, .on⟩]⟩
      columns := [] }
  have hcols : ∀ spec ∈ q.joins, ∀ c ∈ spec.complete, c.columns?.isSome = true := by
    decide +kernel
  have hsql : ∀ push : Bool, ((({} : Session).pushing push).build q).1.map Plan.sql =
      .ok ("SELECT * FROM \"o\" AS \"o\" LEFT JOIN " ++ (if push then
          "(SELECT * FROM \"c\" AS \"c\" WHERE (\"c\".\"n\" IS NULL)) AS \"c\" " ++
            "ON \"o\".\"id\" = \"c\".\"id\" "
          else "\"c\" AS \"c\" ON \"o\".\"id\" = \"c\".\"id\" AND (\"c\".\"n\" IS NULL) ") ++
        "RIGHT JOIN \"d\" AS \"d\" " ++
          "ON \"d\".\"id\" = \"o\".\"id\" AND (\"d\".\"n\" IS NULL) LIMIT 1000") := by
    decide +kernel
  cases hplan : ((({} : Session).pushing true).build q).1 with
  | error e =>
    have htrue := hsql true
    rw [hplan] at htrue
    cases htrue
  | ok plan =>
    obtain ⟨plan', hplan', -, ⟨htables, -⟩ | ⟨st, st', hst, hst', hrows⟩⟩ :=
      build_pushing hcols hplan false
    · cases htables
    · have htrue := hsql true
      have hfalse := hsql false
      rw [hplan] at htrue
      rw [hplan'] at hfalse
      exact ⟨q, plan, plan', st, st', (Except.ok.inj htrue).trans (by decide +kernel),
        (Except.ok.inj hfalse).trans (by decide +kernel), hst, hst', hrows⟩

end Session

end SqlFilter
