import SqlFilter.Proofs.Query.Routing

/-!
# The statement of a query

Where a filter is not nested too deeply no part of it is, so that nothing between the conflicts of a
query and its plan can fail but a full join in MySQL. What is planned is then a function of the
settings, the conflicts and the tables with their joins (`Session.build_of_bind`), and every plan
comes about in this way (`Session.eq_of_build`).
-/

namespace SqlFilter

namespace Session

section Parts

variable (settings : Settings) (log : ConflictLog) (filter : Tree String)

/-- The comparisons of an `ON` clause with their casts. -/
def comparisonsOf (spec : JoinSpec) : List OnPart :=
  spec.complete.map fun c => .comparison c (joinCast log c)

/-- Whether the filters on a joined table go before the join. -/
def pushes (spec : JoinSpec) : Bool :=
  settings.pushDownJoinFilters && spec.kind.allowsPushDown && !(comparisonsOf log spec).isEmpty

/-- A joined table of the statement of a query with the filter. -/
def joinedOf (b : Bound) (spec : JoinSpec) : Joined :=
  let onTree := filter.onPart (some b.aliasName)
  if (printer settings log).tree onTree = "" then
    ⟨spec.kind, b.item, none, comparisonsOf log spec⟩
  else if pushes settings log spec then
    ⟨spec.kind, b.item, some onTree, comparisonsOf log spec⟩
  else ⟨spec.kind, b.item, none, comparisonsOf log spec ++ [.filter onTree]⟩

/-- The statement of a query whose first table is `first`. -/
def statementOf (q : Query) (first : Bound) (others : List (Bound × JoinSpec)) : Statement where
  columns := Query.outputColumns (first :: others.map Prod.fst) q.columns
  first := first.item
  joins := others.map fun o => joinedOf settings log q.filter o.1 o.2
  filter := Query.wherePart (others.map fun o => o.1.aliasName) q.filter
  limit := settings.maxRows

/-- The plan of a statement. -/
def planOf (q : Query) (first : Bound) (others : List (Bound × JoinSpec)) : Plan :=
  let st := statementOf settings log q first others
  { sql := (printer settings log).statement st
    attached := Attachment.ofTables q.tables
    unresolved := log.unresolved
    source := .ofAttached (Attachment.ofTables q.tables)
    shape := if others.isEmpty then .singleTable else .joined
    incomplete := (st.joins.filter Joined.isIncomplete).map fun j => j.item.aliasName }

@[simp] theorem kind_joinedOf (b : Bound) (spec : JoinSpec) :
    (joinedOf settings log filter b spec).kind = spec.kind := by
  unfold joinedOf
  dsimp only
  split_ifs <;> rfl

@[simp] theorem item_joinedOf (b : Bound) (spec : JoinSpec) :
    (joinedOf settings log filter b spec).item = b.item := by
  unfold joinedOf
  dsimp only
  split_ifs <;> rfl

variable {settings log} in
/-- Filters are pushed only past a clause that has comparisons. -/
theorem comparisonsOf_ne_nil {spec : JoinSpec} (h : pushes settings log spec = true) :
    comparisonsOf log spec ≠ [] := by
  rintro hnil
  rw [pushes, hnil, List.isEmpty_nil, Bool.not_true, Bool.and_false] at h
  cases h

theorem isIncomplete_joinedOf (b : Bound) (spec : JoinSpec) :
    (joinedOf settings log filter b spec).isIncomplete =
      ((comparisonsOf log spec).isEmpty &&
        (printer settings log).tree (filter.onPart (some b.aliasName)) = "") := by
  unfold joinedOf Joined.isIncomplete
  dsimp only
  split_ifs with hempty hpush
  · simp [hempty]
  · simp [hempty, comparisonsOf_ne_nil hpush]
  · simp [hempty]

/-- A joined table is filtered by the part of the filter on it and by nothing else. -/
theorem filters_joinedOf (b : Bound) (spec : JoinSpec) :
    (joinedOf settings log filter b spec).filters =
      (printer settings log).written (filter.onPart (some b.aliasName)) := by
  have hcomparisons : (comparisonsOf log spec).filterMap OnPart.filter? = [] :=
    filterMap_comparison spec.complete (joinCast log)
  unfold joinedOf Printer.written Joined.filters
  dsimp only
  split_ifs with hempty hpush
  · simp [hcomparisons]
  · simp [hcomparisons]
  · simp [hcomparisons, OnPart.filter?]

variable {settings filter} in
theorem joined_of_depth_le (h : filter.depth ≤ settings.maxNestingDepth.toNat) (b : Bound)
    (spec : JoinSpec) :
    joined settings log filter b spec = .ok (joinedOf settings log filter b spec) := by
  have hle : (filter.onPart (some b.aliasName)).depth ≤ (printer settings log).maxDepth :=
    Nat.le_trans (Tree.depth_kept_le _ filter) h
  unfold joined joinedOf pushes comparisonsOf
  simp only [Printer.write_of_depth_le _ hle, bind, Except.bind]
  split_ifs <;> rfl

end Parts

variable {settings : Settings} {log : ConflictLog} {q : Query}

/-- A leaf of the filter that is written as something is in a filter of the statement. -/
theorem exists_mem_filters {leaf : Node String} (hleaf : leaf ∈ q.filter.leafNodes)
    (hshown : (printer settings log).shows leaf = true) (first : Bound)
    (others : List (Bound × JoinSpec)) :
    ∃ t ∈ (statementOf settings log q first others).filters, leaf ∈ t.leafNodes := by
  let aliases := others.map fun o => o.1.aliasName
  have hroute : Query.route aliases leaf ∈ Query.routes aliases := Query.route_mem_routes leaf
  have hmem : leaf ∈ (Query.routed aliases q.filter (Query.route aliases leaf)).leafNodes := by
    rw [Query.leafNodes_routed q.filter hroute]
    exact List.mem_filter.2 ⟨hleaf, decide_eq_true rfl⟩
  cases hr : Query.route aliases leaf with
  | none =>
    rw [hr] at hmem
    exact ⟨_, List.mem_cons_self, hmem⟩
  | some a =>
    rw [hr] at hroute hmem
    obtain ⟨o, ho, rfl⟩ : ∃ o ∈ others, o.1.aliasName = a := by
      simpa [Query.routes, aliases] using hroute
    refine ⟨_, List.mem_cons_of_mem _ (List.mem_flatMap.2 ⟨_, List.mem_map_of_mem ho, ?_⟩), hmem⟩
    have hne : (printer settings log).tree (q.filter.onPart (some o.1.aliasName)) ≠ "" :=
      Printer.tree_ne_empty_of_mem hshown hmem
    rw [filters_joinedOf, Printer.written, if_neg hne]
    exact List.mem_singleton_self _

theorem statement_of_depth_le (h : q.filter.depth ≤ settings.maxNestingDepth.toNat) (first : Bound)
    (others : List (Bound × JoinSpec)) :
    statement settings log q first others = .ok (statementOf settings log q first others) := by
  have hle : (Query.wherePart (others.map fun o => o.1.aliasName) q.filter).depth ≤
      (printer settings log).maxDepth := Nat.le_trans (Tree.depth_kept_le _ q.filter) h
  have hjoins : others.mapM (fun o => joined settings log q.filter o.1 o.2) =
      .ok (others.map fun o => joinedOf settings log q.filter o.1 o.2) := by
    simp only [joined_of_depth_le log h]
    exact List.mapM_pure
  unfold statement
  simp only [hjoins, Printer.write_of_depth_le _ hle]
  rfl

theorem plan_of_depth_le (h : q.filter.depth ≤ settings.maxNestingDepth.toNat) (first : Bound)
    (others : List (Bound × JoinSpec)) :
    plan settings log q (Attachment.ofTables q.tables) first others =
      if settings.dialect = .mysql ∧ others.any (·.2.kind = .full) then .error .noFullJoin
      else .ok (planOf settings log q first others) := by
  have hfull : (statementOf settings log q first others).joins.any (·.kind = .full) =
      others.any (·.2.kind = .full) := by
    simp [statementOf, Function.comp_def]
  unfold plan
  simp only [statement_of_depth_le h, bind, Except.bind, hfull]
  by_cases hmysql : settings.dialect = .mysql ∧ others.any (·.2.kind = .full)
  · rw [if_pos hmysql, if_pos hmysql]
    rfl
  · rw [if_neg hmysql, if_neg hmysql]
    rfl

/-! ## Plans of queries -/

/-- The conflicts of a query, given what is decided in the session. -/
def detected (s : Session) (q : Query) (first : Bound) (others : List Bound) : ConflictLog :=
  let specs := (Query.withSpecs others q.joins).map Prod.snd
  s.log.detect (Query.columnPairs (first :: others) specs) q.filter

theorem build_of_lt {s : Session} (h : s.settings.maxNestingDepth.toNat < q.filter.depth) :
    s.build q =
      (.error (.nestingTooDeep q.filter.depth s.settings.maxNestingDepth.toNat), s) := by
  unfold build checkDepth
  rw [if_pos h]

theorem build_of_tables_eq_nil {s : Session} (htables : q.tables = [])
    (hdepth : q.filter.depth ≤ s.settings.maxNestingDepth.toNat) :
    s.build q = (.ok Plan.empty, { s with log := {} }) := by
  have hbind : Query.bind (Attachment.ofTables q.tables) q.tables = .ok [] := by
    rw [htables]
    rfl
  unfold build
  simp only [checkDepth_of_le hdepth, hbind]
  rfl

theorem build_of_bind {s : Session} {first : Bound} {others : List Bound}
    (hdepth : q.filter.depth ≤ s.settings.maxNestingDepth.toNat)
    (hbind : Query.bind (Attachment.ofTables q.tables) q.tables = .ok (first :: others)) :
    s.build q =
      (if s.settings.dialect = .mysql ∧
          (Query.withSpecs others q.joins).any (·.2.kind = .full) then .error .noFullJoin
        else .ok (planOf s.settings (s.detected q first others) q first
          (Query.withSpecs others q.joins)),
        { s with log := s.detected q first others }) := by
  unfold build
  simp only [checkDepth_of_le hdepth, hbind]
  rw [plan_of_depth_le hdepth]
  rfl

/-- Every plan is the plan of the statement of its query. -/
theorem eq_of_build {s : Session} {p : Plan} (h : (s.build q).1 = .ok p) :
    q.filter.depth ≤ s.settings.maxNestingDepth.toNat ∧
      (q.tables = [] ∧ p = Plan.empty ∨
        ∃ first others,
          Query.bind (Attachment.ofTables q.tables) q.tables = .ok (first :: others) ∧
            ¬ (s.settings.dialect = .mysql ∧
              (Query.withSpecs others q.joins).any (·.2.kind = .full)) ∧
            p = planOf s.settings (s.detected q first others) q first
              (Query.withSpecs others q.joins)) := by
  have hdepth : q.filter.depth ≤ s.settings.maxNestingDepth.toNat := by
    by_contra hlt
    rw [build_of_lt (Nat.not_le.1 hlt)] at h
    cases h
  refine ⟨hdepth, ?_⟩
  by_cases htables : q.tables = []
  · rw [build_of_tables_eq_nil htables hdepth] at h
    exact .inl ⟨htables, (Except.ok.inj h).symm⟩
  · obtain ⟨first, others, hbound, -⟩ := Query.exists_bind_cons htables
    refine .inr ⟨first, others, hbound, ?_⟩
    rw [build_of_bind hdepth hbound] at h
    dsimp only at h
    split_ifs at h with hfull
    exact ⟨hfull, (Except.ok.inj h).symm⟩

end Session

end SqlFilter
