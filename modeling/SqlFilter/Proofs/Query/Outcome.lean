import SqlFilter.Proofs.Conflict.Decisions
import SqlFilter.Proofs.Query.PushDown

/-!
# The outcome of a query

A query is refused for one reason only, a filter that is nested too deeply, and the session is then
what it was before; all else that could fail on the way to a plan does not, except that a dialect
may have no full join (`Session.build_outcome`). What a session knows of a query once it is planned
is what it learns from it again, so that the same query has the same plan, and one that runs if its
joins are complete and all recommended casts are accepted (`Session.build_again`).
-/

namespace SqlFilter

/-! ## Joins of a query -/

namespace Query

/-- The specifications that are used are the first ones, one for each joined table. -/
theorem any_full_withSpecs (bound : List Bound) (specs : List JoinSpec) :
    (withSpecs bound specs).any (·.2.kind = .full) = true ↔
      ∃ spec ∈ specs.take bound.length, spec.kind = .full := by
  induction bound generalizing specs with
  | nil => simp [withSpecs]
  | cons b bs ih =>
    cases specs with
    | nil =>
      have hnone := ih []
      simp only [List.take_nil, List.not_mem_nil, false_and, exists_false, iff_false] at hnone
      simp [withSpecs, hnone]
    | cons spec specs =>
      rw [withSpecs, List.any_cons, Bool.or_eq_true, ih, List.length_cons, List.take_succ_cons]
      simp

end Query

namespace Session

variable {s : Session} {q : Query}

/-! ## Refusals -/

/-- The dialect has no full join, and the query asks for one. -/
def AsksForFullJoin (s : Session) (q : Query) : Prop :=
  q.tables ≠ [] ∧ s.settings.dialect = .mysql ∧
    ∃ spec ∈ q.joins.take (q.tables.length - 1), spec.kind = .full

/-- What comes of a query whose filter is not nested too deeply. -/
theorem build_of_le (hdepth : q.filter.depth ≤ s.settings.maxNestingDepth.toNat) :
    s.AsksForFullJoin q ∧ (s.build q).1 = .error .noFullJoin ∨
      ¬ s.AsksForFullJoin q ∧ ∃ plan, (s.build q).1 = .ok plan := by
  by_cases htables : q.tables = []
  · refine .inr ⟨fun hfull => hfull.1 htables, Plan.empty, ?_⟩
    rw [build_of_tables_eq_nil htables hdepth]
  · obtain ⟨first, others, hbind, hnames⟩ := Query.exists_bind_cons htables
    have hlength : others.length = q.tables.length - 1 := by
      rw [← Query.length_aliases q.tables, ← hnames, List.length_cons, List.length_map,
        Nat.add_sub_cancel]
    have hfull : s.AsksForFullJoin q ↔ s.settings.dialect = .mysql ∧
        (Query.withSpecs others q.joins).any (·.2.kind = .full) = true := by
      rw [Query.any_full_withSpecs, hlength]
      exact and_iff_right htables
    rw [build_of_bind hdepth hbind, hfull]
    by_cases hmysql : s.settings.dialect = .mysql ∧
        (Query.withSpecs others q.joins).any (·.2.kind = .full) = true
    · exact .inl ⟨hmysql, if_pos hmysql⟩
    · exact .inr ⟨hmysql, _, if_neg hmysql⟩

/-- **The outcome** of a query. It is refused just if its filter is nested too deeply, with the two
depths and without a trace in the session. Otherwise it has a plan, or asks a dialect for a full
join that it does not have. All its tables are found, and no part of its filter is nested too
deeply for the statement. -/
theorem build_outcome (s : Session) (q : Query) :
    let limit := s.settings.maxNestingDepth.toNat
    (∀ e, (s.build q).1 = .error e ↔
      limit < q.filter.depth ∧ e = .nestingTooDeep q.filter.depth limit ∨
        q.filter.depth ≤ limit ∧ s.AsksForFullJoin q ∧ e = .noFullJoin) ∧
      (limit < q.filter.depth → (s.build q).2 = s) ∧
      ((∃ plan, (s.build q).1 = .ok plan) ↔ q.filter.depth ≤ limit ∧ ¬ s.AsksForFullJoin q) ∧
      (∃ bound, Query.bind (Attachment.ofTables q.tables) q.tables = .ok bound) ∧
      (q.filter.depth ≤ limit → ∀ log first others, ∃ st,
        statement s.settings log q first others = .ok st) := by
  intro limit
  have hbound : ∃ bound, Query.bind (Attachment.ofTables q.tables) q.tables = .ok bound := by
    obtain ⟨bound, hbound, -⟩ := Query.exists_bind q.tables
    exact ⟨bound, hbound⟩
  have hmade : q.filter.depth ≤ limit → ∀ log first others, ∃ st,
      statement s.settings log q first others = .ok st := fun hdepth log first others =>
    ⟨_, statement_of_depth_le hdepth first others⟩
  by_cases hdepth : q.filter.depth ≤ limit
  · have hlt : ¬ limit < q.filter.depth := Nat.not_lt.2 hdepth
    obtain ⟨hfull, herror⟩ | ⟨hfull, plan, hplan⟩ := build_of_le hdepth
    · refine ⟨fun e => ?_, fun h => absurd h hlt, ?_, hbound, hmade⟩
      · rw [herror]
        simp [hlt, hdepth, hfull, eq_comm]
      · rw [herror]
        simp [hfull]
    · refine ⟨fun e => ?_, fun h => absurd h hlt, ?_, hbound, hmade⟩
      · rw [hplan]
        simp [hlt, hfull]
      · rw [hplan]
        simp [hdepth, hfull]
  · have hbuild := build_of_lt (Nat.not_le.1 hdepth)
    refine ⟨fun e => ?_, fun _ => ?_, ?_, hbound, hmade⟩
    · rw [hbuild]
      simp [Nat.not_le.1 hdepth, hdepth, eq_comm, limit]
    · rw [hbuild]
    · rw [hbuild]
      simp [hdepth]

/-! ## The same query again -/

section Again

variable (settings : Settings) (log log' : ConflictLog)

/-- Which `ON` clauses are still missing does not depend on what is decided on conflicts. -/
theorem incomplete_planOf_congr (first : Bound) (others : List (Bound × JoinSpec)) :
    (planOf settings log q first others).incomplete =
      (planOf settings log' q first others).incomplete := by
  have hempty : ∀ t : Tree String,
      (printer settings log).tree t = "" ↔ (printer settings log').tree t = "" := fun t =>
    (Printer.tree_eq_empty_iff_leaves _ t).trans (Printer.tree_eq_empty_iff_leaves _ t).symm
  have hcomparisons : ∀ spec : JoinSpec,
      (comparisonsOf log spec).isEmpty = (comparisonsOf log' spec).isEmpty := by
    intro spec
    rw [comparisonsOf, comparisonsOf, List.isEmpty_map, List.isEmpty_map]
  rw [incomplete_planOf, incomplete_planOf]
  refine congrArg (List.map _) (List.filter_congr fun o _ => ?_)
  rw [hcomparisons, decide_eq_decide.2 (hempty _)]

end Again

theorem isExecutable_iff (p : Plan) :
    p.isExecutable = true ↔ p.shape ≠ .empty ∧ p.unresolved = [] ∧ p.incomplete = [] := by
  simp [Plan.isExecutable, and_assoc]

theorem shape_planOf_ne_empty (settings : Settings) (log : ConflictLog) (first : Bound)
    (others : List (Bound × JoinSpec)) : (planOf settings log q first others).shape ≠ .empty := by
  show (if others.isEmpty then QueryShape.singleTable else .joined) ≠ .empty
  split_ifs <;> decide

/-- **The same query** has the same plan again, and the session stays what it is. With all
recommended casts accepted in between, nothing waits for a decision, the rest of the plan is as
before, and the statement may run just if there are tables and no join is incomplete. -/
theorem build_again {plan : Plan} (h : (s.build q).1 = .ok plan) :
    let s' := (s.build q).2
    let accepted : Session := { s' with log := s'.log.acceptDefaults }
    s'.build q = (.ok plan, s') ∧
      ∃ plan', accepted.build q = (.ok plan', accepted) ∧ plan'.unresolved = [] ∧
        plan'.attached = plan.attached ∧ plan'.source = plan.source ∧ plan'.shape = plan.shape ∧
        plan'.incomplete = plan.incomplete ∧
        (plan'.isExecutable = true ↔ q.tables ≠ [] ∧ plan'.incomplete = []) := by
  intro s' accepted
  obtain ⟨hdepth, ⟨htables, rfl⟩ | ⟨first, others, hbind, hfull, rfl⟩⟩ := eq_of_build h
  · have hs' : s' = { s with log := {} } := by
      rw [show s' = (s.build q).2 from rfl, build_of_tables_eq_nil htables hdepth]
    have haccepted : accepted = s' := by
      show ({ s' with log := s'.log.acceptDefaults } : Session) = s'
      rw [hs']
      rfl
    have hagain : s'.build q = (.ok Plan.empty, s') := by
      rw [hs']
      exact build_of_tables_eq_nil htables hdepth
    refine ⟨hagain, Plan.empty, haccepted ▸ hagain, rfl, rfl, rfl, rfl, rfl, ?_⟩
    exact iff_of_false (by decide) fun hne => hne.1 htables
  · have hs' : s' = { s with log := s.detected q first others } := by
      rw [show s' = (s.build q).2 from rfl, build_of_bind hdepth hbind]
    have hbuild : ∀ log : ConflictLog,
        ({ s with log } : Session).detected q first others = log →
          ({ s with log } : Session).build q = (.ok (planOf s.settings log q first
            (Query.withSpecs others q.joins)), { s with log }) := by
      intro log hlog
      have hlogged := build_of_bind (s := { s with log }) hdepth hbind
      rwa [hlog, if_neg hfull] at hlogged
    have haccepted : accepted =
        { s with log := (s.detected q first others).acceptDefaults } := by
      show ({ s' with log := s'.log.acceptDefaults } : Session) = _
      rw [hs']
    have hsound : (s.detected q first others).Sound := ConflictLog.sound_detect _ _ _
    refine ⟨?_, planOf s.settings (s.detected q first others).acceptDefaults q first
      (Query.withSpecs others q.joins), ?_, hsound.unresolved_acceptDefaults, rfl, rfl, rfl,
      incomplete_planOf_congr _ _ _ first _, ?_⟩
    · rw [hs']
      exact hbuild _ (ConflictLog.detect_detect _ _ _)
    · rw [haccepted]
      exact hbuild _ (ConflictLog.detect_acceptDefaults _ _ _)
    · have htables : q.tables ≠ [] := by
        intro hnil
        rw [hnil] at hbind
        cases hbind
      rw [isExecutable_iff, and_iff_right htables]
      refine ⟨fun hrun => hrun.2.2, fun hcomplete => ⟨?_, hsound.unresolved_acceptDefaults,
        hcomplete⟩⟩
      exact shape_planOf_ne_empty _ _ first _

theorem build_again_clash : ∃ (q : Query) (plan plan' : Plan),
    (build {} q).1 = .ok plan ∧ plan.unresolved.map Conflict.key = [.join ⟨"o", "id"⟩ ⟨"c", "id"⟩] ∧
      plan.incomplete = [] ∧ (build {} q).2.build q = (.ok plan, (build {} q).2) ∧
      (({ (build {} q).2 with log := (build {} q).2.log.acceptDefaults } : Session).build q).1 =
        .ok plan' ∧ plan'.isExecutable = true := by
  let q : Query :=
    { tables := [⟨"o", none, .ownEngine, [⟨"id", "INTEGER"⟩]⟩,
        ⟨"c", none, .ownEngine, [⟨"id", "VARCHAR"⟩]⟩]
      joins := [⟨.inner, [⟨.column ⟨"o", "id"⟩, .eq, .column ⟨"c", "id"⟩⟩]⟩]
      filter := ⟨"r", .and, []⟩
      columns := [] }
  have hok : (build {} q).1.map (fun plan => (plan.unresolved.map Conflict.key, plan.incomplete)) =
      .ok ([.join ⟨"o", "id"⟩ ⟨"c", "id"⟩], []) := by decide +kernel
  cases hplan : (build {} q).1 with
  | error e =>
    rw [hplan] at hok
    cases hok
  | ok plan =>
    rw [hplan] at hok
    obtain ⟨hkeys, hcomplete⟩ := Prod.mk.inj (Except.ok.inj hok)
    obtain ⟨hagain, plan', hplan', -, -, -, -, hincomplete, hrun⟩ := build_again hplan
    refine ⟨q, plan, plan', hplan, hkeys, hcomplete, hagain, congrArg Prod.fst hplan', ?_⟩
    exact hrun.2 ⟨List.cons_ne_nil _ _, hincomplete.trans hcomplete⟩

end Session

end SqlFilter
