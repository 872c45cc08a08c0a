import SqlFilter.Proofs.Conflict.Decisions
import SqlFilter.Proofs.Query.Gate

/-!
# Conflicts that show in a statement

A plan waits for conflicts of comparisons that its statement makes, of columns in an `ON` clause and
of bounds in a filter, each of them written in the text of the statement as it is
(`Session.build_shows`). There is one exception: a range without a column is looked at like any
other range, but nothing is written of it.

All parts of a statement stand in its text, so that the text of a leaf is followed through the
groups around it, its filter and its clause.
-/

namespace SqlFilter

/-! ## Texts in texts -/

namespace Text

/-- The text stands in another one. -/
def StandsIn (s t : String) : Prop := ∃ before behind, t = before ++ s ++ behind

variable {s t u : String}

theorem StandsIn.refl (s : String) : StandsIn s s := ⟨"", "", by simp⟩

theorem StandsIn.trans (h : StandsIn s t) (h' : StandsIn t u) : StandsIn s u := by
  obtain ⟨before, behind, rfl⟩ := h
  obtain ⟨before', behind', rfl⟩ := h'
  exact ⟨before' ++ before, behind ++ behind', by simp only [String.append_assoc]⟩

theorem StandsIn.append_left (h : StandsIn s t) (u : String) : StandsIn s (u ++ t) :=
  h.trans ⟨u, "", by simp⟩

theorem StandsIn.append_right (h : StandsIn s t) (u : String) : StandsIn s (t ++ u) :=
  h.trans ⟨"", u, by simp⟩

theorem standsIn_empty (t : String) : StandsIn "" t := ⟨"", t, by simp⟩

theorem StandsIn.ne_empty (h : StandsIn s t) (hs : s ≠ "") : t ≠ "" := by
  rintro rfl
  obtain ⟨before, behind, heq⟩ := h
  have hsize := congrArg String.length heq
  simp only [String.length_append, String.length_empty] at hsize
  exact hs (String.length_eq_zero_iff.1 (by omega))

theorem standsIn_join {ss : List String} (h : s ∈ ss) : StandsIn s (String.join ss) := by
  induction ss with
  | nil => cases h
  | cons u ss ih =>
    rw [String.join_cons]
    rcases List.mem_cons.1 h with rfl | h
    · exact (StandsIn.refl s).append_right _
    · exact (ih h).append_left _

theorem standsIn_intercalate (sep : String) {ss : List String} (h : s ∈ ss) :
    StandsIn s (String.intercalate sep ss) := by
  induction ss with
  | nil => cases h
  | cons u ss ih =>
    cases ss with
    | nil =>
      obtain rfl := List.mem_singleton.1 h
      rw [String.intercalate_singleton]
      exact .refl s
    | cons v ss =>
      rw [String.intercalate_cons_cons]
      rcases List.mem_cons.1 h with rfl | h
      · exact ((StandsIn.refl s).append_right _).append_right _
      · exact (ih h).append_left _

end Text

open Text (StandsIn)

/-! ## Parts of trees and statements -/

namespace Printer

section Tree

variable {ι : Type} {p : Printer ι}

theorem standsIn_parenthesized (s : String) : StandsIn s (parenthesized s) :=
  ((StandsIn.refl s).append_left _).append_right _

/-- A member stands in what the members are joined to. -/
theorem standsIn_join (k : Logic) {m : Member} {ms : List Member} (h : m ∈ ms) :
    StandsIn m.sql (join k ms) := by
  unfold join
  split
  · cases h
  · obtain rfl := List.mem_singleton.1 h
    exact standsIn_parenthesized m.sql
  · refine StandsIn.trans ?_ ((Text.standsIn_intercalate _ (List.mem_map_of_mem h)).trans
      (standsIn_parenthesized _))
    split_ifs
    · exact standsIn_parenthesized m.sql
    · exact .refl m.sql

mutual

theorem standsIn_node {l : Node ι} : ∀ n : Node ι, l ∈ n.leafNodes → StandsIn (p.node l) (p.node n)
  | .condition i c => by
    intro h
    rw [List.mem_singleton.1 h]
    exact .refl _
  | .group i k cs => by
    intro h
    by_cases hl : p.node l = ""
    · rw [hl]
      exact Text.standsIn_empty _
    · obtain ⟨m, hm, hstands⟩ := Printer.exists_member hl cs h
      exact hstands.trans (standsIn_join k hm)
  | .raw i s => by
    intro h
    rw [List.mem_singleton.1 h]
    exact .refl _

/-- A leaf that is written as something stands in one of the members. -/
theorem exists_member {l : Node ι} (hl : p.node l ≠ "") : ∀ ns : List (Node ι),
    l ∈ Node.allLeafNodes ns → ∃ m ∈ p.members ns, StandsIn (p.node l) m.sql
  | [] => fun h => absurd h List.not_mem_nil
  | n :: ns => by
    intro h
    rw [members]
    rcases List.mem_append.1 h with h | h
    · have hstands := Printer.standsIn_node n h
      rw [if_neg (hstands.ne_empty hl)]
      exact ⟨_, List.mem_cons_self, hstands⟩
    · obtain ⟨m, hm, hstands⟩ := Printer.exists_member hl ns h
      refine ⟨m, ?_, hstands⟩
      split_ifs
      · exact hm
      · exact List.mem_cons_of_mem _ hm

end

/-- A leaf of a tree stands in the text of the tree. -/
theorem standsIn_tree {t : Tree ι} {l : Node ι} (h : l ∈ t.leafNodes) :
    StandsIn (p.node l) (p.tree t) := by
  have hroot : p.tree t = p.node t.toNode := by
    rw [tree, Tree.toNode, node]
  rw [hroot]
  exact standsIn_node t.toNode h

end Tree

variable (p : Printer String)

theorem standsIn_onClause {part : OnPart} {parts : List OnPart} (h : part ∈ parts) :
    StandsIn (p.onPart part) (p.onClause parts) := by
  have hne : ¬ parts.isEmpty = true := fun hnil => List.ne_nil_of_mem h (List.isEmpty_iff.1 hnil)
  rw [onClause, if_neg hne]
  exact Text.standsIn_intercalate _ (List.mem_map_of_mem h)

theorem onClause_standsIn_joined (j : Joined) : StandsIn (p.onClause j.on) (p.joined j) :=
  (StandsIn.refl _).append_left _

variable {st : Statement}

theorem joined_standsIn_statement {j : Joined} (h : j ∈ st.joins) :
    StandsIn (p.joined j) (p.statement st) := by
  have hjoins : StandsIn (p.joined j) (String.join (st.joins.map fun j => " " ++ p.joined j)) :=
    ((StandsIn.refl _).append_left _).trans (Text.standsIn_join (List.mem_map_of_mem h))
  exact (((hjoins.append_left _).append_right _).append_right _).append_right _

/-- The filters of a joined table stand in its text, before the join or in the `ON` clause. -/
theorem tree_standsIn_joined {j : Joined} {t : Tree String} (h : t ∈ j.filters) :
    StandsIn (p.tree t) (p.joined j) := by
  rcases List.mem_append.1 h with h | h
  · have hpushed : j.pushed = some t := Option.mem_toList.1 h
    unfold joined
    rw [hpushed]
    refine ((StandsIn.append_left ?_ _).append_right _).append_right _
    exact (((StandsIn.refl _).append_left _).append_right _).append_right _
  · obtain ⟨part, hpart, hfilter⟩ := List.mem_filterMap.1 h
    cases part with
    | comparison c cast => cases hfilter
    | filter u =>
      obtain rfl := Option.some.inj hfilter
      exact (p.standsIn_onClause hpart).trans (p.onClause_standsIn_joined j)

/-- The filters of a statement stand in its text. -/
theorem tree_standsIn_statement {t : Tree String} (h : t ∈ st.filters) :
    StandsIn (p.tree t) (p.statement st) := by
  rcases List.mem_cons.1 h with rfl | h
  · have hwhere : StandsIn (p.tree st.filter)
        (if p.tree st.filter = "" then "" else " WHERE " ++ p.tree st.filter) := by
      split_ifs with hempty
      · rw [hempty]
        exact .refl _
      · exact (StandsIn.refl _).append_left _
    exact ((hwhere.append_left _).append_right _).append_right _
  · obtain ⟨j, hj, ht⟩ := List.mem_flatMap.1 h
    exact (p.tree_standsIn_joined ht).trans (p.joined_standsIn_statement hj)

end Printer

/-! ## Conflicts that wait -/

theorem exists_ok_of_map {ε α β : Type} {e : Except ε α} {f : α → β} {b : β}
    (h : e.map f = .ok b) : ∃ a, e = .ok a ∧ f a = b := by
  cases e with
  | error x => cases h
  | ok a => exact ⟨a, rfl, Except.ok.inj h⟩

theorem JoinCondition.eq_of_columns? {c : JoinCondition} {l r : ColumnRef}
    (h : c.columns? = some (l, r)) : c = ⟨.column l, c.operator, .column r⟩ := by
  obtain ⟨left, op, right⟩ := c
  unfold columns? at h
  split at h
  · next hleft hright =>
    obtain ⟨rfl, rfl⟩ := Prod.mk.inj (Option.some.inj h)
    simp_all
  · cases h

namespace ConflictLog

variable {log : ConflictLog} {pairs : List ColumnPair} {filter : Tree String} {x : Conflict}

/-- A conflict that waits behind a detection is that of one of the comparisons. -/
theorem exists_of_mem_unresolved (h : x ∈ (log.detect pairs filter).unresolved) :
    ∃ c ∈ Comparison.all pairs filter, x = c.conflict .unresolved := by
  obtain ⟨hx, hblocks⟩ := List.mem_filter.1 h
  have hwaits : x.resolution = .unresolved := by
    rw [Conflict.isBlocking, Bool.and_eq_true] at hblocks
    exact of_decide_eq_true hblocks.2
  obtain ⟨c, hc, hconflict⟩ := exists_first_of_mem_detect pairs filter hx
  have hresolution : x.resolution = log.resolution x.key := congrArg Conflict.resolution hconflict
  rw [← hresolution, hwaits] at hconflict
  exact ⟨c, List.mem_of_mem_filter (List.mem_of_find?_eq_some hc), hconflict⟩

/-- Nothing is cast for a conflict that waits. -/
theorem castFor_of_mem_unresolved (h : x ∈ (log.detect pairs filter).unresolved) :
    (log.detect pairs filter).castFor x.key = none := by
  obtain ⟨hx, hblocks⟩ := List.mem_filter.1 h
  rw [Conflict.isBlocking, Bool.and_eq_true] at hblocks
  rw [castFor, find?_of_mem (sound_detect log pairs filter).nodup hx, Option.bind_some,
    Conflict.castType, of_decide_eq_true hblocks.2]

end ConflictLog

/-! ## Where they show -/

section Shows

variable (p : Printer String) (sql : String) (x : Conflict)

/-- The conflict of two columns shows in the `ON` clause of a joined table: the clause has a
comparison of them, written without a cast. -/
structure JoinCondition.Shows (bound : List Bound) (spec : JoinSpec) (j : Joined)
    (c : JoinCondition) (l r : ColumnRef) : Prop where
  mem : c ∈ spec.conditions
  complete : c.isComplete = true
  columns : c.columns? = some (l, r)
  conflict : x = (Comparison.ofPair (Query.pairOf bound l r)).conflict .unresolved
  text : StandsIn (p.dialect.quotePath [l.table, l.column] ++ " " ++ c.operator.name ++ " " ++
    p.dialect.quotePath [r.table, r.column]) (p.onClause j.on)
  clause : StandsIn (p.onClause j.on) sql

/-- The conflict of two bounds shows in one of the filters just if the range has a column: then the
range is written without a cast, and otherwise not at all. -/
structure Condition.Shows (filters : List (Tree String)) (i : String) (c : Condition)
    (low high : Literal) : Prop where
  operator : c.operator = .between
  value : c.value = some (.single low)
  upper : c.upper = some high
  conflict : x = (Comparison.ofBounds i low high).conflict .unresolved
  complete_iff : c.IsComplete ↔ c.column ≠ ""
  shown : c.IsComplete → ∃ t ∈ filters, .condition i c ∈ t.leafNodes ∧
    StandsIn (p.dialect.quotePath [c.table, c.column] ++ " BETWEEN " ++ low.sql p.dialect ++
      " AND " ++ high.sql p.dialect) (p.tree t) ∧ StandsIn (p.tree t) sql
  hidden : ¬ c.IsComplete → p.node (.condition i c) = ""

end Shows

namespace Session

/-- The comparisons that can be written are in the `ON` clause. -/
theorem comparison_mem_on_joinedOf (settings : Settings) (log : ConflictLog)
    (filter : Tree String) (b : Bound) {spec : JoinSpec} {c : JoinCondition}
    (h : c ∈ spec.complete) :
    .comparison c (joinCast log c) ∈ (joinedOf settings log filter b spec).on := by
  have hmem : .comparison c (joinCast log c) ∈ comparisonsOf log spec := List.mem_map_of_mem h
  unfold joinedOf
  dsimp only
  split_ifs
  · exact hmem
  · exact hmem
  · exact List.mem_append_left _ hmem

section Parts

variable {settings : Settings} {log : ConflictLog} {q : Query} {x : Conflict}
  (first : Bound) (others : List (Bound × JoinSpec))

/-- A conflict of two columns on which nothing is decided shows in the `ON` clause that compares
them. -/
theorem shows_columns {b : Bound} {spec : JoinSpec} (ho : (b, spec) ∈ others) {c : JoinCondition}
    (hc : c ∈ spec.complete) {l r : ColumnRef} (hcols : c.columns? = some (l, r))
    (hcast : log.castFor (.join l r) = none) {bound : List Bound}
    (hx : x = (Comparison.ofPair (Query.pairOf bound l r)).conflict .unresolved) :
    c.Shows (printer settings log)
      ((printer settings log).statement (statementOf settings log q first others)) x bound spec
      (joinedOf settings log q.filter b spec) l r where
  mem := List.mem_of_mem_filter hc
  complete := List.of_mem_filter hc
  columns := hcols
  conflict := hx
  text := by
    have hnone : joinCast log c = none := by
      rw [joinCast, hcols]
      exact hcast
    have hstands := (printer settings log).standsIn_onClause
      (comparison_mem_on_joinedOf settings log q.filter b hc)
    rw [hnone, Printer.onPart, c.eq_of_columns? hcols, JoinCondition.sql_eq] at hstands
    exact hstands
  clause := by
    have hj : joinedOf settings log q.filter b spec ∈
        (statementOf settings log q first others).joins := List.mem_map.2 ⟨(b, spec), ho, rfl⟩
    exact (Printer.onClause_standsIn_joined _ _).trans (Printer.joined_standsIn_statement _ hj)

/-- A conflict of two bounds on which nothing is decided shows in a filter, if the range has a
column. -/
theorem shows_bounds {i : String} {c : Condition} (hmem : (i, c) ∈ q.filter.conditions)
    {low high : Literal} (hop : c.operator = .between) (hlow : c.value = some (.single low))
    (hhigh : c.upper = some high) (hcast : log.rangeCast i = none)
    (hx : x = (Comparison.ofBounds i low high).conflict .unresolved) :
    c.Shows (printer settings log)
      ((printer settings log).statement (statementOf settings log q first others)) x
      (statementOf settings log q first others).filters i low high where
  operator := hop
  value := hlow
  upper := hhigh
  conflict := hx
  complete_iff := by
    rw [Condition.isComplete_iff, hop, hlow, hhigh]
    exact and_iff_left (.bounds low high)
  shown := by
    intro hc
    have hshown : (printer settings log).shows (.condition i c) = true := by
      refine decide_eq_true ?_
      rw [Printer.node, Ne, Condition.sql_eq_empty_iff]
      exact not_not_intro hc
    obtain ⟨t, ht, hleaf⟩ := exists_mem_filters (Tree.mem_conditions_iff.1 hmem) hshown first others
    refine ⟨t, ht, hleaf, ?_, Printer.tree_standsIn_statement _ ht⟩
    have hstands := (printer settings log).standsIn_tree hleaf
    have hnone : (printer settings log).casts i = none := hcast
    rw [Printer.node, Condition.sql_of_bounds hc hop hlow hhigh, hnone] at hstands
    exact hstands
  hidden := by
    intro hc
    rwa [Printer.node, Condition.sql_eq_empty_iff]

end Parts

/-- **What a plan waits for** shows in its statement, whatever the session went through before. A
conflict of two columns is that of a comparison that can be written and stands in the `ON` clause of
a join. A conflict of two bounds is that of a range of the filter, and the range stands in one of
the filters of the statement just if it has a column. -/
theorem build_shows {s : Session} {q : Query} {plan : Plan} (hplan : (s.build q).1 = .ok plan) :
    let p := printer s.settings (s.build q).2.log
    q.tables = [] ∧ plan = Plan.empty ∨
      ∃ first others st,
        Query.bind (Attachment.ofTables q.tables) q.tables = .ok (first :: others) ∧
          plan.sql = p.statement st ∧
          ∀ x ∈ plan.unresolved,
            (∃ b spec j c l r, (b, spec) ∈ Query.withSpecs others q.joins ∧ j ∈ st.joins ∧
              j.item = b.item ∧
                JoinCondition.Shows p plan.sql x (first :: others) spec j c l r) ∨
              ∃ i c low high, (i, c) ∈ q.filter.conditions ∧
                Condition.Shows p plan.sql x st.filters i c low high := by
  intro p
  obtain ⟨hdepth, hempty | ⟨first, others, hbind, -, rfl⟩⟩ := eq_of_build hplan
  · exact .inl hempty
  · have hp : p = printer s.settings (s.detected q first others) := by
      rw [show p = printer s.settings (s.build q).2.log from rfl, build_of_bind hdepth hbind]
    rw [hp]
    refine .inr ⟨first, others, _, hbind, rfl, fun x hx => ?_⟩
    have hcast := ConflictLog.castFor_of_mem_unresolved hx
    obtain ⟨comparison, hmem, rfl⟩ := ConflictLog.exists_of_mem_unresolved hx
    rcases List.mem_append.1 hmem with hmem | hmem
    · obtain ⟨pair, hpair, rfl⟩ := List.mem_map.1 hmem
      obtain ⟨c, hc, hsome⟩ := List.mem_filterMap.1 hpair
      obtain ⟨⟨l, r⟩, hcols, rfl⟩ := Option.map_eq_some_iff.1 hsome
      obtain ⟨spec, hspec, hc⟩ := List.mem_flatMap.1 hc
      obtain ⟨⟨b, spec⟩, ho, rfl⟩ := List.mem_map.1 hspec
      exact .inl ⟨b, spec, _, c, l, r, ho, List.mem_map_of_mem ho, item_joinedOf _ _ _ b spec,
        shows_columns first _ ho hc hcols hcast rfl⟩
    · obtain ⟨⟨i, c⟩, hic, hrange⟩ := List.mem_filterMap.1 hmem
      obtain ⟨low, high, hop, hlow, hhigh, rfl⟩ := Comparison.ofRange?_eq_some_iff.1 hrange
      exact .inr ⟨i, c, low, high, hic, shows_bounds first _ hic hop hlow hhigh hcast rfl⟩

/-- Two columns and a range in conflict, all in one `ON` clause. -/
theorem build_shows_clause : ∃ (q : Query) (plan : Plan) (st : Statement) (x y : Conflict)
    (bound : List Bound) (spec : JoinSpec) (j : Joined) (c : JoinCondition) (l r : ColumnRef)
    (d : Condition) (low high : Literal),
      (build {} q).1 = .ok plan ∧
        plan.sql = "SELECT * FROM \"o\" AS \"o\" INNER JOIN \"c\" AS \"c\" ON " ++
          "\"o\".\"id\" = \"c\".\"id\" AND (\"c\".\"n\" BETWEEN 1 AND 'x') LIMIT 1000" ∧
        x ∈ plan.unresolved ∧ x.key = .join ⟨"o", "id"⟩ ⟨"c", "id"⟩ ∧
        y ∈ plan.unresolved ∧ y.key = .range "a" ∧
        c.Shows (printer {} (build {} q).2.log) plan.sql x bound spec j l r ∧
        d.Shows (printer {} (build {} q).2.log) plan.sql y st.filters "a" low high ∧
        d.IsComplete := by
  let d : Condition :=
    ⟨"c", "n", .between, some (.single (.integer 1)), some (.string "x"), .on⟩
  let q : Query :=
    { tables := [⟨"o", none, .ownEngine, [⟨"id", "INTEGER"⟩]⟩,
        ⟨"c", none, .ownEngine, [⟨"id", "VARCHAR"⟩]⟩]
      joins := [⟨.inner, [⟨.column ⟨"o", "id"⟩, .eq, .column ⟨"c", "id"⟩⟩]⟩]
      filter := ⟨"r", .and, [.condition "a" d]⟩
      columns := [] }
  have hok : (build {} q).1.map (fun plan => (plan.sql, plan.unresolved.map Conflict.key)) = .ok
      ("SELECT * FROM \"o\" AS \"o\" INNER JOIN \"c\" AS \"c\" ON " ++
        "\"o\".\"id\" = \"c\".\"id\" AND (\"c\".\"n\" BETWEEN 1 AND 'x') LIMIT 1000",
        [.join ⟨"o", "id"⟩ ⟨"c", "id"⟩, .range "a"]) := by decide +kernel
  obtain ⟨plan, hplan, hfacts⟩ := exists_ok_of_map hok
  obtain ⟨hsql, hkeys⟩ := Prod.mk.inj hfacts
  have hwaits : ∀ key ∈ plan.unresolved.map Conflict.key,
      ∃ x ∈ plan.unresolved, x.key = key := fun key h => List.mem_map.1 h
  rw [hkeys] at hwaits
  obtain ⟨x, hx, hxkey⟩ := hwaits _ List.mem_cons_self
  obtain ⟨y, hy, hykey⟩ := hwaits _ (List.mem_cons_of_mem _ List.mem_cons_self)
  obtain ⟨htables, -⟩ | ⟨first, others, st, -, -, hshows⟩ := build_shows hplan
  · cases htables
  · obtain ⟨-, spec, j, c, l, r, -, -, -, hc⟩ | ⟨i, c, low, high, -, hc⟩ := hshows x hx
    · obtain ⟨_, _, _, _, _, _, -, -, -, hd⟩ | ⟨i, d', low, high, hmem, hd⟩ := hshows y hy
      · rw [hd.conflict] at hykey
        cases hykey
      · obtain ⟨rfl, rfl⟩ := Prod.mk.inj (List.mem_singleton.1 hmem)
        exact ⟨q, plan, st, x, y, first :: others, spec, j, c, l, r, d, low, high, hplan, hsql,
          hx, hxkey, hy, hykey, hc, hd, by decide⟩
    · rw [hc.conflict] at hxkey
      cases hxkey

/-- A range without a column is waited for, and nothing is written of it. -/
theorem exists_blocked_unshown : ∃ (q : Query) (plan : Plan) (i : String) (c : Condition),
    (build {} q).1 = .ok plan ∧ q.filter.hasUniqueIds = true ∧ q.filter.conditions = [(i, c)] ∧
      plan.unresolved.map Conflict.key = [.range i] ∧ plan.isExecutable = false ∧
      ¬ c.IsComplete ∧ plan.sql = "SELECT * FROM \"t\" AS \"t\" LIMIT 1000" := by
  let q : Query :=
    { tables := [⟨"t", none, .ownEngine, []⟩]
      joins := []
      filter := ⟨"r", .and, [.condition "a"
        ⟨"t", "", .between, some (.single (.integer 1)), some (.string "x"), .atWhere⟩]⟩
      columns := [] }
  have hok : (build {} q).1.map (fun plan =>
      (plan.unresolved.map Conflict.key, plan.isExecutable, plan.sql)) =
        .ok ([.range "a"], false, "SELECT * FROM \"t\" AS \"t\" LIMIT 1000") := by decide +kernel
  obtain ⟨plan, hplan, hfacts⟩ := exists_ok_of_map hok
  obtain ⟨hkeys, hrest⟩ := Prod.mk.inj hfacts
  obtain ⟨hexec, hsql⟩ := Prod.mk.inj hrest
  exact ⟨q, plan, "a", _, hplan, by decide, rfl, hkeys, hexec, by decide, hsql⟩

end Session

end SqlFilter
