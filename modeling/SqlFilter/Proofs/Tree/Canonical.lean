import SqlFilter.Proofs.Condition.Text
import SqlFilter.Proofs.Tree.Accepted
import SqlFilter.Proofs.Tree.Printed

/-!
# Written trees are read back

A tree without raw SQL is written as text that the grammar derives. What is read from it is the
canonical form of the tree (`Tree.read_write`), in which nothing is left that is written as nothing:
neither incomplete conditions nor groups without members.
-/

namespace SqlFilter

open Piece

variable {ι : Type}

/-! ## The canonical form -/

/-- The connective of a group with these members: a single one or none goes with `AND`. -/
def Logic.among (k : Logic) (ns : List (Node Unit)) : Logic := if ns.length < 2 then .and else k

mutual

/-- The node that is read back, if any: incomplete conditions and groups without members are left
out. -/
def Node.canonical? (d : Dialect) : Node ι → Option (Node Unit)
  | .condition _ c => if c.IsComplete then some (.condition () (c.canonical d)) else none
  | .group _ k cs => Level.node? ⟨k.among (Node.allCanonical d cs), Node.allCanonical d cs⟩
  | .raw _ s => some (.raw () s)

/-- The nodes that are read back. -/
def Node.allCanonical (d : Dialect) : List (Node ι) → List (Node Unit)
  | [] => []
  | n :: ns => (n.canonical? d).toList ++ Node.allCanonical d ns

end

/-- The tree that is read back. -/
def Tree.canonical (d : Dialect) (t : Tree ι) : Tree Unit :=
  ⟨(), t.logic.among (Node.allCanonical d t.children), Node.allCanonical d t.children⟩

/-! ## Groups -/

theorem Logic.spells_name (k : Logic) (escapes : Bool) :
    Spells escapes k.name.toList [k.token] := by
  cases k with
  | and => exact @spells_token (.keyword .and) 'A' ['N', 'D'] (by decide +kernel) escapes
  | or => exact @spells_token (.keyword .or) 'O' ['R'] (by decide +kernel) escapes

section Members

variable {d : Dialect} {maxDepth depth : Nat}

/-- The text is an item of the grammar that denotes the node, and the node is written as that
text. -/
structure Stands (d : Dialect) (maxDepth depth : Nat) (s : String) (n : Node Unit) : Prop where
  node_eq : (Printer.plain Unit d maxDepth).node n = s
  isRaw_eq : n.isRaw = false
  spells : ∃ ts, Spells d.backslashEscapes s.toList ts ∧
    DerivesItem (Level.Derives depth) ts (some n)

theorem Stands.ne_empty {s : String} {n : Node Unit} (h : Stands d maxDepth depth s n) :
    s ≠ "" := by
  obtain ⟨ts, hts, -⟩ := h.spells
  obtain ⟨c, cs, hs, -⟩ := hts.solid
  rintro rfl
  cases hs

theorem Stands.mono {depth' : Nat} (hle : depth ≤ depth') {s : String} {n : Node Unit}
    (h : Stands d maxDepth depth s n) : Stands d maxDepth depth' s n := by
  obtain ⟨ts, hts, hd⟩ := h.spells
  exact ⟨h.node_eq, h.isRaw_eq, ts, hts, hd.mono fun _ _ hl => hl.mono hle⟩

/-- The members of a group stand for its canonical members. -/
abbrev AllStand (d : Dialect) (maxDepth depth : Nat) (ms : List Member) (ns : List (Node Unit)) :
    Prop :=
  List.Forall₂ (fun m n => m.isRaw = false ∧ Stands d maxDepth depth m.sql n) ms ns

theorem AllStand.members_eq {ms : List Member} {ns : List (Node Unit)}
    (h : AllStand d maxDepth depth ms ns) : (Printer.plain Unit d maxDepth).members ns = ms := by
  induction h with
  | nil => rfl
  | @cons m n ms ns hmn _ ih =>
    obtain ⟨hraw, hs⟩ := hmn
    rw [Printer.members, hs.node_eq, if_neg hs.ne_empty, ih, hs.isRaw_eq, ← hraw]

theorem AllStand.mono {depth' : Nat} (hle : depth ≤ depth') {ms : List Member}
    {ns : List (Node Unit)} (h : AllStand d maxDepth depth ms ns) :
    AllStand d maxDepth depth' ms ns :=
  h.imp fun _ _ h => ⟨h.1, h.2.mono hle⟩

/-- Members joined by a connective are items of the grammar. -/
theorem spells_intercalate (k : Logic) {m : Member} {n : Node Unit} {ms : List Member}
    {ns : List (Node Unit)} (h : Stands d maxDepth depth m.sql n)
    (hs : AllStand d maxDepth depth ms ns) : ∃ ts,
      Spells d.backslashEscapes
          (String.intercalate (" " ++ k.name ++ " ") ((m :: ms).map Member.sql)).toList ts ∧
        DerivesItems (Level.Derives depth) k ts (n :: ns) := by
  induction hs generalizing m n with
  | nil =>
    obtain ⟨ts, hts, hd⟩ := h.spells
    refine ⟨ts, ?_, .last hd⟩
    rwa [List.map_cons, List.map_nil, String.intercalate_singleton]
  | @cons m' n' ms ns hmn _ ih =>
    obtain ⟨ts, hts, hd⟩ := h.spells
    obtain ⟨us, hus, hds⟩ := ih hmn.2
    refine ⟨ts ++ k.token :: us, ?_, .more hd hds⟩
    rw [List.map_cons, List.map_cons, String.intercalate_cons_cons, ← List.map_cons]
    simp only [String.toList_append, List.append_assoc]
    exact hts.space ((k.spells_name _).space hus)

/-- No member of the group is raw SQL, so that none gets parentheses of its own. -/
theorem AllStand.map_sql {ms : List Member} {ns : List (Node Unit)}
    (h : AllStand d maxDepth depth ms ns) :
    ms.map (fun m => if m.isRaw then Printer.parenthesized m.sql else m.sql) =
      ms.map Member.sql := by
  induction h with
  | nil => rfl
  | @cons m n ms ns hmn _ ih => simp [hmn.1, ih]

theorem AllStand.join_among {ms : List Member} {ns : List (Node Unit)}
    (h : AllStand d maxDepth depth ms ns) (k : Logic) :
    Printer.join (k.among ns) ms = Printer.join k ms := by
  unfold Logic.among
  split_ifs with hlen
  · rw [← h.length_eq] at hlen
    match ms, hlen with
    | [], _ => rfl
    | [m], _ => rfl
  · rfl

/-- A group is written as a level in parentheses. -/
theorem AllStand.spells_join {ms : List Member} {ns : List (Node Unit)}
    (h : AllStand d maxDepth depth ms ns) (hne : ns ≠ []) (k : Logic) : ∃ ts,
      Spells d.backslashEscapes (Printer.join k ms).toList (.leftParen :: (ts ++ [.rightParen])) ∧
        Level.Derives (depth + 1) ts ⟨k.among ns, ns⟩ := by
  cases h with
  | nil => exact absurd rfl hne
  | @cons m n ms ns hmn hs =>
    cases hs with
    | nil =>
      obtain ⟨ts, hts, hd⟩ := hmn.2.spells
      refine ⟨ts, ?_, .single hd⟩
      simp only [Printer.join, Printer.parenthesized, String.toList_append]
      exact hts.parenthesized
    | @cons m' n' ms ns hmn' hs =>
      obtain ⟨ts, hts, hd⟩ := hmn.2.spells
      obtain ⟨us, hus, hds⟩ := spells_intercalate k hmn'.2 hs
      have hall : AllStand d maxDepth depth (m :: m' :: ms) (n :: n' :: ns) :=
        .cons hmn (.cons hmn' hs)
      refine ⟨ts ++ k.token :: us, ?_, .joined hd hds⟩
      rw [Printer.join, hall.map_sql, List.map_cons, List.map_cons, String.intercalate_cons_cons,
        ← List.map_cons]
      · simp only [Printer.parenthesized, String.toList_append, List.append_assoc]
        have := (hts.space ((k.spells_name _).space hus)).parenthesized
        simp only [List.append_assoc, List.cons_append, List.nil_append] at this
        exact this
      · exact List.cons_ne_nil _ _
      · exact fun _ h => absurd (congrArg List.tail h) (List.cons_ne_nil _ _)

end Members

/-! ## Nodes -/

section Nodes

variable (d : Dialect) (maxDepth : Nat)

mutual

/-- A node is written as an item that stands for its canonical form, or as nothing. -/
theorem Node.stands : ∀ n : Node ι, (∀ leaf ∈ n.leaves, leaf.2 ≠ none) →
    (n.canonical? d = none → (Printer.plain ι d maxDepth).node n = "") ∧
      ∀ n', n.canonical? d = some n' →
        n.isRaw = false ∧ Stands d maxDepth n.depth ((Printer.plain ι d maxDepth).node n) n'
  | .condition i c => by
    intro _
    simp only [canonical?]
    split_ifs with hc
    · refine ⟨nofun, fun n' hn' => ?_⟩
      obtain rfl := Option.some.inj hn'
      obtain ⟨ts, hts, hd⟩ := Condition.spells_sql d hc
      exact ⟨rfl, Condition.sql_canonical d hc, rfl, ts, hts, .condition hd⟩
    · exact ⟨fun _ => if_neg hc, nofun⟩
  | .group i k cs => by
    intro h
    have hs := Node.allStand cs h
    rw [canonical?, Printer.node]
    generalize (Printer.plain ι d maxDepth).members cs = ms at hs
    generalize Node.allCanonical d cs = ns at hs
    cases hs with
    | nil => exact ⟨fun _ => rfl, nofun⟩
    | @cons m n ms ns hmn hs =>
      have hall : AllStand d maxDepth (Node.maxDepth cs) (m :: ms) (n :: ns) := .cons hmn hs
      refine ⟨nofun, fun n' hn' => ?_⟩
      obtain rfl := Option.some.inj hn'
      obtain ⟨ts, hts, hd⟩ := hall.spells_join (List.cons_ne_nil n ns) k
      refine ⟨rfl, ?_, rfl, _, hts, ?_⟩
      · rw [Printer.node, hall.members_eq, hall.join_among]
      · rw [Nat.add_comm] at hd
        exact .parenthesized hd
  | .raw i s => by
    intro h
    exact absurd rfl (h (i, none) (List.mem_singleton_self _))

/-- The members of a group stand for its canonical members. -/
theorem Node.allStand : ∀ ns : List (Node ι), AllRawFree ns →
    AllStand d maxDepth (Node.maxDepth ns) ((Printer.plain ι d maxDepth).members ns)
      (allCanonical d ns)
  | [] => fun _ => .nil
  | n :: ns => by
    intro h
    obtain ⟨hn, hns⟩ := List.forall_mem_append.1 h
    have hs := (Node.allStand ns hns).mono (Nat.le_max_right n.depth (Node.maxDepth ns))
    obtain ⟨hnone, hsome⟩ := Node.stands n hn
    rw [Printer.members, allCanonical]
    cases hc : n.canonical? d with
    | none =>
      rw [hnone hc]
      exact hs
    | some n' =>
      obtain ⟨hraw, hst⟩ := hsome n' hc
      rw [if_neg hst.ne_empty]
      exact .cons ⟨hraw, hst.mono (Nat.le_max_left _ _)⟩ hs

end

end Nodes

/-! ## Trees -/

namespace Tree

variable {d : Dialect} {maxDepth : Nat} {t : Tree ι}

theorem tree_canonical (h : t.RawFree) :
    (Printer.plain Unit d maxDepth).tree (t.canonical d) =
      (Printer.plain ι d maxDepth).tree t := by
  have hs := Node.allStand d maxDepth t.children h
  rw [Printer.tree, Printer.tree, canonical, hs.members_eq, hs.join_among]

/-- **Written trees** are read back, up to their canonical form, without a warning. -/
theorem read_write (d : Dialect) (maxDepth : Nat) (t : Tree ι) (hraw : t.RawFree)
    (hdepth : t.depth ≤ maxDepth) : ∃ sql,
      (Printer.plain ι d maxDepth).write t = .ok sql ∧
        ∀ limits : Limits, limits.dialect = d → limits.maxDepth = maxDepth →
          limits.expired = false →
          (limits.tokens sql).length * (maxDepth + 1) ≤ limits.stepBudget →
            ∃ r, Reading.ofText limits sql = .ok r ∧ r.warnings = [] ∧ r.root = t.canonical d ∧
              (Printer.plain Unit d maxDepth).write r.root = .ok sql := by
  have hs := Node.allStand d maxDepth t.children hraw
  refine ⟨(Printer.plain ι d maxDepth).tree t, Printer.write_of_depth_le _ hdepth,
    fun limits hd hm hexp hsteps => ?_⟩
  subst hd hm
  have hwrite : ∀ t' : Tree Unit, t' = t.canonical limits.dialect → t'.depth ≤ limits.maxDepth →
      (Printer.plain Unit limits.dialect limits.maxDepth).write t' =
        .ok ((Printer.plain ι limits.dialect limits.maxDepth).tree t) := by
    rintro _ rfl hle
    rw [← tree_canonical hraw]
    exact Printer.write_of_depth_le _ hle
  by_cases hne : Node.allCanonical limits.dialect t.children = []
  · have hcanonical : t.canonical limits.dialect = ⟨(), .and, []⟩ := by
      rw [canonical, hne]
      rfl
    have htree : (Printer.plain ι limits.dialect limits.maxDepth).tree t = "" := by
      rw [hne] at hs
      rw [Printer.tree, List.forall₂_nil_right_iff.1 hs]
      rfl
    refine ⟨⟨.group () .and [], []⟩, htree ▸ Reading.ofText_empty limits, rfl, hcanonical.symm,
      hwrite _ hcanonical.symm ?_⟩
    exact (Nat.le_add_right 1 (Node.maxDepth t.children)).trans hdepth
  · obtain ⟨ts, hts, hlevel⟩ := hs.spells_join hne t.logic
    have htokens : limits.tokens ((Printer.plain ι limits.dialect limits.maxDepth).tree t) =
        .leftParen :: (ts ++ [.rightParen]) := hts.tokens_eq
    have hn := Word.numerals_ofText limits.dialect.backslashEscapes
      ((Printer.plain ι limits.dialect limits.maxDepth).tree t)
    rw [show List.map _ _ = _ from htokens] at hn
    rw [Tree.depth, Nat.add_comm] at hdepth
    obtain ⟨hb, htop | ⟨hshort, -⟩⟩ :=
      @Reading.top_of_parenthesized limits _ _ _ _ hlevel hn.tail.left htokens
    · have hne' : Word.ofText limits.dialect.backslashEscapes
          ((Printer.plain ι limits.dialect limits.maxDepth).tree t) ≠ [] := by
        intro hnil
        rw [Limits.tokens, hnil] at htokens
        cases htokens
      rw [Limits.tokens, List.length_map] at hsteps
      refine ⟨_, Reading.ofWords_of_top hne' hb (Reading.steps_top_le hexp hsteps) htop, rfl, rfl,
        hwrite _ rfl ?_⟩
      rw [Tree.depth, Nat.add_comm]
      exact hlevel.depth_le.trans hdepth
    · exact absurd hshort (Nat.not_lt.2 hdepth)

theorem read_write_group : ∃ (t : Tree Nat) (r : Reading),
    (Printer.plain Nat .mysql 3).write t = .ok "(`t`.`c` LIKE 'a''b' OR (`x` >= 2.5))" ∧
      Reading.ofText { dialect := .mysql, maxDepth := 3, stepBudget := 52 }
        "(`t`.`c` LIKE 'a''b' OR (`x` >= 2.5))" = .ok r ∧
      r.warnings = [] ∧ r.root = t.canonical .mysql := by
  have h := read_write .mysql 3 ⟨0, .or,
    [.condition 1 ⟨"t", "c", .ilike, some (.single (.string "a'b")), none, .on⟩,
      .group 2 .or [.condition 3 ⟨"", "x", .ge,
        some (.single (.float ⟨false, 0x4004000000000000⟩)), none, .atWhere⟩,
        .condition 4 ⟨"", "", .isNull, none, none, .atWhere⟩, .group 5 .and []]]⟩
    (by unfold RawFree Node.AllRawFree; decide +kernel) (by decide +kernel)
  obtain ⟨sql, hsql, hread⟩ := h
  obtain rfl : "(`t`.`c` LIKE 'a''b' OR (`x` >= 2.5))" = sql := by
    refine Except.ok.inj (Eq.trans ?_ hsql)
    decide +kernel
  obtain ⟨r, hr, hw, hroot, -⟩ := hread { dialect := .mysql, maxDepth := 3, stepBudget := 52 }
    rfl rfl rfl (by decide +kernel)
  exact ⟨_, r, hsql, hr, hw, hroot⟩

end Tree

end SqlFilter
