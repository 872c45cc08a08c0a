import SqlFilter.Proofs.Tree.Members

/-!
# The structure of a tree in SQL

The parentheses that a tree is written with carry its structure. The SQL of each of its groups with
several members is cut into that of the members (`Printer.writeNode_splits`), whatever connectives
the raw SQL and the ranges among them have. Raw SQL is to have no comments, matching parentheses,
and no literal that is left open (`Word.Enclosable`).
-/

namespace SqlFilter

open Piece Word

variable {ι : Type}

/-! ## Raw SQL in parentheses -/

namespace Word

/-- Raw SQL that can be put in parentheses. -/
structure Enclosable (escapes : Bool) (s : String) : Prop where
  uncommented : ∀ q ∈ Piece.ofText escapes s.toList, q.isComment = false
  balanced : balanced 0 (ofText escapes s) = true
  closed : ∀ w ∈ ofText escapes s, w.isOpen = false

theorem Enclosable.exists_written {escapes : Bool} {s : String} (h : Enclosable escapes s)
    (hne : Text.trim s ≠ "") :
    ∃ us, Written escapes (Text.trim s).toList us ∧ Word.balanced 0 us = true := by
  have hsource : source (ofText escapes s) = Text.trim s := source_ofText h.uncommented h.closed
  have hwords : ofText escapes s ≠ [] := by
    intro hnil
    rw [hnil] at hsource
    exact hne hsource.symm
  obtain ⟨us, hus, htokens⟩ := Word.exists_written (inText_ofText escapes s) hwords h.closed
  rw [hsource] at hus
  refine ⟨us, hus, ?_⟩
  rw [balanced_congr htokens, h.balanced]

end Word

/-! ## Parts of a tree -/

/-- The node is a part of the other one: the node itself, or a part of one of its children. -/
inductive Node.IsPart : Node ι → Node ι → Prop
  | refl (n : Node ι) : IsPart n n
  | child {m n : Node ι} {i : ι} {k : Logic} {ns : List (Node ι)} (hn : n ∈ ns)
      (h : IsPart m n) : IsPart m (.group i k ns)

namespace Node.IsPart

variable {m n : Node ι}

theorem depth_le (h : IsPart m n) : m.depth ≤ n.depth := by
  induction h with
  | refl => exact Nat.le_refl _
  | child hn _ ih =>
    have hmax := Node.maxDepth_le_iff.1 (Nat.le_refl _) _ hn
    rw [Node.depth]
    omega

theorem mem_leafNodes (h : IsPart m n) {l : Node ι} (hl : l ∈ m.leafNodes) : l ∈ n.leafNodes := by
  induction h with
  | refl => exact hl
  | child hn _ ih => exact Node.mem_allLeafNodes.2 ⟨_, hn, ih⟩

end Node.IsPart

/-! ## What nodes are written as -/

namespace Printer

variable {p : Printer ι}

/-- The text of the node has matching parentheses, and is cut no further unless the node is raw
SQL. -/
def Encloses (p : Printer ι) (n : Node ι) : Prop :=
  p.node n ≠ "" → ∃ us, Written p.dialect.backslashEscapes (p.node n).toList us ∧
    balanced 0 us = true ∧ (n.isRaw = false → Passed us)

/-- The tokens of the node among others: raw SQL is put in parentheses. -/
def memberTokens (p : Printer ι) (n : Node ι) : List Token :=
  let ts := (Word.ofText p.dialect.backslashEscapes (p.node n)).map Word.token
  if n.isRaw then .leftParen :: (ts ++ [.rightParen]) else ts

theorem Encloses.exists_member {n : Node ι} (h : p.Encloses n) (hne : p.node n ≠ "") :
    ∃ us, Written p.dialect.backslashEscapes (p.member n).text.toList us ∧ Passed us ∧
      us.map Word.token = p.memberTokens n := by
  obtain ⟨us, hus, hbalanced, hpassed⟩ := h hne
  unfold memberTokens
  rw [hus.ofText_eq]
  cases n with
  | raw i s =>
    refine ⟨Word.parenthesized us, p.written_text_raw hus i, passed_parentheses hbalanced, ?_⟩
    rw [Word.parenthesized, List.map_cons, List.map_append]
    rfl
  | condition | group =>
    refine ⟨us, ?_, hpassed rfl, rfl⟩
    rwa [p.text_member_of_not_isRaw rfl]

theorem encloses_condition (hcasts : ∀ i, p.casts i = none) (i : ι) (c : Condition) :
    p.Encloses (.condition i c) := by
  intro hne
  rw [node, hcasts] at hne ⊢
  have hc : c.IsComplete := by
    by_contra hc
    exact hne ((c.sql_eq_empty_iff p.dialect none).2 hc)
  obtain ⟨ts, ⟨us, hus, rfl⟩, hderives⟩ := Condition.spells_sql p.dialect hc
  have hpassed : Passed us := hderives.passed rfl
  exact ⟨us, hus, hpassed.1, fun _ => hpassed⟩

/-- The text of several nodes in a group is cut into parts with the tokens of the nodes. -/
theorem exists_cuts_of_encloses (k : Logic) {ns : List (Node ι)} (h : ∀ n ∈ ns, p.Encloses n)
    (hseveral : 2 ≤ (p.visible ns).length) : ∃ vs ps, p.Cuts k (p.visible ns) vs ps ∧
      Written p.dialect.backslashEscapes (join k (p.members ns)).toList (Word.parenthesized vs) ∧
      ps.map (List.map Word.token) = (p.visible ns).map p.memberTokens := by
  have hmembers : ∀ n ∈ p.visible ns, ∃ us,
      Written p.dialect.backslashEscapes (p.member n).text.toList us ∧ Passed us ∧
        us.map Word.token = p.memberTokens n := by
    intro n hn
    obtain ⟨hmem, hne⟩ := mem_visible.1 hn
    exact (h n hmem).exists_member hne
  obtain ⟨vs, ps, hcuts, hvs⟩ := exists_cuts_join k hseveral fun n hn => by
    obtain ⟨us, hus, hpassed, -⟩ := hmembers n hn
    exact ⟨us, hus, hpassed⟩
  refine ⟨vs, ps, hcuts, hvs, ?_⟩
  rw [hcuts.map_token]
  refine List.map_congr_left fun n hn => ?_
  obtain ⟨us, hus, -, htokens⟩ := hmembers n hn
  rw [hus.ofText_eq, htokens]

/-- A group is in parentheses of its own, which match if those of its members do. -/
theorem encloses_group {i : ι} {k : Logic} {ns : List (Node ι)} (h : ∀ n ∈ ns, p.Encloses n) :
    p.Encloses (.group i k ns) := by
  intro hne
  obtain ⟨vs, hbalanced, hvs⟩ : ∃ vs, balanced 0 vs = true ∧
      Written p.dialect.backslashEscapes (join k (p.members ns)).toList
        (Word.parenthesized vs) := by
    match hns : p.visible ns with
    | [] =>
      rw [node, members_eq_map_visible, hns] at hne
      exact absurd rfl hne
    | [n] =>
      -- raw SQL alone has no parentheses but those of the group
      obtain ⟨hmem, hnode⟩ := mem_visible.1 (hns ▸ List.mem_singleton_self n)
      obtain ⟨vs, hvs, hbalanced, -⟩ := h n hmem hnode
      have halone : join k (p.members ns) = parenthesized (p.node n) := by
        rw [members_eq_map_visible, hns]
        rfl
      refine ⟨vs, hbalanced, ?_⟩
      rw [halone, toList_parenthesized]
      exact hvs.parenthesized
    | n :: m :: ms =>
      have hseveral : 2 ≤ (p.visible ns).length := by
        rw [hns]
        exact Nat.le_add_left 2 ms.length
      obtain ⟨vs, ps, hcuts, hvs, -⟩ := exists_cuts_of_encloses k h hseveral
      exact ⟨vs, hcuts.balanced, hvs⟩
  have hpassed := passed_parentheses hbalanced
  exact ⟨_, hvs, hpassed.1, fun _ => hpassed⟩

mutual

/-- **Nodes** whose raw SQL can be put in parentheses have matching parentheses. -/
theorem encloses (hcasts : ∀ i, p.casts i = none) : ∀ n : Node ι,
    (∀ i s, .raw i s ∈ n.leafNodes → Enclosable p.dialect.backslashEscapes s) → p.Encloses n
  | .condition i c => fun _ => encloses_condition hcasts i c
  | .group i k ns => fun h => encloses_group (Printer.forall_encloses hcasts ns h)
  | .raw i s => by
    intro h hne
    obtain ⟨us, hus, hbalanced⟩ := (h i s (List.mem_singleton_self _)).exists_written hne
    exact ⟨us, hus, hbalanced, nofun⟩

theorem forall_encloses (hcasts : ∀ i, p.casts i = none) : ∀ ns : List (Node ι),
    (∀ i s, .raw i s ∈ Node.allLeafNodes ns → Enclosable p.dialect.backslashEscapes s) →
      ∀ n ∈ ns, p.Encloses n
  | [] => fun _ n hn => absurd hn List.not_mem_nil
  | n :: ns => by
    intro h
    have hn := Printer.encloses hcasts n fun i s hs => h i s (List.mem_append_left _ hs)
    have hns := Printer.forall_encloses hcasts ns fun i s hs => h i s (List.mem_append_right _ hs)
    exact List.forall_mem_cons.2 ⟨hn, hns⟩

end

/-! ## Groups -/

theorem writeNode_of_depth_le {n : Node ι} (h : n.depth ≤ p.maxDepth) :
    p.writeNode n = .ok (p.node n) := by
  rw [writeNode, checkDepth_of_le h]
  rfl

/-- **The structure of a tree** is that of its SQL. The SQL of each group of several members is cut
at the connective of the group into as many parts, and the parts have the tokens of the members in
their order. -/
theorem writeNode_splits {t : Tree ι} (hcasts : ∀ i, p.casts i = none)
    (hdepth : t.depth ≤ p.maxDepth)
    (hraws : ∀ i s, .raw i s ∈ t.leafNodes → Enclosable p.dialect.backslashEscapes s)
    {i : ι} {k : Logic} {ns : List (Node ι)} (hpart : (Node.group i k ns).IsPart t.toNode)
    (hseveral : 2 ≤ (p.visible ns).length) : ∃ sql body ps,
      p.writeNode (.group i k ns) = .ok sql ∧
      unwrap? (Word.ofText p.dialect.backslashEscapes sql) = some body ∧
      (Split.ofWords body).1 = .parts k ps ∧
      ps.map (List.map Word.token) = (p.visible ns).map p.memberTokens := by
  have hleaves : ∀ j s, .raw j s ∈ Node.allLeafNodes ns →
      Enclosable p.dialect.backslashEscapes s := fun j s hs => hraws j s (hpart.mem_leafNodes hs)
  obtain ⟨body, ps, hcuts, hwritten, htokens⟩ :=
    exists_cuts_of_encloses k (forall_encloses hcasts ns hleaves) hseveral
  refine ⟨_, body, ps, writeNode_of_depth_le (hpart.depth_le.trans hdepth), ?_,
    hcuts.split hseveral, htokens⟩
  rw [node, hwritten.ofText_eq, unwrap?_parentheses hcuts.balanced]

theorem writeNode_splits_between : ∃ (t : Tree Nat) (g : Node Nat) (body : List Word)
    (ps : List (List Word)), g.IsPart t.toNode ∧
      (Printer.plain Nat .duckdb 3).writeNode g =
        .ok "(\"a\" BETWEEN 1 AND 2 AND (b = 3 OR f(c)))" ∧
      unwrap? (Word.ofText false "(\"a\" BETWEEN 1 AND 2 AND (b = 3 OR f(c)))") = some body ∧
      (Split.ofWords body).1 = .parts .and ps ∧ ps.map (List.map Word.token) = [
        [.quotedName "a", .keyword .between, .number "1", .keyword .and, .number "2"],
        [.leftParen, .name "b", .eq, .number "3", .keyword .or, .name "f", .leftParen, .name "c",
          .rightParen, .rightParen]] := by
  let ns : List (Node Nat) := [
    .condition 2 ⟨"", "a", .between, some (.single (.integer 1)), some (.integer 2), .atWhere⟩,
    .group 3 .or [], .raw 4 " b = 3 OR f(c) "]
  have hpart : (Node.group 1 .and ns).IsPart (Tree.toNode ⟨0, .or, [.group 1 .and ns]⟩) :=
    .child (List.mem_singleton_self _) (.refl _)
  obtain ⟨sql, body, ps, hsql, hbody, hsplit, htokens⟩ :=
    @writeNode_splits Nat (.plain Nat .duckdb 3) ⟨0, .or, [.group 1 .and ns]⟩ (fun _ => rfl)
      (by decide) (by
        intro i s hs
        obtain ⟨-, rfl⟩ : i = 4 ∧ s = " b = 3 OR f(c) " := by
          simpa [Tree.leafNodes, Node.allLeafNodes, Node.leafNodes, ns] using hs
        constructor <;> decide +kernel)
      1 .and ns hpart (by decide +kernel)
  obtain rfl : "(\"a\" BETWEEN 1 AND 2 AND (b = 3 OR f(c)))" = sql := by
    refine Except.ok.inj (Eq.trans ?_ hsql)
    decide +kernel
  exact ⟨_, _, body, ps, hpart, hsql, hbody, hsplit, htokens.trans (by decide +kernel)⟩

end Printer

end SqlFilter
