import SqlFilter.Proofs.Tree.Budget
import SqlFilter.Proofs.Tree.Structure

/-!
# How deep texts and trees are nested

The reader counts levels while groups may still turn out to be empty, and the depth of a tree counts
the groups that are there. The two agree (`Reading.depth_agrees`): a text that a tree is written as
cannot be read just if the groups of the tree are nested too deeply, not counting those that are
written as nothing. The one group that is not checked is that of a text without tokens.
-/

namespace SqlFilter

open Word

variable {ι : Type}

/-! ## Groups without members -/

/-- No group without members is a part of the node. -/
def Node.Full (n : Node ι) : Prop := ∀ i k, ¬ IsPart (.group i k []) n

theorem Node.Full.group {i : ι} {k : Logic} {cs : List (Node ι)} (hne : cs ≠ [])
    (h : ∀ c ∈ cs, c.Full) : (Node.group i k cs).Full := by
  intro j k' hpart
  cases hpart with
  | refl => exact hne rfl
  | child hc hpart => exact h _ hc _ _ hpart

theorem children_ne_nil_of_readPart {inner : List Word → Attempt (Option Level)} {ws : List Word}
    {k : Logic} {cs : List (Node Unit)} {warnings : List Warning}
    (h : (readPart inner ws).result = some (some (.group () k cs), warnings)) : cs ≠ [] := by
  obtain ⟨body, -, -, hn⟩ | ⟨body, l, -, -, hn⟩ | ⟨c, -, -, hn, -⟩ | ⟨-, -, hn, -⟩ :=
    readPart_outcomes h
  · cases hn
  · obtain ⟨k', _ | ⟨m, ms⟩⟩ := l
    · cases hn
    · cases hn
      exact List.cons_ne_nil m ms
  · cases hn
  · cases hn

/-- Groups that turn out to be empty are left out. -/
theorem full_readLevel (room : Nat) {ws : List Word} {l : Level} {warnings : List Warning}
    (hl : (readLevel room ws).result = some (some l, warnings)) : ∀ n ∈ l.children, n.Full := by
  induction room generalizing ws l warnings with
  | zero => cases hl
  | succ room ih =>
    obtain ⟨hnone, -⟩ | ⟨k, ps, n, ns, hsome, -, hns⟩ := readLevel_cases hl
    · cases hnone
    · obtain rfl := Option.some.inj hsome
      refine forall_of_collect_readPart (fun p _ m w hm => ?_) hns
      cases readAs_of_readPart hm with
      | group hu hl => exact .group (children_ne_nil_of_readPart hm) (ih hl)
      | level | condition | fragment =>
        intro i k hpart
        cases hpart

/-! ## The depth of what is written -/

/-- The test that complete conditions pass, and raw SQL. -/
def LeafTest.complete : LeafTest ι
  | some (_, c) => decide c.IsComplete
  | none => true

theorem Node.maxDepth_eq_of_forall₂ {κ : Type} {ns : List (Node ι)} {ms : List (Node κ)}
    (h : List.Forall₂ (fun n m => n.depth = m.depth) ns ms) : maxDepth ns = maxDepth ms := by
  induction h with
  | nil => rfl
  | cons hnm _ ih => rw [maxDepth, maxDepth, hnm, ih]

section Canonical

variable (d : Dialect)

mutual

/-- The same nodes are read back and kept as complete, and as deep. -/
theorem Node.depth_canonical? : ∀ n : Node ι, Option.Rel (fun n m => n.depth = m.depth)
    (n.canonical? d) (n.kept? LeafTest.complete)
  | .condition i c => by
    rw [canonical?, kept?, LeafTest.complete]
    by_cases hc : c.IsComplete
    · rw [if_pos hc, if_pos (decide_eq_true hc)]
      exact .some rfl
    · rw [if_neg hc, if_neg (by simpa using hc)]
      exact .none
  | .group i k cs => by
    have h := Node.depth_allCanonical cs
    rw [canonical?, kept?_group]
    generalize allCanonical d cs = ns at h
    generalize allKept LeafTest.complete cs = ms at h
    cases h with
    | nil => exact .none
    | cons hn hns =>
      rw [if_neg (List.cons_ne_nil _ _)]
      refine .some ?_
      rw [depth, depth, maxDepth_eq_of_forall₂ (.cons hn hns)]
  | .raw i s => .some rfl

theorem Node.depth_allCanonical : ∀ ns : List (Node ι),
    List.Forall₂ (fun n m => n.depth = m.depth) (allCanonical d ns)
      (allKept LeafTest.complete ns)
  | [] => .nil
  | n :: ns => by
    have hn := Node.depth_canonical? n
    have hns := Node.depth_allCanonical ns
    rw [allCanonical, allKept_cons]
    generalize n.canonical? d = n? at hn
    generalize n.kept? LeafTest.complete = m? at hn
    cases hn with
    | none => exact hns
    | some h => exact .cons h hns

end

/-- The tree that is read back is as deep as that of the complete conditions. -/
theorem Tree.depth_canonical (t : Tree ι) : (t.canonical d).depth = (t.kept .complete).depth := by
  rw [depth, depth, canonical, kept, Node.maxDepth_eq_of_forall₂ (Node.depth_allCanonical d _)]

end Canonical

/-! ## Whole texts -/

namespace Reading

variable {limits : Limits}

/-- Words in matching parentheses cannot be read just if there is no room for their levels. -/
theorem exists_error_iff {ws : List Word} (hws : ws ≠ []) (hb : balanced 0 ws = true)
    (ht : ∀ r, ofWords limits ws = .ok r → ∀ n, .timeout n ∉ r.warnings) :
    (∃ e, ofWords limits ws = .error e) ↔ (top limits ws).result = none := by
  have hne : balanced 0 ws ≠ false := by
    rw [hb]
    decide
  unfold top
  rw [ofWords, if_neg hws, if_neg hne] at ht ⊢
  dsimp only at ht ⊢
  split_ifs at ht ⊢ with hlt
  · exact absurd List.mem_cons_self (ht _ rfl _)
  · split
    · next hnone => exact iff_of_true ⟨_, rfl⟩ hnone
    · next hsome => simp [hsome]
    · next hsome => simp [hsome]

end Reading

/-- A tree of which something is written is written as a level in parentheses, which is as deep as
the tree. -/
theorem Tree.exists_derives {d : Dialect} {t : Tree ι} (hraw : t.RawFree)
    (hne : Node.allCanonical d t.children ≠ []) (room : Nat) : ∃ ts,
      (Word.ofText d.backslashEscapes ((Printer.plain ι d room).tree t)).map token =
        .leftParen :: (ts ++ [.rightParen]) ∧
      Level.Derives t.depth ts ⟨(t.canonical d).logic, (t.canonical d).children⟩ := by
  obtain ⟨ts, hts, hlevel⟩ := (Node.allStand d room t.children hraw).spells_join hne t.logic
  rw [Nat.add_comm] at hlevel
  exact ⟨ts, hts.tokens_eq, hlevel⟩

theorem Tree.tree_eq_empty {d : Dialect} {t : Tree ι} (hraw : t.RawFree)
    (hnil : Node.allCanonical d t.children = []) (room : Nat) :
    (Printer.plain ι d room).tree t = "" := by
  have hs := Node.allStand d room t.children hraw
  rw [hnil] at hs
  rw [Printer.tree, List.forall₂_nil_right_iff.1 hs]
  rfl

namespace Reading

variable {limits : Limits} {t : Tree ι}

/-- There is no room for what is written of a tree just if the tree that is read back is too deep.
It is written as the same text, and as a level that is no deeper than itself. -/
theorem top_tree (hraw : t.RawFree) (hne : Node.allCanonical limits.dialect t.children ≠ [])
    (room : Nat) :
    let ws := Word.ofText limits.dialect.backslashEscapes
      ((Printer.plain ι limits.dialect room).tree t)
    ws ≠ [] ∧ balanced 0 ws = true ∧
      ((top limits ws).result = none ↔ limits.maxDepth < (t.canonical limits.dialect).depth) := by
  intro ws
  obtain ⟨ts, hts, hlevel⟩ := Tree.exists_derives hraw hne room
  have hws : ws ≠ [] := by
    intro hnil
    rw [show Word.ofText _ _ = [] from hnil] at hts
    cases hts
  have hraw' : (t.canonical limits.dialect).RawFree := hlevel.rawFree
  -- the derivation of the tree itself gives what is read, that of its canonical form how deep it is
  have htree := @Tree.tree_canonical _ limits.dialect room t hraw
  have hne' : Node.allCanonical limits.dialect (t.canonical limits.dialect).children ≠ [] := by
    intro hnil
    have hempty := Tree.tree_eq_empty hraw' hnil room
    rw [htree] at hempty
    rw [hempty, Word.ofText, String.toList_empty, Piece.ofText] at hts
    cases hts
  obtain ⟨ts', hts', hlevel'⟩ := Tree.exists_derives hraw' hne' room
  rw [htree] at hts'
  have hnumerals := Word.numerals_ofText limits.dialect.backslashEscapes
    ((Printer.plain ι limits.dialect room).tree t)
  have hn : Token.Numerals ts := by
    rw [hts] at hnumerals
    exact hnumerals.tail.left
  have hn' : Token.Numerals ts' := by
    rw [hts'] at hnumerals
    exact hnumerals.tail.left
  obtain ⟨hb, hgives⟩ := @top_of_parenthesized limits ws _ _ _ hlevel hn hts
  obtain ⟨-, hgives'⟩ := @top_of_parenthesized limits ws _ _ _ hlevel' hn' hts'
  refine ⟨hws, hb, fun hnone => ?_, fun hlt => ?_⟩
  · obtain h | ⟨h, -⟩ := hgives'
    · rw [hnone] at h
      cases h
    · exact h
  · obtain h | ⟨-, h⟩ := hgives
    · exact absurd (depth_readLevel_le _ h) (Nat.not_le.2 hlt)
    · exact h

/-- The text of a tree cannot be read just if the tree is too deep without what is not written. -/
theorem exists_error_tree_iff (hraw : t.RawFree) (hmax : 1 ≤ limits.maxDepth) (room : Nat)
    (ht : ∀ r, ofText limits ((Printer.plain ι limits.dialect room).tree t) = .ok r →
      ∀ n, .timeout n ∉ r.warnings) :
    (∃ e, ofText limits ((Printer.plain ι limits.dialect room).tree t) = .error e) ↔
      limits.maxDepth < (t.kept .complete).depth := by
  rw [← Tree.depth_canonical limits.dialect]
  by_cases hne : Node.allCanonical limits.dialect t.children = []
  · rw [Tree.tree_eq_empty hraw hne, ofText_empty, Tree.depth, Tree.canonical, hne]
    refine iff_of_false ?_ (Nat.not_lt.2 hmax)
    rintro ⟨e, he⟩
    cases he
  · obtain ⟨hws, hb, hroom⟩ := top_tree hraw hne room
    rw [← hroom]
    exact exists_error_iff hws hb ht

/-- The text of a group is checked for its depth, unless it has no tokens. -/
theorem depth_node_le_iff {text : String} {r : Reading} {k : Logic} {cs : List (Node Unit)}
    (hr : ofText limits text = .ok r) (hnode : r.node = .group () k cs) :
    (r.node.depth ≤ limits.maxDepth ↔ limits.maxDepth ≠ 0 ∨ limits.tokens text ≠ []) ∧
      ∀ n ∈ cs, n.Full := by
  obtain ⟨hnil, rfl⟩ | ⟨-, rfl⟩ | rfl | ⟨-, l, warnings, htop, rfl⟩ := ofWords_cases hr
  · obtain ⟨-, -, rfl⟩ := Node.group.inj hnode
    rw [Limits.tokens, hnil]
    refine ⟨?_, fun n hn => absurd hn List.not_mem_nil⟩
    rw [List.map_nil, or_iff_left (not_not_intro rfl)]
    exact Nat.one_le_iff_ne_zero
  · cases hnode
  · cases hnode
  · cases l with
    | none => cases hnode
    | some l =>
      obtain ⟨-, -, rfl⟩ := Node.group.inj hnode
      have hle := depth_readLevel_le _ htop
      exact ⟨iff_of_true hle (.inl (by omega)), full_readLevel _ htop⟩

theorem eq_of_error {ws : List Word} {e : Error} (he : ofWords limits ws = .error e) :
    e = .nestingTooDeep (limits.maxDepth + 1) limits.maxDepth := by
  simp only [ofWords] at he
  split_ifs at he
  split at he
  · exact (Except.error.inj he).symm
  · cases he
  · cases he

/-- **Nesting** is counted alike by the reader and the printer. A text cannot be read only because
of the first level too many; a group that is read has no empty group in it and is not too deep, so
that the check at the end finds nothing, unless the text has no tokens. What a tree is written as
cannot be read just if the tree is too deep without its incomplete conditions and empty groups. -/
theorem depth_agrees (limits : Limits) :
    (∀ ws l m, Metered.level limits 1 ws {} = (.ok (some l), m) →
      1 + Node.maxDepth l.children ≤ limits.maxDepth) ∧
    (∀ text, (meter limits text).outcome = ofText limits text ∧
      (∀ e, (meter limits text).outcome = .error e →
        e = .nestingTooDeep (limits.maxDepth + 1) limits.maxDepth) ∧
      ∀ r k cs, (meter limits text).outcome = .ok r → r.node = .group () k cs →
        (r.node.depth ≤ limits.maxDepth ↔ limits.maxDepth ≠ 0 ∨ limits.tokens text ≠ []) ∧
          ∀ n ∈ cs, n.Full) ∧
    ∀ (t : Tree ι) (room : Nat) (sql : String), t.RawFree →
      (Printer.plain ι limits.dialect room).write t = .ok sql → 1 ≤ limits.maxDepth →
        (∀ r, ofText limits sql = .ok r → ∀ n, .timeout n ∉ r.warnings) →
          ((∃ e, ofText limits sql = .error e) ↔ limits.maxDepth < (t.kept .complete).depth) := by
  refine ⟨fun ws l m => Metered.depth_level_le, fun text => ?_,
    fun t room sql hraw hsql hmax ht => ?_⟩
  · rw [outcome_meter]
    exact ⟨rfl, fun e => eq_of_error, fun r k cs => depth_node_le_iff⟩
  · obtain ⟨-, rfl⟩ := Printer.tree_of_write hsql
    exact exists_error_tree_iff hraw hmax room ht

/-- A text without tokens is a group where none is allowed, although one in parentheses is not. -/
theorem exists_deeper_than_allowed :
    (∃ r, (meter { maxDepth := 0 } "").outcome = .ok r ∧ r.node = .group () .and [] ∧
      ¬ r.node.depth ≤ 0) ∧
      ofText { maxDepth := 0 } "()" = .error (.nestingTooDeep 1 0) := by
  refine ⟨⟨⟨.group () .and [], []⟩, ?_, rfl, Nat.not_succ_le_self 0⟩, ?_⟩
  · rw [outcome_meter]
    exact ofText_empty { maxDepth := 0 }
  · cbv

/-- A group with nothing but an empty group and an incomplete condition in it does not count. -/
theorem depth_agrees_group : ∃ (t : Tree Nat) (sql : String),
    (Printer.plain Nat .duckdb 3).write t = .ok sql ∧ t.depth = 3 ∧
      (∃ e, ofText { maxDepth := 1 } sql = .error e) ∧
      (¬ ∃ e, ofText { maxDepth := 2 } sql = .error e) ∧
      ∃ r k cs, ofText { maxDepth := 2 } sql = .ok r ∧ r.node = .group () k cs ∧
        r.node.depth ≤ 2 := by
  let t : Tree Nat := ⟨0, .or, [.group 1 .and [.group 2 .and [],
    .condition 3 ⟨"", "", .isNull, none, none, .atWhere⟩], .group 4 .or [.condition 5
      ⟨"", "a", .eq, some (.single (.integer 1)), none, .atWhere⟩]]⟩
  have hraw : t.RawFree := by
    unfold Tree.RawFree Node.AllRawFree
    decide +kernel
  have hwrite : (Printer.plain Nat .duckdb 3).write t = .ok "((\"a\" = 1))" := by
    decide +kernel
  have hshort : (ofText { maxDepth := 1 } "((\"a\" = 1))").isOk = false := by
    decide +kernel
  have hread : ofText { maxDepth := 2 } "((\"a\" = 1))" = .ok ⟨.group () .and [.group () .and
      [.condition () ⟨"", "a", .eq, some (.single (.integer 1)), none, .atWhere⟩]], []⟩ := by
    cbv
  obtain ⟨-, -, hone⟩ := @depth_agrees Nat { maxDepth := 1 }
  obtain ⟨-, htexts, htwo⟩ := @depth_agrees Nat { maxDepth := 2 }
  obtain ⟨houtcome, -, hgroup⟩ := htexts "((\"a\" = 1))"
  refine ⟨t, _, hwrite, rfl, ?_, ?_, _, _, _, hread, rfl, ?_⟩
  · refine (hone t 3 _ hraw hwrite (Nat.le_refl 1) fun r hr => ?_).2 (by decide +kernel)
    rw [hr] at hshort
    cases hshort
  · refine fun h => absurd ((htwo t 3 _ hraw hwrite (Nat.le_succ 1) fun r hr => ?_).1 h)
      (by decide +kernel)
    rw [hread] at hr
    rw [← Except.ok.inj hr]
    exact fun _ => List.not_mem_nil
  · exact (hgroup _ _ _ (houtcome.trans hread) rfl).1.2 (.inl (Nat.succ_ne_zero 1))

end Reading

end SqlFilter
