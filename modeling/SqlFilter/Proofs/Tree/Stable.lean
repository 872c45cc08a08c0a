import SqlFilter.Proofs.Tree.Open

/-!
# Texts whose SQL is stable

The SQL of what is read from a text is to be read as what it is written from again.
-/

namespace SqlFilter

open Piece Word

namespace Tree

variable {ι : Type} (p : Printer ι)

/-- How many levels deep the text of the tree is read. -/
def writtenDepth (t : Tree ι) : Nat := p.levelDepth t.children (Node.maxWrittenDepth p t.children)

/-- Parentheses are lost when the text of the tree is read. -/
def loses (t : Tree ι) : Bool := p.losesAlone t.children || Node.anyLoses p t.children

end Tree

/-- The text is read without running out of steps, and what is read is written as the text. -/
def Limits.Restores (limits : Limits) (sql : String) : Prop :=
  ∃ r, Reading.ofText limits sql = .ok r ∧ (∀ n, .timeout n ∉ r.warnings) ∧
    limits.printer.write r.root = .ok sql

namespace Printer

variable (p : Printer Unit)

theorem tree_eq_parenthesized {t : Tree Unit} (hne : p.members t.children ≠ []) :
    p.tree t = parenthesized (inner t.logic (p.members t.children)) :=
  join_eq_parenthesized t.logic hne

end Printer

namespace Reading

variable {limits : Limits}

theorem ne_empty_of_written {escapes : Bool} {s : String} {ws : List Word}
    (h : Written escapes s.toList ws) : s ≠ "" := by
  rintro rfl
  obtain ⟨c, cs, hcs, -⟩ := h.solid
  cases hcs

/-- Text that is kept as a whole gets further parentheses. -/
theorem write_raw_ne {escapes : Bool} {sql : String} {ws : List Word}
    (h : Written escapes sql.toList ws) (warnings : List Warning) :
    limits.printer.write (⟨.raw () sql, warnings⟩ : Reading).root ≠ .ok sql := by
  intro hw
  have hne : Text.trim sql ≠ "" := by
    rw [h.trim_eq]
    exact ne_empty_of_written h
  have htree := @Printer.tree_raw Unit limits.printer () () sql hne
  rw [h.trim_eq] at htree
  exact Printer.parenthesized_ne sql (htree.symm.trans (Printer.tree_of_write hw).2)

/-- Written text is restored only if it is understood. -/
theorem exists_top_of_restores {sql : String} {ws : List Word}
    (h : Written limits.dialect.backslashEscapes sql.toList ws) (hr : limits.Restores sql) :
    balanced 0 ws = true ∧ ∃ l warnings, (top limits ws).result = some (some l, warnings) ∧
      limits.printer.tree ⟨(), l.logic, l.children⟩ = sql := by
  obtain ⟨r, hr, htime, hw⟩ := hr
  rw [ofText, h.ofText_eq] at hr
  obtain ⟨rfl, -⟩ | ⟨-, rfl⟩ | rfl | ⟨hb, l, warnings, htop, rfl⟩ := ofWords_cases hr
  · exact absurd rfl h.ne_nil
  · rw [h.source_eq] at hw
    exact absurd hw (write_raw_ne h _)
  · exact absurd (List.mem_singleton_self _) (htime _)
  · cases l with
    | none =>
      dsimp only at hw
      rw [h.source_eq] at hw
      exact absurd hw (write_raw_ne h _)
    | some l => exact ⟨hb, l, warnings, htop, (Printer.tree_of_write hw).2⟩

section Tree

variable {t : Tree Unit}

theorem tree_eq_parenthesized_of_visible {p : Printer Unit} (hne : p.visible t.children ≠ []) :
    p.tree t = Printer.parenthesized (Printer.inner t.logic (p.members t.children)) := by
  refine Printer.tree_eq_parenthesized p fun hnil => hne ?_
  rwa [Printer.members_eq_map_visible, List.map_eq_nil_iff] at hnil

/-- What the text of a tree is read as is written as the same text just if no parentheses are
lost. -/
theorem tree_eq_iff_of_levelMatches {p : Printer Unit} (hne : p.visible t.children ≠ []) {l : Level}
    (h : p.LevelMatches t.logic t.children (some l)) :
    p.tree ⟨(), l.logic, l.children⟩ = p.tree t ↔ t.loses p = false := by
  obtain ⟨-, hmembers, hshrunk⟩ := h
  rw [Printer.tree_eq_parenthesized p hmembers, tree_eq_parenthesized_of_visible hne]
  exact ⟨fun heq => hshrunk.eq_iff.1 (Printer.parenthesized_inj heq),
    fun hlost => congrArg Printer.parenthesized (hshrunk.eq_iff.2 hlost)⟩

/-- The text of a tree is read as a level that matches it, if there is room. -/
theorem exists_top_tree
    (hkept : ∀ n ∈ t.children, n.RawsKept limits.dialect.backslashEscapes)
    (hne : limits.printer.visible t.children ≠ []) : ∃ vs,
      Written limits.dialect.backslashEscapes (limits.printer.tree t).toList (parenthesized vs) ∧
        balanced 0 vs = true ∧ (top limits (parenthesized vs)).Meets
          (limits.maxDepth < t.writtenDepth limits.printer)
          (limits.printer.LevelMatches t.logic t.children) := by
  have hagain := Node.forall_again (p := limits.printer) rfl t.children hkept
  obtain ⟨vs, hvs, hb, hmeets⟩ := @levelAgain limits.printer t.logic t.children
    (fun n hn => ⟨hkept n hn, hagain n hn⟩) hne
  refine ⟨vs, ?_, hb, ?_⟩
  · rw [tree_eq_parenthesized_of_visible hne, Printer.toList_parenthesized]
    exact hvs.parenthesized
  · rw [top, unwrap?_parentheses hb]
    exact hmeets limits.maxDepth

/-- Nothing can be lost of a tree that is written as nothing. -/
theorem restores_tree_of_visible_eq_nil (hpos : 1 ≤ limits.maxDepth)
    (hnil : limits.printer.visible t.children = []) :
    limits.Restores (limits.printer.tree t) ∧ t.writtenDepth limits.printer ≤ limits.maxDepth ∧
      limits.printer.loneClash t.children = false ∧ t.loses limits.printer = false := by
  have htree : limits.printer.tree t = "" := by
    rw [Printer.tree, Printer.members_eq_map_visible, hnil]
    rfl
  refine ⟨⟨_, htree ▸ ofText_empty limits, fun _ => List.not_mem_nil, ?_⟩, ?_, ?_, ?_⟩
  · rw [htree]
    exact Printer.write_of_depth_le _ hpos
  · rw [Tree.writtenDepth, Printer.levelDepth, ← Node.maxWrittenDepth_visible, hnil]
    exact hpos
  · rw [Printer.loneClash, hnil]
  · rw [Tree.loses, Printer.losesAlone, ← Node.anyLoses_visible, hnil]
    rfl

/-- The text of a tree is restored just if there is room for it, it is understood, and no
parentheses are lost. -/
theorem restores_tree_iff (ht : t.depth ≤ limits.maxDepth)
    (hkept : ∀ n ∈ t.children, n.RawsKept limits.dialect.backslashEscapes)
    (hexp : limits.expired = false)
    (hsteps : (limits.tokens (limits.printer.tree t)).length * (limits.maxDepth + 1) ≤
      limits.stepBudget) :
    limits.Restores (limits.printer.tree t) ↔ t.writtenDepth limits.printer ≤ limits.maxDepth ∧
      limits.printer.loneClash t.children = false ∧ t.loses limits.printer = false := by
  by_cases hne : limits.printer.visible t.children = []
  · have h := restores_tree_of_visible_eq_nil ((Nat.le_add_right 1 _).trans ht) hne
    exact iff_of_true h.1 h.2
  · obtain ⟨vs, hwritten, hb, hmeets⟩ := exists_top_tree hkept hne
    constructor
    · intro hr
      obtain ⟨-, l, warnings, hl, hsame⟩ := exists_top_of_restores hwritten hr
      by_cases hs : limits.maxDepth < t.writtenDepth limits.printer
      · cases (hmeets.1 hs).symm.trans hl
      · obtain ⟨_, _, hl', hmatch⟩ := hmeets.2 hs
        obtain ⟨rfl, -⟩ := Prod.mk.inj (Option.some.inj (hl.symm.trans hl'))
        exact ⟨Nat.not_lt.1 hs, hmatch.1, (tree_eq_iff_of_levelMatches hne hmatch).1 hsame⟩
    · rintro ⟨hroom, hclash, hlost⟩
      obtain ⟨l, warnings, hl, hmatch⟩ := hmeets.2 (Nat.not_lt.2 hroom)
      cases l with
      | none => exact absurd (hclash.symm.trans hmatch) Bool.false_ne_true
      | some l =>
        rw [Limits.tokens, List.length_map, hwritten.ofText_eq] at hsteps
        have hread := ofWords_of_top hwritten.ne_nil (passed_parentheses hb).1
          (steps_top_le hexp hsteps) hl
        rw [← hwritten.ofText_eq] at hread
        have hbody := hl
        rw [top, unwrap?_parentheses hb] at hbody
        refine ⟨_, hread, fun n => (isLocal_readLevel _ _).timeout_notMem hbody n, ?_⟩
        rw [← (tree_eq_iff_of_levelMatches hne hmatch).2 hlost]
        exact Printer.write_of_depth_le _ (depth_readLevel_le _ hbody)

end Tree

/-! ## Texts that are understood -/

section Intact

variable {ws : List Word}

theorem rawsKept_of_top (h : Intact limits.dialect.backslashEscapes ws) {l : Level}
    {warnings : List Warning} (hl : (top limits ws).result = some (some l, warnings)) :
    ∀ n ∈ l.children, n.RawsKept limits.dialect.backslashEscapes := by
  have hbody : Intact limits.dialect.backslashEscapes ((unwrap? ws).getD ws) := by
    cases hu : unwrap? ws with
    | none => exact h
    | some body => exact h.body hu
  exact rawsKept_readLevel _ hbody hl

theorem rawsKept_of_understood {text : String} {r : Reading} (hr : ofText limits text = .ok r)
    (hclosed : ∀ w ∈ Word.ofText limits.dialect.backslashEscapes text, w.isOpen = false)
    (hnode : r.node.isRaw = false) :
    ∀ n ∈ r.root.children, n.RawsKept limits.dialect.backslashEscapes := by
  obtain ⟨-, hroot⟩ | ⟨hb, l, warnings, htop, hroot⟩ := understood_cases hr hnode
  · rw [hroot]
    exact fun n hn => absurd hn List.not_mem_nil
  · rw [hroot]
    exact rawsKept_of_top ⟨inText_ofText _ text, hb, hclosed⟩ htop

/-! ## Texts that are kept as a whole -/

/-- A level in parentheses that is not clear is no clear level without them either. -/
theorem level_of_parenthesized {body : List Word} (hu : unwrap? ws = some body)
    (hclear : (Split.ofWords body).1.isClear = false) {room : Nat} {l : Option Level}
    {warnings : List Warning} (hl : (readLevel room ws).result = some (l, warnings)) :
    l = some ⟨.and, [.raw () (source body)]⟩ := by
  obtain ⟨o, c, rfl, ho, hc, hb⟩ := unwrap?_eq_some_iff.1 hu
  have hlevel : (Split.ofWords (o :: (body ++ [c]))).1 = .parts .and [o :: (body ++ [c])] :=
    Split.ofWords_eq_of_cut (cut_last (passed_parenthesized ho hc hb).2)
      (List.forall_mem_singleton.2 (List.cons_ne_nil _ _)) fun _ => rfl
  cases room with
  | zero => cases hl
  | succ room =>
    rw [result_readLevel_of_parts hlevel, List.map_singleton, Attempt.collect] at hl
    cases room with
    | zero =>
      simp only [readPart, hu, readLevel, Option.map_none] at hl
      cases hl
    | succ room =>
      obtain ⟨w, hread⟩ := @exists_result_readLevel body room hclear
      rw [result_readPart_of_unwrap? hu hread] at hl
      exact (congrArg Prod.fst (Option.some.inj hl)).symm

/-- A level is understood just if it is clear. -/
theorem isClear_of_readLevel {room : Nat} {l : Option Level} {warnings : List Warning}
    (h : (readLevel room ws).result = some (l, warnings)) :
    (Split.ofWords ws).1.isClear = l.isSome := by
  cases room with
  | zero => cases h
  | succ room =>
    obtain ⟨rfl, hclear⟩ | ⟨_, _, _, _, rfl, hs, -⟩ := readLevel_cases h
    · exact hclear
    · rw [hs]
      rfl

/-- What is written of a level has matching parentheses. -/
theorem balanced_of_tree_eq {l : Level} {s : String}
    (hkept : ∀ n ∈ l.children, n.RawsKept limits.dialect.backslashEscapes)
    (hs : Written limits.dialect.backslashEscapes s.toList ws)
    (hsame : limits.printer.tree ⟨(), l.logic, l.children⟩ = Printer.parenthesized s) :
    Printer.inner l.logic (limits.printer.members l.children) = s ∧ balanced 0 ws = true := by
  have hmembers : limits.printer.members l.children ≠ [] := by
    intro hnil
    rw [Printer.tree, hnil] at hsame
    exact Printer.parenthesized_ne_empty _ hsame.symm
  have hvisible : limits.printer.visible l.children ≠ [] := by
    rwa [Printer.members_eq_map_visible, Ne, List.map_eq_nil_iff] at hmembers
  rw [Printer.tree_eq_parenthesized _ hmembers] at hsame
  have hinner := Printer.parenthesized_inj hsame
  have hagain := Node.forall_again (p := limits.printer) rfl l.children hkept
  obtain ⟨vs, hvs, hb, -⟩ := @levelAgain limits.printer l.logic l.children
    (fun n hn => ⟨hkept n hn, hagain n hn⟩) hvisible
  rw [hinner] at hvs
  obtain rfl : ws = vs := hs.ofText_eq.symm.trans hvs.ofText_eq
  exact ⟨hinner, hb⟩

/-- Text less its parentheses is another text. -/
theorem inner_source_ne {s : String} {body : List Word}
    (hs : Written limits.dialect.backslashEscapes s.toList ws) (hu : unwrap? ws = some body)
    (hbody : Intact limits.dialect.backslashEscapes body) (hne : body ≠ []) :
    Printer.inner .and (limits.printer.members [.raw () (source body)]) ≠ s := by
  rintro rfl
  obtain ⟨ys, hys, htokens⟩ := exists_written hbody.inText hne hbody.closed
  have hnode : limits.printer.node (.raw () (source body)) = source body := hys.trim_eq
  have hnodes : limits.printer.members [.raw () (source body)] = [⟨source body, true⟩] := by
    rw [Printer.members, hnode, if_neg (ne_empty_of_written hys)]
    rfl
  rw [hnodes] at hs
  obtain rfl : ws = ys := hs.ofText_eq.symm.trans hys.ofText_eq
  have hlen := congrArg List.length htokens
  have := length_of_unwrap? hu
  rw [List.length_map, List.length_map] at hlen
  omega

/-- Text that is not understood as a whole is kept in parentheses, and then it is either not
understood again or written without them. -/
theorem not_restores_of_source (h : InText limits.dialect.backslashEscapes ws) (hne : ws ≠ [])
    (hclosed : ∀ w ∈ ws, w.isOpen = false)
    (hraw : balanced 0 ws = false ∨ ∃ warnings, (top limits ws).result = some (none, warnings)) :
    ¬ limits.Restores (Printer.parenthesized (source ws)) := by
  intro hr
  obtain ⟨zs, hzs, htokens⟩ := exists_written h hne hclosed
  have hsql : Written limits.dialect.backslashEscapes
      (Printer.parenthesized (source ws)).toList (parenthesized zs) := by
    rw [Printer.toList_parenthesized]
    exact hzs.parenthesized
  obtain ⟨hb, l, warnings, htop, hsame⟩ := exists_top_of_restores hsql hr
  have hin : Intact limits.dialect.backslashEscapes (parenthesized zs) :=
    ⟨hsql.ofText_eq ▸ inText_ofText _ _, hb, hsql.isOpen_eq⟩
  obtain ⟨hinner, hbz⟩ := balanced_of_tree_eq (rawsKept_of_top hin htop) hzs hsame
  obtain ⟨_, hlevel⟩ := hraw.resolve_left (by
    rw [← balanced_congr htokens, hbz]
    exact Bool.true_eq_false.mp)
  rw [top, unwrap?_parentheses hbz, Option.getD_some] at htop
  rw [top] at hlevel
  -- words without parentheses around them are understood both times or never, and with them the
  -- second pair is lost
  cases hu : unwrap? ws with
  | none =>
    rw [hu, Option.getD_none] at hlevel
    have hclear := (isClear_of_readLevel htop).symm.trans
      ((Split.isClear_congr htokens).trans (isClear_of_readLevel hlevel))
    exact absurd hclear Bool.true_eq_false.mp
  | some body =>
    rw [hu, Option.getD_some] at hlevel
    obtain ⟨zbody, hzu, hbody⟩ := exists_unwrap?_congr htokens.symm hu
    have hclear := (Split.isClear_congr hbody).trans (isClear_of_readLevel hlevel)
    obtain rfl := Option.some.inj (level_of_parenthesized hzu hclear htop)
    refine inner_source_ne hzs hzu ((hin.body (unwrap?_parentheses hbz)).body hzu) ?_ hinner
    rintro rfl
    exact absurd hclear (by decide)

end Intact

/-! ## All texts -/

/-- Why a text is kept as a whole. -/
theorem eq_of_isRaw {text : String} {r : Reading} (hr : ofText limits text = .ok r)
    (ht : ∀ n, .timeout n ∉ r.warnings) (hraw : r.node.isRaw = true) :
    let ws := Word.ofText limits.dialect.backslashEscapes text
    r.root = ⟨(), .and, [.raw () (source ws)]⟩ ∧ ws ≠ [] ∧
      (balanced 0 ws = false ∨ ∃ warnings, (top limits ws).result = some (none, warnings)) := by
  intro ws
  obtain ⟨hne, hroot⟩ := root_of_isRaw hr hraw
  refine ⟨hroot, hne, ?_⟩
  obtain ⟨hnil, -⟩ | ⟨hb, -⟩ | rfl | ⟨-, l, warnings, htop, rfl⟩ := ofWords_cases hr
  · exact absurd hnil hne
  · exact .inl hb
  · exact absurd (List.mem_singleton_self _) (ht _)
  · cases l with
    | none => exact .inr ⟨warnings, htop⟩
    | some l => exact absurd hraw Bool.false_ne_true

/-- What it takes for the SQL of what is read from a text to be read as such again. -/
structure Settled (limits : Limits) (text : String) (r : Reading) : Prop where
  /-- The text is not kept as a whole. -/
  understood : r.node.isRaw = false
  /-- No literal is left open. -/
  closed : ∀ w ∈ Word.ofText limits.dialect.backslashEscapes text, w.isOpen = false
  /-- There is room for the parentheses that raw SQL is written in. -/
  shallow : r.root.writtenDepth limits.printer ≤ limits.maxDepth
  /-- Raw SQL that is written as a whole is a clear level. -/
  clear : limits.printer.loneClash r.root.children = false
  /-- No parentheses are lost. -/
  kept : r.root.loses limits.printer = false

/-- **Stable texts.** The SQL of what is read from a text is read again, within the limits and with
steps enough, and written as the same SQL, exactly if the text is settled. -/
theorem restores_iff_settled {limits : Limits} {text sql : String} {r : Reading} {steps : Nat}
    (hr : ofText limits text = .ok r) (ht : ∀ n, .timeout n ∉ r.warnings)
    (hw : limits.printer.write r.root = .ok sql)
    (hsteps : (limits.tokens sql).length * (limits.maxDepth + 1) ≤ steps) :
    ({ limits with stepBudget := steps, expired := false } : Limits).Restores sql ↔
      r.Settled limits text := by
  obtain ⟨hdepth, rfl⟩ := Printer.tree_of_write hw
  by_cases hclosed : ∀ w ∈ Word.ofText limits.dialect.backslashEscapes text, w.isOpen = false
  · cases hnode : r.node.isRaw with
    | false =>
      have hkept := rawsKept_of_understood hr hclosed hnode
      refine (@restores_tree_iff { limits with stepBudget := steps, expired := false } r.root hdepth
        hkept rfl hsteps).trans ⟨?_, fun h => ⟨h.shallow, h.clear, h.kept⟩⟩
      rintro ⟨hshallow, hclear, hlost⟩
      exact ⟨hnode, hclosed, hshallow, hclear, hlost⟩
    | true =>
      refine iff_of_false ?_ fun h => Bool.false_ne_true (h.understood.symm.trans hnode)
      obtain ⟨hroot, hne, hwhy⟩ := eq_of_isRaw hr ht hnode
      have hin := inText_ofText limits.dialect.backslashEscapes text
      obtain ⟨zs, hzs, -⟩ := exists_written hin hne hclosed
      have htrim := hzs.trim_eq
      rw [hroot, Printer.tree_raw _ (htrim.symm ▸ ne_empty_of_written hzs), htrim]
      exact not_restores_of_source hin hne hclosed hwhy
  · refine iff_of_false ?_ fun h => hclosed h.closed
    obtain ⟨ws, w, hws, ho⟩ := exists_ofText_concat hclosed
    obtain ⟨hu, d, htrails⟩ := exists_trails hr hws ho
    rintro ⟨r', hr', -, hw'⟩
    exact @not_eq_of_trails { limits with stepBudget := steps, expired := false } _ _ _ hu htrails
      r' hr' (Printer.tree_of_write hw').2

theorem restores_iff_settled_raw : ∃ r : Reading,
    ofText {} "(a = 1 OR b = 2 AND c = 3) AND d = 4" = .ok r ∧
      r.root.children = [.raw () "a = 1 OR b = 2 AND c = 3",
        .condition () ⟨"", "d", .eq, some (.single (.integer 4)), none, .atWhere⟩] ∧
      ({} : Limits).printer.write r.root = .ok "((a = 1 OR b = 2 AND c = 3) AND \"d\" = 4)" ∧
      ({} : Limits).Restores "((a = 1 OR b = 2 AND c = 3) AND \"d\" = 4)" := by
  have hr : ofText {} "(a = 1 OR b = 2 AND c = 3) AND d = 4" =
      .ok ⟨.group () .and [.raw () "a = 1 OR b = 2 AND c = 3",
        .condition () ⟨"", "d", .eq, some (.single (.integer 4)), none, .atWhere⟩],
        [.ambiguous "a = 1 OR b = 2 AND c = 3"]⟩ := by
    cbv
  have hw : ({} : Limits).printer.write (⟨(), .and, [.raw () "a = 1 OR b = 2 AND c = 3",
      .condition () ⟨"", "d", .eq, some (.single (.integer 4)), none, .atWhere⟩]⟩ : Tree Unit) =
      .ok "((a = 1 OR b = 2 AND c = 3) AND \"d\" = 4)" := by
    decide +kernel
  refine ⟨_, hr, rfl, hw, (restores_iff_settled hr ?_ hw (by decide +kernel)).2 ?_⟩
  · intro n hn
    cases List.mem_singleton.1 hn
  · constructor <;> decide +kernel

/-- A text that is ambiguous as a whole is kept with one more pair of parentheses each time it is
read and written. -/
theorem exists_not_restores : ∃ (r again : Reading),
    ofText {} "a = 1 OR b = 2 AND c = 3" = .ok r ∧ (∀ n, .timeout n ∉ r.warnings) ∧
      ({} : Limits).printer.write r.root = .ok "(a = 1 OR b = 2 AND c = 3)" ∧
      ofText {} "(a = 1 OR b = 2 AND c = 3)" = .ok again ∧ (∀ n, .timeout n ∉ again.warnings) ∧
      ({} : Limits).printer.write again.root = .ok "((a = 1 OR b = 2 AND c = 3))" := by
  have hr : ofText {} "a = 1 OR b = 2 AND c = 3" =
      .ok ⟨.raw () "a = 1 OR b = 2 AND c = 3", [.ambiguous "a = 1 OR b = 2 AND c = 3"]⟩ := by
    cbv
  have hagain : ofText {} "(a = 1 OR b = 2 AND c = 3)" =
      .ok ⟨.raw () "(a = 1 OR b = 2 AND c = 3)", [.ambiguous "a = 1 OR b = 2 AND c = 3"]⟩ := by
    cbv
  refine ⟨_, _, hr, ?_, by decide +kernel, hagain, ?_, by decide +kernel⟩ <;>
    intro n hn <;> cases List.mem_singleton.1 hn

end Reading

end SqlFilter
