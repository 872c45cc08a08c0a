import SqlFilter.Proofs.Tree.Stable
import SqlFilter.Tree.Edit

/-!
# Conditions appended to what is read from a text

A condition that is appended to a filter is to restrict it as a whole, whatever was typed before.
The SQL is then cut into the texts of the members, and the last one is that of the condition. This
is so if the parentheses of the typed text match and no literal in it is left open
(`Reading.append_splits`). Text that closes more parentheses than it opens gets out of those that it
is written in (`Reading.exists_append_ambiguous`).
-/

namespace SqlFilter

open Piece Word

namespace Reading

variable {limits : Limits}

/-- Text that is kept as a whole stands in parentheses of its own among others. -/
theorem exists_written_source {ws : List Word} (h : Intact limits.dialect.backslashEscapes ws)
    (hne : ws ≠ []) : ∃ us, Written limits.dialect.backslashEscapes
      (limits.printer.member (.raw () (source ws))).text.toList us ∧ Passed us := by
  obtain ⟨zs, hzs, htokens⟩ := exists_written h.inText hne h.closed
  refine ⟨Word.parenthesized zs, limits.printer.written_text_raw ?_ (), passed_parentheses ?_⟩
  · rwa [hzs.trim_eq]
  · rw [balanced_congr htokens, h.balanced]

/-- All that is read from a text can be told apart from what it is joined to. -/
theorem exists_written_member {text : String} {r : Reading} (hr : ofText limits text = .ok r)
    (h : Intact limits.dialect.backslashEscapes
      (Word.ofText limits.dialect.backslashEscapes text)) :
    ∀ n ∈ r.root.children, limits.printer.node n ≠ "" → ∃ us,
      Written limits.dialect.backslashEscapes (limits.printer.member n).text.toList us ∧
        Passed us := by
  cases hraw : r.node.isRaw with
  | true =>
    obtain ⟨hne, hroot⟩ := root_of_isRaw hr hraw
    intro n hn _
    rw [hroot] at hn
    rw [List.mem_singleton.1 hn]
    exact exists_written_source h hne
  | false =>
    have hkept := rawsKept_of_understood hr h.closed hraw
    intro n hn hnode
    obtain ⟨us, hus, hpassed, -⟩ :=
      Node.forall_again (p := limits.printer) rfl r.root.children hkept n hn hnode
    exact ⟨us, hus, hpassed⟩

/-- **Appended conditions** restrict the whole. If the parentheses of a text match and no literal in
it is left open, the SQL of what is read from it with a condition appended is cut into the texts of
the members, and the last one is that of the condition. -/
theorem append_splits {text : String} {r : Reading} {c : Condition}
    (hr : ofText limits text = .ok r)
    (hmatched : balanced 0 (Word.ofText limits.dialect.backslashEscapes text) = true)
    (hclosed : ∀ w ∈ Word.ofText limits.dialect.backslashEscapes text, w.isOpen = false)
    (hc : c.IsComplete) (hother : ∃ n ∈ r.root.children, limits.printer.node n ≠ "")
    (hdepth : (r.root.append () () c).depth ≤ limits.maxDepth) :
    ∃ sql body others last, limits.printer.write (r.root.append () () c) = .ok sql ∧
      unwrap? (Word.ofText limits.dialect.backslashEscapes sql) = some body ∧
      (Split.ofWords body).1 = .parts r.root.logic (others ++ [last]) ∧
      others.map (List.map Word.token) = (limits.printer.members r.root.children).map (fun m =>
        (Word.ofText limits.dialect.backslashEscapes m.text).map Word.token) ∧
      last.map Word.token = (Word.ofText limits.dialect.backslashEscapes
        (c.sql limits.dialect none)).map Word.token := by
  have hintact : Intact limits.dialect.backslashEscapes
      (Word.ofText limits.dialect.backslashEscapes text) :=
    ⟨inText_ofText _ text, hmatched, hclosed⟩
  obtain ⟨ts, ⟨us, hus, rfl⟩, hderives⟩ := Condition.spells_sql limits.dialect hc
  have hmembers : limits.printer.members (r.root.append () () c).children =
      limits.printer.members r.root.children ++ [⟨c.sql limits.dialect none, false⟩] :=
    limits.printer.members_concat (n := .condition () c) r.root.children (ne_empty_of_written hus)
  have hseveral : 2 ≤ (limits.printer.members (r.root.append () () c).children).length := by
    have hpos : limits.printer.members r.root.children ≠ [] := by
      obtain ⟨n, hn, hne⟩ := hother
      rw [Printer.members_eq_map_visible, Ne, List.map_eq_nil_iff]
      exact List.ne_nil_of_mem (Printer.mem_visible.2 ⟨hn, hne⟩)
    rw [hmembers, List.length_append, List.length_singleton]
    exact Nat.succ_le_succ (List.length_pos_of_ne_nil hpos)
  obtain ⟨body, ps, hbody, hsplit, hparts⟩ := Printer.exists_split_tree hseveral <|
    List.forall_mem_append.2 ⟨exists_written_member hr hintact,
      List.forall_mem_singleton.2 fun _ => ⟨us, hus, hderives.passed rfl⟩⟩
  rw [hmembers, List.map_append, List.map_singleton] at hparts
  obtain ⟨others, lasts, rfl, hothers, hlasts⟩ := List.map_eq_append_iff.1 hparts
  obtain ⟨last, lasts, rfl, hlast, hnil⟩ := List.map_eq_cons_iff.1 hlasts
  obtain rfl := List.map_eq_nil_iff.1 hnil
  exact ⟨_, body, others, last, Printer.write_of_depth_le _ hdepth, hbody, hsplit, hothers, hlast⟩

theorem append_splits_timeout : ∃ (r : Reading) (c : Condition) (body last : List Word)
    (others : List (List Word)),
      ofText { stepBudget := 1 } "a = 1 OR b = 2 -- or" = .ok r ∧ c.IsComplete ∧
        ({} : Limits).printer.write (r.root.append () () c) =
          .ok "((a = 1 OR b = 2) AND \"c\" = 3)" ∧
        unwrap? (Word.ofText false "((a = 1 OR b = 2) AND \"c\" = 3)") = some body ∧
          (Split.ofWords body).1 = .parts .and (others ++ [last]) ∧ others.length = 1 ∧
            last.map Word.token = [.quotedName "c", .eq, .number "3"] := by
  have hr : ofText { stepBudget := 1 } "a = 1 OR b = 2 -- or" =
      .ok ⟨.raw () "a = 1 OR b = 2", [.timeout 2]⟩ := by cbv
  obtain ⟨sql, body, others, last, hwrite, hbody, hsplit, hothers, hlast⟩ :=
    @append_splits _ _ _ ⟨"", "c", .eq, some (.single (.integer 3)), none, .atWhere⟩ hr
      (by decide +kernel) (by decide +kernel) (by decide)
      ⟨_, List.mem_singleton_self _, by decide +kernel⟩ (by decide +kernel)
  obtain rfl : "((a = 1 OR b = 2) AND \"c\" = 3)" = sql := by
    refine Except.ok.inj (Eq.trans ?_ hwrite)
    decide +kernel
  refine ⟨_, _, body, last, others, hr, by decide, hwrite, hbody, hsplit, ?_, ?_⟩
  · have := congrArg List.length hothers
    rw [List.length_map, List.length_map] at this
    exact this.trans (by decide +kernel)
  · exact hlast.trans (by decide +kernel)

/-- Text that closes a parenthesis of its own before it opens one gets out of those that it is
written in, and the condition is taken into an ambiguous level. -/
theorem exists_append_ambiguous : ∃ (r : Reading) (c : Condition) (body : List Word),
    ofText {} "a = 1) OR (b = 2" = .ok r ∧ c.IsComplete ∧ r.root.logic = .and ∧
      (∃ n ∈ r.root.children, ({} : Limits).printer.node n ≠ "") ∧
        ({} : Limits).printer.write (r.root.append () () c) =
          .ok "((a = 1) OR (b = 2) AND \"c\" = 3)" ∧
        unwrap? (Word.ofText false "((a = 1) OR (b = 2) AND \"c\" = 3)") = some body ∧
          (Split.ofWords body).1 = .ambiguous := by
  have hr : ofText {} "a = 1) OR (b = 2" = .ok ⟨.raw () "a = 1) OR (b = 2", [.unbalanced]⟩ := by cbv
  have hbody : (unwrap? (Word.ofText false "((a = 1) OR (b = 2) AND \"c\" = 3)")).map
      (fun body => (Split.ofWords body).1) = some .ambiguous := by decide +kernel
  obtain ⟨body, hbody, hsplit⟩ := Option.map_eq_some_iff.1 hbody
  exact ⟨_, ⟨"", "c", .eq, some (.single (.integer 3)), none, .atWhere⟩, body, hr, by decide, rfl,
    ⟨_, List.mem_singleton_self _, by decide +kernel⟩, by decide +kernel, hbody, hsplit⟩

end Reading

end SqlFilter
