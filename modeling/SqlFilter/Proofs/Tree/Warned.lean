import SqlFilter.Proofs.Tree.Uncommented

/-!
# Warnings and raw SQL

What is kept as raw SQL is reported, and nothing else is: the warnings of a text are about the raw
SQL in its tree, one about each piece and in document order (`Reading.warnings_report`). A text that
is kept as a whole has the one warning that tells why.

The warnings of a level are put together in one place and its members in another. They stay in step
because a group that is left out has no members, and so no warnings either.
-/

namespace SqlFilter

open Word

/-! ## Raw SQL in document order -/

section Raws

variable {ι : Type}

/-- The text of the node if it is raw SQL. -/
def Node.rawSql? : Node ι → Option String
  | .raw _ s => some s
  | _ => none

/-- The raw SQL at and below the nodes in document order. -/
def Node.allRaws (ns : List (Node ι)) : List String := (allLeafNodes ns).filterMap rawSql?

/-- The raw SQL at and below the node in document order. -/
def Node.raws (n : Node ι) : List String := n.leafNodes.filterMap rawSql?

theorem Node.allRaws_append (ns ms : List (Node ι)) :
    allRaws (ns ++ ms) = allRaws ns ++ allRaws ms := by
  rw [allRaws, allLeafNodes_append, List.filterMap_append, allRaws, allRaws]

theorem Node.allRaws_singleton (n : Node ι) : allRaws [n] = n.raws := by
  rw [allRaws, allLeafNodes, allLeafNodes, List.append_nil, raws]

end Raws

/-! ## Reports -/

/-- The warning is about the text as a fragment of what is read. -/
def Warning.Reports : Warning → String → Prop
  | ambiguous fragment, s | unrecognized fragment, s => fragment = s
  | unbalanced, _ | timeout _, _ => False

/-- The raw SQL that a level is kept as, which is the level as a whole if it is not understood. -/
def Level.raws (ws : List Word) : Option Level → List String
  | none => [source ws]
  | some l => Node.allRaws l.children

/-- The warnings of the attempt are about the raw SQL in its result, one about each piece and in the
same order. -/
def Attempt.Reports {α : Type} (a : Attempt α) (raws : α → List String) : Prop :=
  ∀ x warnings, a.result = some (x, warnings) → List.Forall₂ Warning.Reports warnings (raws x)

theorem Attempt.reports_collect {as : List (Attempt (Option (Node Unit)))}
    (h : ∀ a ∈ as, a.Reports fun n => Node.allRaws n.toList) :
    (collect as).Reports Node.allRaws := fun _ _ =>
  collect_induction
    (P := fun ns warnings => List.Forall₂ Warning.Reports warnings (Node.allRaws ns))
    .nil fun a ha n w ms more hn hms => by
      rw [Node.allRaws_append]
      exact List.rel_append (h a ha n w hn) hms

theorem Level.allRaws_node? {l : Level} :
    Node.allRaws l.node?.toList = Node.allRaws l.children := by
  obtain ⟨k, _ | ⟨c, cs⟩⟩ := l
  · rfl
  · exact Node.allRaws_singleton _

/-- What a part is read as is reported, if what stands in its parentheses is. -/
theorem reports_readPart {inner : List Word → Attempt (Option Level)}
    (h : ∀ ws, (inner ws).Reports (Level.raws ws)) (ws : List Word) :
    (readPart inner ws).Reports fun n => Node.allRaws n.toList := by
  intro n warnings hn
  obtain ⟨body, -, hl, rfl⟩ | ⟨body, l, -, hl, rfl⟩ | ⟨c, -, -, rfl, rfl⟩ | ⟨-, -, rfl, rfl⟩ :=
    readPart_outcomes hn
  · exact h body none warnings hl
  · show List.Forall₂ _ _ (Node.allRaws l.node?.toList)
    rw [Level.allRaws_node?]
    exact h body (some l) warnings hl
  · exact .nil
  · exact .cons rfl .nil

/-- **Levels** report what they keep as raw SQL, themselves included. -/
theorem reports_readLevel (room : Nat) (ws : List Word) :
    (readLevel room ws).Reports (Level.raws ws) := by
  induction room generalizing ws with
  | zero => exact nofun
  | succ room ih =>
    intro l warnings hl
    obtain ⟨rfl, ⟨-, rfl⟩ | ⟨-, rfl⟩⟩ | ⟨k, ps, n, ns, rfl, -, hns⟩ := readLevel_outcomes hl
    · exact .cons rfl .nil
    · exact .cons rfl .nil
    · refine Attempt.reports_collect (fun a ha => ?_) ns warnings hns
      obtain ⟨p, -, rfl⟩ := List.mem_map.1 ha
      exact reports_readPart ih p

/-! ## Whole texts -/

namespace Reading

variable {limits : Limits} {ws : List Word} {r : Reading}

/-- Why the words of a text are kept as a whole: their parentheses do not match, reading them takes
too many steps, or they are no level, one pair of parentheses around them all apart. -/
inductive Refused (limits : Limits) (ws : List Word) : Warning → Prop
  | unbalanced (h : balanced 0 ws = false) : Refused limits ws .unbalanced
  | timeout (h : limits.steps < (top limits ws).steps) :
      Refused limits ws (.timeout (limits.steps + 1))
  | level {w : Warning} (h : w.Reports (source ((unwrap? ws).getD ws))) : Refused limits ws w

/-- Words that are not kept as a whole report what is kept of them. -/
theorem reports_of_understood (h : ofWords limits ws = .ok r) (hraw : r.node.isRaw = false) :
    List.Forall₂ Warning.Reports r.warnings r.node.raws := by
  obtain ⟨-, rfl⟩ | ⟨-, rfl⟩ | rfl | ⟨-, l, warnings, htop, rfl⟩ := ofWords_cases h
  · exact .nil
  · cases hraw
  · cases hraw
  · cases l with
    | none => cases hraw
    | some l => exact reports_readLevel _ _ _ _ htop

/-- Words that are kept as a whole have one warning, which tells why. -/
theorem exists_refused (h : ofWords limits ws = .ok r) (hraw : r.node.isRaw = true) :
    r.node = .raw () (source ws) ∧ ∃ w, r.warnings = [w] ∧ Refused limits ws w := by
  simp only [ofWords] at h
  split_ifs at h with hws hb ht
  · rw [← Except.ok.inj h] at hraw
    cases hraw
  · rw [← Except.ok.inj h]
    exact ⟨rfl, _, rfl, .unbalanced hb⟩
  · rw [← Except.ok.inj h]
    exact ⟨rfl, _, rfl, .timeout ht⟩
  · split at h
    · cases h
    · next warnings hl =>
      rw [← Except.ok.inj h]
      obtain ⟨w, ws', hw, hnil, rfl⟩ :=
        List.forall₂_cons_right_iff.1 (reports_readLevel _ _ _ _ hl)
      rw [List.forall₂_nil_right_iff.1 hnil]
      exact ⟨rfl, w, rfl, .level hw⟩
    · rw [← Except.ok.inj h] at hraw
      cases hraw

/-- **Warnings** are about what is kept as raw SQL, and there are as many. A text that is kept as a
whole, from its first token to the last and without comments, has one warning, which tells why;
otherwise the warnings are about the fragments in the tree, in document order. -/
theorem warnings_report {limits : Limits} {text : String} {r : Reading}
    (hr : ofText limits text = .ok r) :
    let escapes := limits.dialect.backslashEscapes
    let ws := Word.ofText escapes text
    r.warnings.length = r.node.raws.length ∧
      (∀ s, r.node = .raw () s → s = source ws ∧
        lexed escapes s = (lexed escapes text).filter (· ≠ .comment) ∧
          ∃ w, r.warnings = [w] ∧ Refused limits ws w) ∧
      (r.node.isRaw = false → List.Forall₂ Warning.Reports r.warnings r.node.raws) := by
  intro escapes ws
  have hunderstood : r.node.isRaw = false → List.Forall₂ Warning.Reports r.warnings r.node.raws :=
    reports_of_understood hr
  refine ⟨?_, fun s hs => ?_, hunderstood⟩
  · cases hraw : r.node.isRaw with
    | false => exact (hunderstood hraw).length_eq
    | true =>
      obtain ⟨hnode, w, hw, -⟩ := exists_refused hr hraw
      rw [hw, hnode]
      rfl
  · obtain ⟨hnode, hw⟩ := exists_refused hr (by rw [hs]; rfl)
    obtain rfl : s = source ws := (Node.raw.inj (hs.symm.trans hnode)).2
    refine ⟨rfl, ?_, hw⟩
    rw [(lexed_source (inText_ofText escapes text)).2, filter_lexed]

/-- A group that is left out stands between two fragments. -/
theorem warnings_report_nested : ∃ r : Reading,
    ofText {} "f(x) AND (()) AND (a = 1 AND (b = 2 OR c = 3 AND /* ? */ d = 4))" = .ok r ∧
      r.warnings = [.unrecognized "f(x)", .ambiguous "b = 2 OR c = 3 AND d = 4"] ∧
      r.node.isRaw = false ∧ List.Forall₂ Warning.Reports r.warnings r.node.raws := by
  have hread : (ofText {} "f(x) AND (()) AND (a = 1 AND (b = 2 OR c = 3 AND /* ? */ d = 4))").map
      (fun r => (r.warnings, r.node.isRaw)) =
        .ok ([.unrecognized "f(x)", .ambiguous "b = 2 OR c = 3 AND d = 4"], false) := by
    decide +kernel
  cases hr : ofText {} "f(x) AND (()) AND (a = 1 AND (b = 2 OR c = 3 AND /* ? */ d = 4))" with
  | error e =>
    rw [hr] at hread
    cases hread
  | ok r =>
    rw [hr] at hread
    obtain ⟨hwarnings, hraw⟩ := Prod.mk.inj (Except.ok.inj hread)
    exact ⟨r, rfl, hwarnings, hraw, (warnings_report hr).2.2 hraw⟩

end Reading

end SqlFilter
