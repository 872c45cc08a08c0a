import SqlFilter.Proofs.Tree.Depth
import SqlFilter.Proofs.Tree.Identity

/-!
# The leaves of what is read

A leaf of the tree that a text is read as comes from a stretch of the text: raw SQL is its text, and
a condition is derived from its tokens (`isLeafOf_of_readLevel`). Such a condition fits its
operator, so that all it may lack is the name of its column. Plain names are never empty, names in
quotes may be. Nothing of what is read is left out of the SQL but conditions on a column without a
name (`Reading.leaves_written`).
-/

namespace SqlFilter

open Word

/-! ## Conditions of the grammar -/

namespace Condition

variable {ts : List Token} {table : String} {c : Condition}

theorem DerivesOperand.fits {shape : Operator.Shape} {value : Option Operand}
    {upper : Option Literal} (h : DerivesOperand shape ts value upper) :
    Fits shape value upper := by
  cases h with
  | nullCheck => exact .nullCheck
  | list h =>
    cases h with
    | last | more => exact .list _ _
  | bounds => exact .bounds _ _
  | single => exact .single _

/-- A condition of the grammar lacks nothing but possibly the name of its column. -/
theorem Derives.isComplete_iff (h : Derives ts c) : c.IsComplete ↔ c.column ≠ "" := by
  cases h with
  | mk _ ho => exact Condition.isComplete_iff.trans (and_iff_left ho.fits)

theorem DerivesColumn.mem_of_empty (h : DerivesColumn ts table "") :
    .name "" ∈ ts ∨ .quotedName "" ∈ ts := by
  have hname : ∀ t : Token, t.identifier? = some "" → t = .name "" ∨ t = .quotedName "" := by
    intro t ht
    cases t with
    | name s => exact .inl (congrArg Token.name (Option.some.inj ht))
    | quotedName s => exact .inr (congrArg Token.quotedName (Option.some.inj ht))
    | _ => cases ht
  cases h with
  | bare ht => obtain rfl | rfl := hname _ ht <;> simp
  | qualified _ hu => obtain rfl | rfl := hname _ hu <;> simp

/-- Only a name in quotes may be empty. -/
theorem Derives.mem_of_empty (h : Derives ts c) (hc : c.column = "") (hn : .name "" ∉ ts) :
    .quotedName "" ∈ ts := by
  cases h with
  | mk hcolumn =>
    obtain rfl := hc
    obtain hmem | hmem := hcolumn.mem_of_empty
    · exact absurd (List.mem_append_left _ hmem) hn
    · exact List.mem_append_left _ hmem

end Condition

/-! ## Where leaves come from -/

section Read

variable {ws : List Word} {inner : List Word → Attempt (Option Level)} {n : Node Unit}
  {warnings : List Warning}

/-- The leaf is what the words are read as: a condition that they derive, or their text. -/
inductive Node.IsReadFrom : List Word → Node Unit → Prop
  | condition {ws : List Word} {c : Condition} (h : Condition.Derives (ws.map token) c) :
      IsReadFrom ws (.condition () c)
  | raw {ws : List Word} (hne : ws ≠ []) : IsReadFrom ws (.raw () (source ws))

/-- The leaf is read from a stretch of the words. -/
def Node.IsLeafOf (ws : List Word) (n : Node Unit) : Prop := ∃ vs, vs <:+: ws ∧ n.IsReadFrom vs

theorem Node.IsReadFrom.isLeafOf (h : n.IsReadFrom ws) : n.IsLeafOf ws :=
  ⟨ws, List.infix_refl ws, h⟩

theorem Node.IsLeafOf.within {vs : List Word} (h : n.IsLeafOf vs) (hvs : vs <:+: ws) :
    n.IsLeafOf ws := by
  obtain ⟨us, hus, hn⟩ := h
  exact ⟨us, hus.trans hvs, hn⟩

theorem Word.infix_of_unwrap? {body : List Word} (hu : unwrap? ws = some body) : body <:+: ws := by
  obtain ⟨o, c, rfl, -, -, -⟩ := unwrap?_eq_some_iff.1 hu
  exact ⟨[o], [c], by rw [List.append_assoc, List.singleton_append]⟩

theorem Word.infix_of_mem_cut {p : List Word}
    (hp : p ∈ (cut 0 false ws).1 :: (cut 0 false ws).2.map Prod.snd) : p <:+: ws := by
  obtain ⟨us, vs, h⟩ := exists_append_of_mem hp
  exact ⟨us, vs, by rw [h, List.append_assoc]⟩

theorem derives_of_readPart {c : Condition}
    (h : (readPart inner ws).result = some (some (.condition () c), warnings)) :
    Condition.Derives (ws.map token) c := by
  obtain ⟨body, -, -, hn⟩ | ⟨body, l, -, -, hn⟩ | ⟨c', -, hc, hn, -⟩ | ⟨-, -, hn, -⟩ :=
    readPart_outcomes h
  · cases hn
  · obtain ⟨k, _ | ⟨m, ms⟩⟩ := l <;> cases hn
  · cases hn
    exact .of_ofTokens hc
  · cases hn

/-- The leaves of a part are read from stretches of it, if those of what stands in its parentheses
are. -/
theorem isLeafOf_of_readPart (hne : ws ≠ [])
    (hnone : ∀ vs w, (inner vs).result = some (none, w) → vs ≠ [])
    (hsome : ∀ vs l w, (inner vs).result = some (some l, w) →
      ∀ m ∈ Node.allLeafNodes l.children, m.IsLeafOf vs)
    (h : (readPart inner ws).result = some (some n, warnings)) :
    ∀ m ∈ n.leafNodes, m.IsLeafOf ws := by
  intro m hm
  cases readAs_of_readPart h with
  | level hu hl =>
    obtain rfl := List.mem_singleton.1 hm
    exact (Node.IsReadFrom.raw (hnone _ _ hl)).isLeafOf.within (infix_of_unwrap? hu)
  | group hu hl => exact (hsome _ _ _ hl m hm).within (infix_of_unwrap? hu)
  | condition c =>
    obtain rfl := List.mem_singleton.1 hm
    exact (Node.IsReadFrom.condition (derives_of_readPart h)).isLeafOf
  | fragment =>
    obtain rfl := List.mem_singleton.1 hm
    exact (Node.IsReadFrom.raw hne).isLeafOf

/-- A level without words is understood. -/
theorem ne_nil_of_readLevel {room : Nat} (h : (readLevel room ws).result = some (none, warnings)) :
    ws ≠ [] := by
  rintro rfl
  cases room with
  | zero => cases h
  | succ room =>
    obtain ⟨-, hclear⟩ | ⟨k, ps, m, ns, hsome, -⟩ := readLevel_cases h
    · exact absurd hclear (by decide)
    · cases hsome

/-- **The leaves of a level** are read from stretches of its words. -/
theorem isLeafOf_of_readLevel (room : Nat) {l : Level}
    (hl : (readLevel room ws).result = some (some l, warnings)) :
    ∀ m ∈ Node.allLeafNodes l.children, m.IsLeafOf ws := by
  induction room generalizing ws l warnings with
  | zero => cases hl
  | succ room ih =>
    obtain ⟨hnone, -⟩ | ⟨k, ps, size, ns, hsome, hs, hns⟩ := readLevel_cases hl
    · cases hnone
    · obtain rfl := Option.some.inj hsome
      have hparts : ∀ n ∈ ns, ∀ m ∈ n.leafNodes, m.IsLeafOf ws := by
        refine forall_of_collect_readPart (fun p hp n w hn m hm => ?_) hns
        obtain ⟨hne, hmem⟩ := Split.mem_of_ofWords hs hp
        exact (isLeafOf_of_readPart hne (fun vs w => ne_nil_of_readLevel)
          (fun vs l w hl => ih hl) hn m hm).within (infix_of_mem_cut hmem)
      intro m hm
      obtain ⟨n, hn, hm⟩ := Node.mem_allLeafNodes.1 hm
      exact hparts n hn m hm

end Read

/-! ## Groups with members -/

namespace Node

variable {ι : Type} {l m n : Node ι}

theorem IsPart.trans (hlm : l.IsPart m) (hmn : m.IsPart n) : l.IsPart n := by
  induction hmn with
  | refl => exact hlm
  | child hn _ ih => exact .child hn ih

theorem Full.of_isPart (h : n.Full) (hm : m.IsPart n) : m.Full :=
  fun i k hpart => h i k (hpart.trans hm)

/-- A node without empty groups has a leaf. -/
theorem Full.leafNodes_ne_nil : ∀ {n : Node ι}, n.Full → n.leafNodes ≠ []
  | .condition _ _ => fun _ => List.cons_ne_nil _ _
  | .group i k [] => fun h => absurd (.refl _) (h i k)
  | .group i k (c :: cs) => fun h => by
    have hc : c.Full := h.of_isPart (.child List.mem_cons_self (.refl c))
    exact List.append_ne_nil_of_left_ne_nil (Full.leafNodes_ne_nil hc) _
  | .raw _ _ => fun _ => List.cons_ne_nil _ _

end Node

/-! ## Whole texts -/

namespace Reading

variable {limits : Limits} {ws : List Word} {r : Reading}

theorem infix_getD_unwrap? (ws : List Word) : (unwrap? ws).getD ws <:+: ws := by
  cases hu : unwrap? ws with
  | none => exact List.infix_refl ws
  | some body => exact infix_of_unwrap? hu

theorem isLeafOf_of_mem (h : ofWords limits ws = .ok r) :
    ∀ m ∈ r.root.leafNodes, m.IsLeafOf ws := by
  intro m hm
  cases hraw : r.node.isRaw with
  | true =>
    obtain ⟨hne, hroot⟩ := root_of_isRaw h hraw
    rw [hroot] at hm
    obtain rfl := List.mem_singleton.1 hm
    exact (Node.IsReadFrom.raw hne).isLeafOf
  | false =>
    obtain ⟨-, hroot⟩ | ⟨-, l, warnings, htop, hroot⟩ := understood_cases h hraw
    · rw [hroot] at hm
      exact absurd hm List.not_mem_nil
    · rw [hroot] at hm
      exact (isLeafOf_of_readLevel _ htop m hm).within (infix_getD_unwrap? ws)

theorem full_of_mem (h : ofWords limits ws = .ok r) : ∀ n ∈ r.root.children, n.Full := by
  cases hraw : r.node.isRaw with
  | true =>
    rw [(root_of_isRaw h hraw).2]
    refine List.forall_mem_singleton.2 fun i k hpart => ?_
    cases hpart
  | false =>
    obtain ⟨-, hroot⟩ | ⟨-, l, warnings, htop, hroot⟩ := understood_cases h hraw
    · rw [hroot]
      exact fun n hn => absurd hn List.not_mem_nil
    · rw [hroot]
      exact full_readLevel _ htop

/-- A leaf that is written as nothing is a condition on a column without a name. -/
theorem isSilent_iff {escapes : Bool} (hws : InText escapes ws) {m : Node Unit}
    (hm : m.IsLeafOf ws) : m.isSilent = true ↔ ∃ i c, m = .condition i c ∧ c.column = "" := by
  obtain ⟨vs, ⟨us, us', rfl⟩, hread⟩ := hm
  cases hread with
  | @condition c h =>
    rw [Node.isSilent, Bool.not_eq_true', decide_eq_false_iff_not, h.isComplete_iff, not_not]
    constructor
    · exact fun hc => ⟨(), c, rfl, hc⟩
    · rintro ⟨i, c', heq, hc⟩
      rwa [(Node.condition.inj heq).2]
  | raw hne =>
    rw [Node.isSilent, decide_eq_true_iff]
    refine iff_of_false (hws.left.right.trim_source_ne hne) ?_
    rintro ⟨i, c, heq, -⟩
    cases heq

/-- **What is read is written again.** A condition that is read is complete, and written as
something, just if its column has a name; a column without one is an empty name in quotes in the
text. A part of the tree is left out of the SQL just if it consists of conditions on such columns,
and nothing is left out if no name in the text is empty. -/
theorem leaves_written {limits : Limits} {text : String} {r : Reading}
    (hr : ofText limits text = .ok r) :
    (∀ i c, (i, c) ∈ r.root.conditions → (c.IsComplete ↔ c.column ≠ "") ∧
      (∀ d cast, c.sql d cast = "" ↔ c.column = "") ∧
        (c.column = "" → .quotedName "" ∈ limits.tokens text)) ∧
    ∀ (p : Printer Unit), ∀ m ∈ r.root.children, ∀ n : Node Unit, n.IsPart m →
      (p.node n = "" ↔ ∀ l ∈ n.leafNodes, ∃ i c, l = .condition i c ∧ c.column = "") ∧
        (.quotedName "" ∉ limits.tokens text → p.node n ≠ "") := by
  have hname : .name "" ∉ limits.tokens text := fun hmem =>
    forall_mem_token_ofText (P := (· ≠ .name "")) (Token.fst_scan_ne_name _) text _ hmem rfl
  have hconditions : ∀ i c, .condition i c ∈ r.root.leafNodes → (c.IsComplete ↔ c.column ≠ "") ∧
      (c.column = "" → .quotedName "" ∈ limits.tokens text) := by
    intro i c hmem
    obtain ⟨vs, hvs, hread⟩ := isLeafOf_of_mem hr _ hmem
    have htokens : vs.map token <:+: limits.tokens text := hvs.map token
    cases hread with
    | condition h =>
      refine ⟨h.isComplete_iff, fun hc => htokens.subset ?_⟩
      exact h.mem_of_empty hc fun hmem => hname (htokens.subset hmem)
  refine ⟨fun i c hmem => ?_, fun p m hm n hpart => ?_⟩
  · obtain ⟨hcomplete, hempty⟩ := hconditions i c (Tree.mem_conditions_iff.1 hmem)
    refine ⟨hcomplete, fun d cast => ?_, hempty⟩
    rw [c.sql_eq_empty_iff, hcomplete, not_not]
  · have hleaf : ∀ l ∈ n.leafNodes, l ∈ r.root.leafNodes := fun l hl =>
      Node.mem_allLeafNodes.2 ⟨m, hm, hpart.mem_leafNodes hl⟩
    have hsilent : p.node n = "" ↔
        ∀ l ∈ n.leafNodes, ∃ i c, l = .condition i c ∧ c.column = "" := by
      rw [p.node_eq_empty_iff_leaves]
      exact forall₂_congr fun l hl =>
        isSilent_iff (inText_ofText _ text) (isLeafOf_of_mem hr l (hleaf l hl))
    refine ⟨hsilent, fun hquoted hnode => ?_⟩
    obtain ⟨l, hl⟩ := List.exists_mem_of_ne_nil _
      ((full_of_mem hr m hm).of_isPart hpart).leafNodes_ne_nil
    obtain ⟨i, c, rfl, hc⟩ := hsilent.1 hnode l hl
    exact hquoted ((hconditions i c (hleaf _ hl)).2 hc)

/-- A condition on a column without a name is understood, and left out of the SQL. -/
theorem exists_read_unwritten : ∃ r c, ofText {} "\"\" = 1" = .ok r ∧ r.warnings = [] ∧
    ((), c) ∈ r.root.conditions ∧ ¬ c.IsComplete ∧
      (Printer.plain Unit .duckdb 5).write r.root = .ok "" := by
  have h : ofText {} "\"\" = 1" = .ok ⟨.group () .and
      [.condition () ⟨"", "", .eq, some (.single (.integer 1)), none, .atWhere⟩], []⟩ := by
    cbv
  exact ⟨_, _, h, rfl, List.mem_singleton_self _, by decide, by decide +kernel⟩

/-- A fragment, a list and a null check are all written, in any dialect. -/
theorem leaves_written_group : ∃ r c,
    ofText {} "f(x) AND (\"t\".\"a b\" IN (1, 'x') OR b IS NULL)" = .ok r ∧
      ((), c) ∈ r.root.conditions ∧ c.operator = .isIn ∧ c.IsComplete ∧
      ∀ d, ∀ m ∈ r.root.children, ∀ n : Node Unit, n.IsPart m →
        (Printer.plain Unit d 5).node n ≠ "" := by
  let c : Condition :=
    ⟨"t", "a b", .isIn, some (.list [.integer 1, .string "x"]), none, .atWhere⟩
  have hread : ofText {} "f(x) AND (\"t\".\"a b\" IN (1, 'x') OR b IS NULL)" =
      .ok ⟨.group () .and [.raw () "f(x)", .group () .or [.condition () c,
        .condition () ⟨"", "b", .isNull, none, none, .atWhere⟩]], [.unrecognized "f(x)"]⟩ := by
    cbv
  have hquoted : .quotedName "" ∉
      ({} : Limits).tokens "f(x) AND (\"t\".\"a b\" IN (1, 'x') OR b IS NULL)" := by
    decide +kernel
  obtain ⟨hconditions, hparts⟩ := leaves_written hread
  have hmem : ((), c) ∈ Tree.conditions ⟨(), .and, [.raw () "f(x)", .group () .or
      [.condition () c, .condition () ⟨"", "b", .isNull, none, none, .atWhere⟩]]⟩ :=
    List.mem_cons_self
  refine ⟨_, c, hread, hmem, rfl, (hconditions () c hmem).1.2 (by decide), fun d m hm n hn => ?_⟩
  exact (hparts (.plain Unit d 5) m hm n hn).2 hquoted

end Reading

end SqlFilter
