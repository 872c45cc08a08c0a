import SqlFilter.Proofs.Lists
import SqlFilter.Proofs.Tree.Printed
import SqlFilter.Proofs.Tree.Removed

/-!
# Parts of trees by tests on their leaves

Taking the part of a tree whose leaves pass a test is a projection. It keeps these leaves, the
groups that they lie in and nothing else, tests in a row act as their conjunction, and a part with
all leaves that are written is written like the tree (`Tree.kept_projects`).

A group stays just if a leaf below it does. The printer leaves a group out by the texts of its
members instead, so that the two are compared through the leaves.
-/

namespace SqlFilter

variable {ι : Type}

section Kept

variable (keep : LeafTest ι)

/-! ## What stays -/

/-- Whether a leaf at or below the node passes the test. -/
def Node.hasPassing (n : Node ι) : Bool := n.leafNodes.any keep.passes

/-- Whether a leaf at or below the node of the entry passes the test. -/
def Entry.hasPassing (e : Entry ι) : Bool := e.node.hasPassing keep

theorem Node.hasPassing_of_isLeaf {n : Node ι} (h : n.isLeaf = true) :
    n.hasPassing keep = keep.passes n := by
  rw [hasPassing, leafNodes_of_isLeaf h, List.any_cons, List.any_nil, Bool.or_false]

theorem Node.kept?_eq_none_iff_of_isLeaf {n : Node ι} (h : n.isLeaf = true) :
    n.kept? keep = none ↔ n.hasPassing keep = false := by
  rw [kept?_of_isLeaf keep h, hasPassing_of_isLeaf keep h]
  split_ifs with hn <;> simp [hn]

mutual

theorem Node.kept?_eq_none_iff : ∀ n : Node ι, n.kept? keep = none ↔ n.hasPassing keep = false
  | .condition i c => Node.kept?_eq_none_iff_of_isLeaf keep rfl
  | .group i k cs => by
    rw [kept?_group, hasPassing, leafNodes, ← Node.allKept_eq_nil_iff cs]
    split_ifs with h <;> simp [h]
  | .raw i s => Node.kept?_eq_none_iff_of_isLeaf keep rfl

/-- Nothing is kept just if no leaf passes. -/
theorem Node.allKept_eq_nil_iff : ∀ ns : List (Node ι),
    allKept keep ns = [] ↔ (allLeafNodes ns).any keep.passes = false
  | [] => iff_of_true rfl rfl
  | n :: ns => by
    rw [allKept_cons, List.append_eq_nil_iff, Option.toList_eq_nil_iff, allLeafNodes,
      List.any_append, Bool.or_eq_false_iff, Node.kept?_eq_none_iff n, Node.allKept_eq_nil_iff ns]
    rfl

end

theorem Node.leafNodes_of_kept? {n m : Node ι} (h : n.kept? keep = some m) :
    m.leafNodes = n.leafNodes.filter keep.passes := by
  rw [← n.allLeafNodes_kept? keep, h, Option.toList_some, allLeafNodes, allLeafNodes,
    List.append_nil]

/-- What is kept of a node has a leaf. -/
theorem Node.leafNodes_ne_nil_of_kept? {n m : Node ι} (h : n.kept? keep = some m) :
    m.leafNodes ≠ [] := by
  have hpassing : n.hasPassing keep = true := by
    rw [← Bool.not_eq_false, ← n.kept?_eq_none_iff, h]
    exact Option.some_ne_none m
  obtain ⟨l, hl, hpass⟩ := List.any_eq_true.1 hpassing
  rw [n.leafNodes_of_kept? keep h]
  exact List.ne_nil_of_mem (List.mem_filter.2 ⟨hl, hpass⟩)

theorem Node.matches_of_kept? {n m : Node ι} (h : n.kept? keep = some m) : m.Matches n := by
  cases n with
  | condition i c =>
    rw [kept?_of_isLeaf keep rfl] at h
    split_ifs at h
    obtain rfl := Option.some.inj h
    exact .condition i c
  | group i k cs =>
    rw [kept?_group] at h
    split_ifs at h with hrest
    obtain rfl := Option.some.inj h
    refine .group i k (iff_of_false hrest ?_)
    rintro rfl
    exact hrest rfl
  | raw i s =>
    rw [kept?_of_isLeaf keep rfl] at h
    split_ifs at h
    obtain rfl := Option.some.inj h
    exact .raw i s

/-! ## Outlines -/

/-- What is kept of the entry. -/
def Entry.kept? (e : Entry ι) : Option (Entry ι) := (e.node.kept? keep).map (Entry.mk e.groups)

theorem Entry.kept?_eq_none_iff (e : Entry ι) :
    e.kept? keep = none ↔ ¬ e.hasPassing keep = true := by
  rw [kept?, Option.map_eq_none_iff, e.node.kept?_eq_none_iff, hasPassing, Bool.not_eq_true]

theorem Node.outline_kept?_of_isLeaf (gs : List ι) {n : Node ι} (h : n.isLeaf = true) :
    allOutlines gs (n.kept? keep).toList = (n.outline gs).filterMap (Entry.kept? keep) := by
  rw [outline_of_isLeaf gs h, List.filterMap_cons, List.filterMap_nil, Entry.kept?,
    kept?_of_isLeaf keep h]
  split_ifs
  · rw [Option.toList_some, allOutlines_singleton, outline_of_isLeaf gs h]
    rfl
  · rfl

mutual

theorem Node.outline_kept? : ∀ (gs : List ι) (n : Node ι),
    allOutlines gs (n.kept? keep).toList = (n.outline gs).filterMap (Entry.kept? keep)
  | gs, .condition i c => Node.outline_kept?_of_isLeaf keep gs rfl
  | gs, .group i k cs => by
    rw [outline, List.filterMap_cons, Entry.kept?, ← Node.allOutlines_allKept (i :: gs) cs,
      kept?_group]
    split_ifs with h
    · rw [h]
      rfl
    · rw [Option.toList_some, allOutlines_singleton, outline]
      rfl
  | gs, .raw i s => Node.outline_kept?_of_isLeaf keep gs rfl

/-- The outline of the part is made of what is kept of each entry. -/
theorem Node.allOutlines_allKept : ∀ (gs : List ι) (ns : List (Node ι)),
    allOutlines gs (allKept keep ns) = (allOutlines gs ns).filterMap (Entry.kept? keep)
  | _, [] => rfl
  | gs, n :: ns => by
    rw [allKept_cons, allOutlines_append, Node.outline_kept? gs n, Node.allOutlines_allKept gs ns,
      allOutlines, List.filterMap_append]

end

namespace Tree

theorem outline_kept (t : Tree ι) :
    (t.kept keep).outline = t.outline.filterMap (Entry.kept? keep) :=
  Node.allOutlines_allKept keep [] t.children

/-- The outline of the part matches that of the entries with a leaf that passes. -/
theorem matches_outline_kept (t : Tree ι) :
    List.Forall₂ Entry.Matches (t.kept keep).outline
      (t.outline.filter (Entry.hasPassing keep)) := by
  rw [outline_kept, ← List.filter_congr fun e _ => Bool.decide_eq_true (b := e.hasPassing keep)]
  refine forall₂_filterMap (fun e _ => e.kept?_eq_none_iff keep) fun e _ f hf => ?_
  obtain ⟨m, hm, rfl⟩ := Option.map_eq_some_iff.1 hf
  exact ⟨rfl, Node.matches_of_kept? keep hm⟩

theorem leafNodes_ne_nil_of_mem_outline_kept {t : Tree ι} {e : Entry ι}
    (he : e ∈ (t.kept keep).outline) : e.node.leafNodes ≠ [] := by
  rw [outline_kept] at he
  obtain ⟨f, -, hf⟩ := List.mem_filterMap.1 he
  obtain ⟨m, hm, rfl⟩ := Option.map_eq_some_iff.1 hf
  exact Node.leafNodes_ne_nil_of_kept? keep hm

end Tree

end Kept

/-! ## Two tests in a row -/

section Fusion

variable (p q : LeafTest ι)

theorem Node.allKept_append (ns ms : List (Node ι)) :
    allKept q (ns ++ ms) = allKept q ns ++ allKept q ms := by
  induction ns with
  | nil => rfl
  | cons n ns ih => rw [List.cons_append, allKept_cons, allKept_cons, ih, List.append_assoc]

theorem Node.allKept_toList (n? : Option (Node ι)) :
    allKept q n?.toList = (n?.bind (Node.kept? q)).toList := by
  cases n? with
  | none => rfl
  | some n => rw [Option.toList_some, allKept_cons, allKept, List.append_nil, Option.bind_some]

theorem LeafTest.passes_and (n : Node ι) :
    LeafTest.passes (fun l => p l && q l) n = (p.passes n && q.passes n) := by
  cases n <;> rfl

theorem Node.kept?_kept?_of_isLeaf {n : Node ι} (h : n.isLeaf = true) :
    (n.kept? p).bind (Node.kept? q) = n.kept? fun l => p l && q l := by
  rw [kept?_of_isLeaf p h, kept?_of_isLeaf _ h, LeafTest.passes_and]
  by_cases hp : p.passes n = true
  · rw [if_pos hp, Option.bind_some, kept?_of_isLeaf q h, hp, Bool.true_and]
  · rw [if_neg hp, (Bool.not_eq_true _).mp hp]
    rfl

mutual

theorem Node.kept?_kept? : ∀ n : Node ι,
    (n.kept? p).bind (Node.kept? q) = n.kept? fun l => p l && q l
  | .condition i c => Node.kept?_kept?_of_isLeaf p q rfl
  | .group i k cs => by
    have h := Node.allKept_allKept cs
    rw [kept?_group p, kept?_group fun l => p l && q l, ← h]
    split_ifs with hp hpq hpq
    · rfl
    · exact absurd (by rw [hp, allKept]) hpq
    · rw [Option.bind_some, kept?_group, if_pos hpq]
    · rw [Option.bind_some, kept?_group, if_neg hpq]
  | .raw i s => Node.kept?_kept?_of_isLeaf p q rfl

/-- What a second test keeps of what a first one does is what both keep. -/
theorem Node.allKept_allKept : ∀ ns : List (Node ι),
    allKept q (allKept p ns) = allKept (fun l => p l && q l) ns
  | [] => rfl
  | n :: ns => by
    rw [allKept_cons, allKept_append, allKept_toList, Node.kept?_kept? n, Node.allKept_allKept ns,
      allKept_cons]

end

theorem Tree.kept_kept (t : Tree ι) : (t.kept p).kept q = t.kept fun l => p l && q l := by
  rw [kept, kept, kept, Node.allKept_allKept]

end Fusion

/-! ## What is written of a part -/

theorem Text.trim_eq_empty_iff (s : String) : trim s = "" ↔ allBlank s = true := by
  have hempty : trim s = "" ↔ trimEnd (trimStart s.toList) = [] := by
    rw [trim, ← String.toList_inj, String.toList_ofList]
    rfl
  rw [hempty, trimEnd, List.reverse_eq_nil_iff, List.dropWhile_eq_nil_iff, allBlank,
    List.all_eq_true, trimStart]
  simp only [List.mem_reverse]
  refine ⟨fun h => ?_, fun h c hc => h c ((List.dropWhile_sublist _).subset hc)⟩
  rw [← List.dropWhile_eq_nil_iff]
  by_contra hne
  -- The first character that is left is not blank.
  exact absurd (h _ (List.head_mem hne)) (by simpa using List.head_dropWhile_not isBlank hne)

namespace Printer

variable (p : Printer ι)

theorem members_append (ns ms : List (Node ι)) :
    p.members (ns ++ ms) = p.members ns ++ p.members ms := by
  induction ns with
  | nil => rfl
  | cons n ns ih =>
    rw [List.cons_append, members, members, ih]
    split_ifs <;> rfl

variable {p} {keep : LeafTest ι}

theorem members_kept?_of_isLeaf {n : Node ι} (h : n.isLeaf = true)
    (hpass : ∀ l ∈ n.leafNodes, l.isSilent = false → keep.passes l = true) :
    p.members (n.kept? keep).toList = p.members [n] := by
  rw [Node.kept?_of_isLeaf keep h]
  split_ifs with hn
  · rfl
  · have hsilent : p.node n = "" := by
      rw [node_eq_empty_iff_leaves]
      intro l hl
      rw [← Bool.not_eq_false]
      intro hl'
      rw [Node.leafNodes_of_isLeaf h] at hl hpass
      obtain rfl := List.mem_singleton.1 hl
      exact hn (hpass l hl hl')
    rw [members, if_pos hsilent]
    rfl

mutual

theorem members_kept? : ∀ n : Node ι,
    (∀ l ∈ n.leafNodes, l.isSilent = false → keep.passes l = true) →
      p.members (n.kept? keep).toList = p.members [n]
  | .condition i c => Printer.members_kept?_of_isLeaf rfl
  | .group i k cs => by
    intro h
    have hcs := Printer.members_allKept cs h
    rw [Node.kept?_group]
    split_ifs with hnil
    · rw [hnil] at hcs
      rw [members, node, ← hcs]
      rfl
    · simp only [Option.toList_some, members, node, hcs]
      rfl
  | .raw i s => Printer.members_kept?_of_isLeaf rfl

/-- Where every leaf that is written as something passes, the part is written like the whole. -/
theorem members_allKept : ∀ ns : List (Node ι),
    (∀ l ∈ Node.allLeafNodes ns, l.isSilent = false → keep.passes l = true) →
      p.members (Node.allKept keep ns) = p.members ns
  | [] => fun _ => rfl
  | n :: ns => by
    intro h
    obtain ⟨hn, hns⟩ := List.forall_mem_append.1 h
    rw [Node.allKept_cons, members_append, Printer.members_kept? n hn,
      Printer.members_allKept ns hns, ← members_append, List.singleton_append]

end

theorem tree_kept {t : Tree ι}
    (h : ∀ l ∈ t.leafNodes, l.isSilent = false → keep.passes l = true) :
    p.tree (t.kept keep) = p.tree t :=
  congrArg (join t.logic) (members_allKept t.children h)

/-- Groups without leaves leave no trace in the text. -/
theorem tree_pruned (t : Tree ι) : p.tree t.pruned = p.tree t :=
  tree_kept fun l _ _ => by cases l <;> rfl

/-- A tree is written as nothing just if its conditions are incomplete and its raw SQL is blank. -/
theorem tree_eq_empty_iff_blank (t : Tree ι) : p.tree t = "" ↔
    (∀ i c, Node.condition i c ∈ t.leafNodes → ¬ c.IsComplete) ∧
      ∀ i s, Node.raw i s ∈ t.leafNodes → Text.allBlank s = true := by
  rw [p.tree_eq_empty_iff_leaves]
  refine ⟨fun h => ⟨fun i c hc => ?_, fun i s hs => ?_⟩, fun h l hl => ?_⟩
  · simpa [Node.isSilent] using h _ hc
  · simpa [Node.isSilent, Text.trim_eq_empty_iff] using h _ hs
  · cases l with
    | condition i c => simpa [Node.isSilent] using h.1 i c hl
    | group i k cs => rfl
    | raw i s => simpa [Node.isSilent, Text.trim_eq_empty_iff] using h.2 i s hl

end Printer

namespace Tree

/-- **Taking the part** of a tree whose leaves pass a test keeps these leaves, the root, and the
groups with such a leaf below them, all as they were and in order; no group below the root is left
without a leaf. A second test acts on the part as both tests do on the tree, so the part is its own
part, and the order of tests does not matter. Groups are nested no deeper than before. Without its
empty groups a tree is written as before, and as nothing just if its conditions are incomplete and
its raw SQL is blank. -/
theorem kept_projects (t : Tree ι) (p q : LeafTest ι) :
    (t.kept p).leafNodes = t.leafNodes.filter p.passes ∧
      (t.kept p).id = t.id ∧ (t.kept p).logic = t.logic ∧
      List.Forall₂ Entry.Matches (t.kept p).outline (t.outline.filter (Entry.hasPassing p)) ∧
      (∀ e ∈ (t.kept p).outline, e.node.leafNodes ≠ []) ∧
      (t.kept p).kept q = t.kept (fun l => p l && q l) ∧
      (t.kept p).kept p = t.kept p ∧
      (t.kept p).kept q = (t.kept q).kept p ∧
      (t.kept p).depth ≤ t.depth ∧
      ∀ w : Printer ι, w.tree t.pruned = w.tree t ∧
        (t.depth ≤ w.maxDepth → w.write t.pruned = .ok (w.tree t) ∧ w.write t = .ok (w.tree t)) ∧
        (w.tree t = "" ↔
          (∀ i c, Node.condition i c ∈ t.leafNodes → ¬ c.IsComplete) ∧
            ∀ i s, Node.raw i s ∈ t.leafNodes → Text.allBlank s = true) := by
  refine ⟨t.leafNodes_kept p, rfl, rfl, t.matches_outline_kept p,
    fun e he => leafNodes_ne_nil_of_mem_outline_kept p he, t.kept_kept p q, ?_, ?_,
    t.depth_kept_le p, fun w => ⟨w.tree_pruned t, fun hdepth => ?_, w.tree_eq_empty_iff_blank t⟩⟩
  · rw [kept_kept]
    simp only [Bool.and_self]
  · rw [kept_kept, kept_kept]
    simp only [Bool.and_comm]
  · have hpruned : t.pruned.depth ≤ w.maxDepth := (t.depth_kept_le _).trans hdepth
    rw [w.write_of_depth_le hpruned, w.write_of_depth_le hdepth, w.tree_pruned]
    exact ⟨rfl, rfl⟩

/-- Groups without raw SQL go with their members when raw SQL alone is kept. -/
theorem kept_projects_raw :
    let c : Condition := ⟨"", "c", .isNull, none, none, .atWhere⟩
    let inner : Node String := .group "h" .or [.raw "x" " 1 ", .raw "y" " "]
    let t : Tree String := ⟨"r", .or,
      [.group "g" .and [inner, .condition "a" c], .group "e" .or [.group "k" .and []]]⟩
    let w : Printer String := .plain String .duckdb 3
    ((t.kept Option.isNone).outline.map fun e => (e.groups, e.node.id)) =
        [([], "g"), (["g"], "h"), (["h", "g"], "x"), (["h", "g"], "y")] ∧
      inner.leafNodes ≠ [] ∧
      (t.kept Option.isNone).kept Option.isNone = t.kept Option.isNone ∧
      w.tree t = "(((1) AND \"c\" IS NULL))" ∧ w.write t.pruned = .ok (w.tree t) ∧
      w.tree (⟨"r", .and, [.raw "y" " "]⟩ : Tree String) = "" := by
  intro c inner t w
  obtain ⟨-, -, -, -, hleaf, -, hagain, -, -, hwritten⟩ :=
    t.kept_projects Option.isNone fun _ => true
  obtain ⟨-, -, -, -, -, -, -, -, -, hblank⟩ :=
    (⟨"r", .and, [.raw "y" " "]⟩ : Tree String).kept_projects Option.isNone fun _ => true
  refine ⟨by decide +kernel, hleaf ⟨["g"], inner⟩ ?_, hagain, by decide +kernel,
    ((hwritten w).2.1 (by decide)).1, (hblank w).2.2.2 ⟨fun i c hc => ?_, fun i s hs => ?_⟩⟩
  · simp [t, inner, kept, Node.allKept, Node.kept?, outline, Node.allOutlines, Node.outline]
  · simp [leafNodes, Node.allLeafNodes, Node.leafNodes] at hc
  · simp [leafNodes, Node.allLeafNodes, Node.leafNodes] at hs
    rw [hs.2]
    decide

end Tree

end SqlFilter
