import SqlFilter.Proofs.Lists
import SqlFilter.Proofs.Tree.Edited
import SqlFilter.Proofs.Tree.Outline

/-!
# Removing nodes

Removing an identity takes the nodes that have it out of the outline of a tree, with all that lies in
them, and the groups whose members all go; what is left is as it was (`Tree.remove_exact`).

Whether a group goes depends on all that is below it. The outline of the rest is therefore first shown
to be made of the outline of the tree entry by entry (`Node.allOutlines_allWithout`).
-/

namespace SqlFilter

variable {ι : Type}

/-! ## What goes -/

/-- The node goes with an identity: it has the identity, or it is a group with members all of which
go. -/
inductive Node.Vanishes (i : ι) : Node ι → Prop
  | named {n : Node ι} (h : n.id = i) : Vanishes i n
  | emptied {j : ι} {k : Logic} {cs : List (Node ι)} (hne : cs ≠ [])
      (h : ∀ n ∈ cs, Vanishes i n) : Vanishes i (.group j k cs)

/-- The entry stays: it lies in no group with the identity, and does not go itself. -/
def Entry.Stays (i : ι) (e : Entry ι) : Prop := i ∉ e.groups ∧ ¬ e.node.Vanishes i

/-- The node is what another one may be after a removal: the same leaf, or a group with the same
identity and connective, without members just if the other has none. -/
inductive Node.Matches : Node ι → Node ι → Prop
  | condition (i : ι) (c : Condition) : Matches (.condition i c) (.condition i c)
  | group (i : ι) (k : Logic) {cs ds : List (Node ι)} (h : cs = [] ↔ ds = []) :
      Matches (.group i k cs) (.group i k ds)
  | raw (i : ι) (s : String) : Matches (.raw i s) (.raw i s)

/-- The entries are in the same groups, and their nodes match. -/
def Entry.Matches (e f : Entry ι) : Prop := e.groups = f.groups ∧ e.node.Matches f.node

theorem Node.Matches.id_eq {n m : Node ι} (h : n.Matches m) : n.id = m.id := by
  cases h <;> rfl

theorem Node.vanishes_iff_of_isLeaf {i : ι} {n : Node ι} (h : n.isLeaf = true) :
    n.Vanishes i ↔ n.id = i := by
  refine ⟨fun hn => ?_, .named⟩
  cases hn with
  | named h => exact h
  | emptied _ _ => cases h

theorem Node.vanishes_group_iff {i j : ι} {k : Logic} {cs : List (Node ι)} (hne : j ≠ i) :
    (Node.group j k cs).Vanishes i ↔ cs ≠ [] ∧ ∀ n ∈ cs, n.Vanishes i := by
  refine ⟨fun hn => ?_, fun h => .emptied h.1 h.2⟩
  cases hn with
  | named h => exact absurd h hne
  | emptied hcs h => exact ⟨hcs, h⟩

/-- A group of another identity goes just if it lies in one with this identity or all members that it
has go. -/
theorem Entry.not_stays_group_iff {i j : ι} {e : Entry ι} {k : Logic} {cs : List (Node ι)}
    (he : e.node = .group j k cs) (hne : j ≠ i) :
    ¬ e.Stays i ↔
      i ∈ e.groups ∨ cs ≠ [] ∧ ∀ n ∈ cs, ¬ Entry.Stays i ⟨j :: e.groups, n⟩ := by
  rw [Stays, he, Node.vanishes_group_iff hne, not_and_or, not_not, not_not]
  refine or_congr_right' fun hgroups => and_congr_right fun _ => forall₂_congr fun n _ => ?_
  have hout : i ∉ j :: e.groups := List.not_mem_cons_of_ne_of_not_mem (Ne.symm hne) hgroups
  rw [Stays, not_and_not_right]
  exact ⟨fun hn _ => hn, fun hn => hn hout⟩

/-- Matching outlines have the same leaves. -/
theorem leaves_of_matches {es fs : List (Entry ι)} (h : List.Forall₂ Entry.Matches es fs) :
    (es.filter fun e => e.node.isLeaf).map Entry.node =
      (fs.filter fun e => e.node.isLeaf).map Entry.node := by
  induction h with
  | nil => rfl
  | @cons e f es fs hef _ ih =>
    obtain ⟨-, hnode⟩ := hef
    obtain ⟨gs, n⟩ := e
    obtain ⟨gs', m⟩ := f
    cases hnode with
    | condition i c => exact congrArg (Node.condition i c :: ·) ih
    | group i k hcs => exact ih
    | raw i s => exact congrArg (Node.raw i s :: ·) ih

/-! ## Removal -/

section Remove

variable [DecidableEq ι] {i : ι}

theorem Node.without?_of_isLeaf {n : Node ι} (h : n.isLeaf = true) :
    n.without? i = if n.id = i then none else some n := by
  cases n with
  | condition j c => rfl
  | group j k cs => cases h
  | raw j s => rfl

mutual

theorem Node.without?_of_notMem : ∀ n : Node ι, i ∉ n.ids → n.without? i = some n
  | .condition j c => fun h => if_neg fun hj => h (List.mem_singleton.2 hj.symm)
  | .group j k cs => fun h => by
    obtain ⟨hj, hcs⟩ := not_or.1 (mt List.mem_cons.2 h)
    rw [without?_group, if_neg (Ne.symm hj), if_neg hcs]
  | .raw j s => fun h => if_neg fun hj => h (List.mem_singleton.2 hj.symm)

/-- Nodes without the identity stay as they are. -/
theorem Node.allWithout_of_notMem : ∀ ns : List (Node ι), i ∉ allIds ns → allWithout i ns = ns
  | [] => fun _ => rfl
  | n :: ns => fun h => by
    obtain ⟨hn, hns⟩ := not_or.1 (mt List.mem_append.2 h)
    rw [allWithout_cons, Node.without?_of_notMem n hn, Node.allWithout_of_notMem ns hns]
    rfl

end

/-- A group of another identity goes just if it is emptied; otherwise it keeps what is left of its
members. -/
theorem Node.without?_group_of_ne {j : ι} (hne : j ≠ i) (k : Logic) (cs : List (Node ι)) :
    (Node.group j k cs).without? i =
      if cs ≠ [] ∧ allWithout i cs = [] then none else some (.group j k (allWithout i cs)) := by
  rw [without?_group, if_neg hne]
  by_cases hcs : i ∈ allIds cs
  · have hmembers : cs ≠ [] := by
      rintro rfl
      cases hcs
    simp only [if_pos hcs, hmembers, ne_eq, not_false_eq_true, true_and]
  · have hsame := allWithout_of_notMem cs hcs
    rw [if_neg hcs, hsame, if_neg fun h => h.1 h.2]

theorem Node.without?_eq_none_iff_of_isLeaf {n : Node ι} (h : n.isLeaf = true) :
    n.without? i = none ↔ n.Vanishes i := by
  rw [vanishes_iff_of_isLeaf h, without?_of_isLeaf h]
  split_ifs with hi <;> simp [hi]

mutual

theorem Node.without?_eq_none_iff : ∀ n : Node ι, n.without? i = none ↔ n.Vanishes i
  | .condition j c => Node.without?_eq_none_iff_of_isLeaf rfl
  | .group j k cs => by
    by_cases h : j = i
    · rw [without?_group, if_pos h]
      exact iff_of_true rfl (.named h)
    · rw [without?_group_of_ne h, vanishes_group_iff h, ← Node.allWithout_eq_nil_iff cs]
      split_ifs with hcs <;> simp [hcs]
  | .raw j s => Node.without?_eq_none_iff_of_isLeaf rfl

/-- Nothing is left of a node just if it goes. -/
theorem Node.allWithout_eq_nil_iff : ∀ ns : List (Node ι),
    allWithout i ns = [] ↔ ∀ n ∈ ns, n.Vanishes i
  | [] => by simp [allWithout]
  | n :: ns => by
    rw [allWithout_cons, List.append_eq_nil_iff, Option.toList_eq_nil_iff,
      Node.without?_eq_none_iff n, Node.allWithout_eq_nil_iff ns, List.forall_mem_cons]

end

instance (i : ι) : DecidablePred (Node.Vanishes i) := fun n =>
  decidable_of_iff (n.without? i = none) (Node.without?_eq_none_iff n)

instance (i : ι) : DecidablePred (Entry.Stays i) := fun e =>
  inferInstanceAs (Decidable (i ∉ e.groups ∧ ¬ e.node.Vanishes i))

theorem Node.matches_of_without? {n m : Node ι} (h : n.without? i = some m) : m.Matches n := by
  cases n with
  | condition j c =>
    rw [without?] at h
    split_ifs at h
    obtain rfl := Option.some.inj h
    exact .condition j c
  | group j k cs =>
    by_cases hj : j = i
    · rw [without?_group, if_pos hj] at h
      cases h
    · rw [without?_group_of_ne hj] at h
      split_ifs at h with hcs
      obtain rfl := Option.some.inj h
      refine .group j k ⟨fun hnil => ?_, ?_⟩
      · by_contra hne
        exact hcs ⟨hne, hnil⟩
      · rintro rfl
        rfl
  | raw j s =>
    rw [without?] at h
    split_ifs at h
    obtain rfl := Option.some.inj h
    exact .raw j s

/-- What is left of the entry. -/
def Entry.without? (i : ι) (e : Entry ι) : Option (Entry ι) :=
  if i ∈ e.groups then none else (e.node.without? i).map (Entry.mk e.groups)

theorem Entry.without?_eq_none_iff (e : Entry ι) : e.without? i = none ↔ ¬ e.Stays i := by
  rw [without?, Stays, ← Node.without?_eq_none_iff]
  split_ifs with h <;> simp [h]

theorem Entry.matches_of_without? {e f : Entry ι} (h : e.without? i = some f) : f.Matches e := by
  rw [without?] at h
  split_ifs at h
  obtain ⟨m, hm, rfl⟩ := Option.map_eq_some_iff.1 h
  exact ⟨rfl, Node.matches_of_without? hm⟩

/-- Nothing is left in a group with the identity. -/
theorem Node.filterMap_without?_eq_nil {gs : List ι} (h : i ∈ gs) (ns : List (Node ι)) :
    (allOutlines gs ns).filterMap (Entry.without? i) = [] := by
  rw [List.filterMap_eq_nil_iff]
  intro e he
  exact if_pos (groups_subset_of_mem_allOutlines gs ns e he h)

theorem Node.outline_without?_of_isLeaf {gs : List ι} (h : i ∉ gs) {n : Node ι}
    (hn : n.isLeaf = true) :
    allOutlines gs (n.without? i).toList = (n.outline gs).filterMap (Entry.without? i) := by
  rw [outline_of_isLeaf gs hn, List.filterMap_cons, List.filterMap_nil, Entry.without?, if_neg h,
    without?_of_isLeaf hn]
  split_ifs
  · rfl
  · rw [Option.toList_some, allOutlines_singleton, outline_of_isLeaf gs hn]
    rfl

mutual

theorem Node.outline_without? : ∀ (gs : List ι), i ∉ gs → ∀ n : Node ι,
    allOutlines gs (n.without? i).toList = (n.outline gs).filterMap (Entry.without? i)
  | _, h, .condition j c => Node.outline_without?_of_isLeaf h rfl
  | gs, h, .group j k cs => by
    have hhead : Entry.without? i ⟨gs, .group j k cs⟩ =
        ((Node.group j k cs).without? i).map (Entry.mk gs) := if_neg h
    by_cases hj : j = i
    · have hnone : (Node.group j k cs).without? i = none := if_pos hj
      have hmem : i ∈ j :: gs := List.mem_cons.2 (.inl hj.symm)
      rw [outline, List.filterMap_cons_none (by rw [hhead, hnone]; rfl), hnone,
        filterMap_without?_eq_nil hmem]
      rfl
    · have hcs := Node.allOutlines_allWithout (j :: gs)
        (List.not_mem_cons_of_ne_of_not_mem (Ne.symm hj) h) cs
      rw [outline, List.filterMap_cons, hhead, ← hcs, without?_group_of_ne hj]
      split_ifs with hnil
      · rw [hnil.2]
        rfl
      · rw [Option.toList_some, allOutlines_singleton, outline]
        rfl
  | _, h, .raw j s => Node.outline_without?_of_isLeaf h rfl

/-- The outline of the rest is made of what is left of each entry. -/
theorem Node.allOutlines_allWithout : ∀ (gs : List ι), i ∉ gs → ∀ ns : List (Node ι),
    allOutlines gs (allWithout i ns) = (allOutlines gs ns).filterMap (Entry.without? i)
  | _, _, [] => rfl
  | gs, h, n :: ns => by
    rw [allWithout_cons, allOutlines_append, Node.outline_without? gs h n,
      Node.allOutlines_allWithout gs h ns, allOutlines, List.filterMap_append]

end

namespace Tree

variable (i)

theorem outline_remove (t : Tree ι) :
    (t.remove i).outline = t.outline.filterMap (Entry.without? i) :=
  Node.allOutlines_allWithout [] List.not_mem_nil t.children

/-- The outline of the rest matches that of the entries that stay. -/
theorem matches_outline_remove (t : Tree ι) :
    List.Forall₂ Entry.Matches (t.remove i).outline (t.outline.filter (Entry.Stays i)) := by
  rw [outline_remove]
  exact forall₂_filterMap (fun e _ => e.without?_eq_none_iff)
    fun _ _ _ hf => Entry.matches_of_without? hf

/-- No node below the root has the identity any more. -/
theorem notMem_allIds_remove (t : Tree ι) : i ∉ Node.allIds (t.remove i).children := by
  rw [← map_id_outline, outline_remove]
  intro h
  obtain ⟨e, he, hid⟩ := List.mem_map.1 h
  obtain ⟨f, -, hf⟩ := List.mem_filterMap.1 he
  have hsame : e.node.id = f.node.id := (Entry.matches_of_without? hf).2.id_eq
  have hstays : f.Stays i := by
    by_contra hnot
    rw [f.without?_eq_none_iff.2 hnot] at hf
    cases hf
  exact hstays.2 (.named (hsame.symm.trans hid))

variable {i} in
theorem remove_of_notMem {t : Tree ι} (h : i ∉ Node.allIds t.children) : t.remove i = t := by
  rw [remove, Node.allWithout_of_notMem t.children h]

/-- The leaves that are left have another identity and lie in no group with this one. -/
theorem leafNodes_remove (t : Tree ι) :
    (t.remove i).leafNodes = (t.outline.filter fun e =>
      e.node.isLeaf ∧ e.node.id ≠ i ∧ i ∉ e.groups).map Entry.node := by
  rw [← leaves_outline, leaves_of_matches (t.matches_outline_remove i), List.filter_filter]
  congr 1
  refine List.filter_congr fun e _ => ?_
  by_cases hleaf : e.node.isLeaf = true
  · simp only [hleaf, Entry.Stays, Node.vanishes_iff_of_isLeaf hleaf, Bool.true_and, true_and,
      decide_eq_decide]
    exact and_comm
  · simp [hleaf]

/-- **Removing** an identity leaves no node with it below the root. The leaves that are left are those
that neither have it nor lie in a group that has it, and the groups that are left are as they were. A
group of another identity goes just if it lies in one with this identity, or has members and all of
them go. Nothing changes if no node below the root has the identity, and so nothing does when it is
removed again. -/
theorem remove_exact (t : Tree ι) :
    let r := t.remove i
    i ∉ Node.allIds r.children ∧
      r.leafNodes = (t.outline.filter fun e =>
        e.node.isLeaf ∧ e.node.id ≠ i ∧ i ∉ e.groups).map Entry.node ∧
      r.id = t.id ∧ r.logic = t.logic ∧
      List.Forall₂ Entry.Matches r.outline (t.outline.filter (Entry.Stays i)) ∧
      (∀ e ∈ t.outline, ∀ j k cs, e.node = .group j k cs → j ≠ i →
        (¬ e.Stays i ↔
          i ∈ e.groups ∨ cs ≠ [] ∧ ∀ n ∈ cs, ¬ Entry.Stays i ⟨j :: e.groups, n⟩)) ∧
      (i ∉ Node.allIds t.children → r = t) ∧
      r.remove i = r := by
  intro r
  refine ⟨t.notMem_allIds_remove i, t.leafNodes_remove i, rfl, rfl, t.matches_outline_remove i,
    ?_, remove_of_notMem, remove_of_notMem (t.notMem_allIds_remove i)⟩
  intro e _ j k cs he hj
  exact e.not_stays_group_iff he hj

/-- A group that is emptied takes the group around it along, one that was empty before stays. -/
theorem remove_exact_emptied :
    let c : Condition := ⟨"", "c", .isNull, none, none, .atWhere⟩
    let inner : Node String := .group "h" .and [.raw "x" "b"]
    let t : Tree String := ⟨"r", .and, [.condition "a" c, .group "g" .or [inner],
      .group "e" .or [], .group "x" .and [.condition "b" c, .group "x" .or []],
      .group "k" .or [.group "l" .and [], .condition "x" c]]⟩
    ((t.remove "x").outline.map fun e => (e.groups, e.node.id)) =
        [([], "a"), ([], "e"), ([], "k"), (["k"], "l")] ∧
      ¬ Entry.Stays "x" ⟨[], .group "g" .or [inner]⟩ ∧
      t.remove "r" = t ∧ (t.remove "x").remove "x" = t.remove "x" := by
  intro c inner t
  obtain ⟨-, -, -, -, -, hgroups, -, hagain⟩ := t.remove_exact "x"
  obtain ⟨-, -, -, -, -, -, habsent, -⟩ := t.remove_exact "r"
  have hraw : ¬ Entry.Stays "x" ⟨["h", "g"], .raw "x" "b"⟩ := fun h => h.2 (.named rfl)
  have hinner : ¬ Entry.Stays "x" ⟨["g"], inner⟩ := by
    refine (hgroups ⟨["g"], inner⟩ ?_ "h" .and _ rfl (by decide)).2 (.inr ⟨nofun, ?_⟩)
    · simp [t, inner, outline, Node.allOutlines, Node.outline]
    · exact List.forall_mem_singleton.2 hraw
  refine ⟨by decide +kernel, ?_, habsent (by decide), hagain⟩
  refine (hgroups ⟨[], .group "g" .or [inner]⟩ ?_ "g" .or _ rfl (by decide)).2
    (.inr ⟨nofun, List.forall_mem_singleton.2 hinner⟩)
  simp [t, inner, outline, Node.allOutlines, Node.outline]

end Tree

end Remove

end SqlFilter
