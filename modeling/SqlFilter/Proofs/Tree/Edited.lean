import SqlFilter.Proofs.Tree.Identity
import SqlFilter.Tree.Edit

/-!
# Identities under editing

No edit gives the identity of one node to another (`Editor.hasUniqueIds_run`). Removing nodes and
keeping some takes identities away, and a toggled connective leaves them as they are. New ones come
from appending a condition and from renaming only, where they are drawn from a supply that does not
repeat what has been seen.
-/

namespace SqlFilter

variable {ι : Type}

/-! ## Finding -/

section Find

variable [DecidableEq ι] {i : ι}

mutual

theorem Node.find?_eq_none_iff : ∀ n : Node ι, n.find? i = none ↔ i ∉ n.ids
  | .condition j c => by
    rw [find?, ids, List.mem_singleton]
    by_cases h : j = i <;> simp [h, Ne.symm]
  | .group j k cs => by
    rw [find?, ids, List.mem_cons]
    by_cases h : j = i
    · simp [h]
    · rw [if_neg h, Node.findAmong?_eq_none_iff cs]
      simp [Ne.symm h]
  | .raw j s => by
    rw [find?, ids, List.mem_singleton]
    by_cases h : j = i <;> simp [h, Ne.symm]

/-- Nothing is found just if no node has the identity. -/
theorem Node.findAmong?_eq_none_iff : ∀ ns : List (Node ι), findAmong? i ns = none ↔ i ∉ allIds ns
  | [] => by simp [findAmong?, allIds]
  | n :: ns => by
    rw [findAmong?, allIds, List.mem_append, not_or, ← Node.find?_eq_none_iff n,
      ← Node.findAmong?_eq_none_iff ns]
    cases n.find? i <;> simp

end

theorem Tree.contains_iff {t : Tree ι} : t.contains i = true ↔ i ∈ t.ids := by
  rw [contains, Tree.ids, List.mem_cons, Bool.or_eq_true, decide_eq_true_eq,
    Option.isSome_iff_ne_none, Tree.find?, Ne, Node.findAmong?_eq_none_iff, not_not]
  exact or_congr_left eq_comm

end Find

/-! ## Taking nodes away -/

theorem Node.allIds_append (ns ms : List (Node ι)) : allIds (ns ++ ms) = allIds ns ++ allIds ms := by
  induction ns with
  | nil => rfl
  | cons n ns ih => rw [List.cons_append, allIds, allIds, ih, List.append_assoc]

section Keep

variable (keep : LeafTest ι)

mutual

theorem Node.ids_kept?_sublist : ∀ n : Node ι, (allIds (n.kept? keep).toList).Sublist n.ids
  | .condition i c => by
    rw [kept?]
    split_ifs
    · exact .refl _
    · exact List.nil_sublist _
  | .group i k cs => by
    rw [kept?_group]
    split_ifs
    · exact List.nil_sublist _
    · rw [Option.toList_some, allIds, allIds, List.append_nil, ids, ids]
      exact (Node.allIds_allKept_sublist cs).cons_cons i
  | .raw i s => by
    rw [kept?]
    split_ifs
    · exact .refl _
    · exact List.nil_sublist _

/-- What is kept has its identities still. -/
theorem Node.allIds_allKept_sublist : ∀ ns : List (Node ι),
    (allIds (allKept keep ns)).Sublist (allIds ns)
  | [] => .refl _
  | n :: ns => by
    rw [allKept_cons, allIds_append, allIds]
    exact (Node.ids_kept?_sublist n).append (Node.allIds_allKept_sublist ns)

end

theorem Tree.ids_kept_sublist (t : Tree ι) : (t.kept keep).ids.Sublist t.ids :=
  (Node.allIds_allKept_sublist keep t.children).cons_cons t.id

end Keep

section Remove

variable [DecidableEq ι] (i : ι)

/-- What is left of a group: nothing of one that has the identity or is emptied. -/
theorem Node.without?_group (j : ι) (k : Logic) (cs : List (Node ι)) :
    (Node.group j k cs).without? i =
      if j = i then none
      else if i ∈ allIds cs then
        if allWithout i cs = [] then none else some (.group j k (allWithout i cs))
      else some (.group j k cs) := by
  have hfind : (findAmong? i cs).isNone = true ↔ i ∉ allIds cs := by
    rw [Option.isNone_iff_eq_none, findAmong?_eq_none_iff]
  rw [without?]
  simp only [hfind, ite_not]
  split_ifs with _ _ hnil
  · rfl
  · rw [hnil]
  · split
    · next h => exact absurd h hnil
    · rfl
  · rfl

theorem Node.allWithout_cons (n : Node ι) (ns : List (Node ι)) :
    allWithout i (n :: ns) = (n.without? i).toList ++ allWithout i ns := by
  rw [allWithout]
  cases n.without? i <;> rfl

mutual

theorem Node.ids_without?_sublist : ∀ n : Node ι, (allIds (n.without? i).toList).Sublist n.ids
  | .condition j c => by
    rw [without?]
    split_ifs
    · exact List.nil_sublist _
    · exact .refl _
  | .group j k cs => by
    rw [without?_group]
    split_ifs
    · exact List.nil_sublist _
    · exact List.nil_sublist _
    · rw [Option.toList_some, allIds, allIds, List.append_nil, ids, ids]
      exact (Node.allIds_allWithout_sublist cs).cons_cons j
    · rw [Option.toList_some, allIds, allIds, List.append_nil]
  | .raw j s => by
    rw [without?]
    split_ifs
    · exact List.nil_sublist _
    · exact .refl _

/-- What is not removed has its identities still. -/
theorem Node.allIds_allWithout_sublist : ∀ ns : List (Node ι),
    (allIds (allWithout i ns)).Sublist (allIds ns)
  | [] => .refl _
  | n :: ns => by
    rw [allWithout_cons, allIds_append, allIds]
    exact (Node.ids_without?_sublist n).append (Node.allIds_allWithout_sublist ns)

end

theorem Tree.ids_remove_sublist (t : Tree ι) : (t.remove i).ids.Sublist t.ids :=
  (Node.allIds_allWithout_sublist i t.children).cons_cons t.id

end Remove

/-! ## Changing nodes in place -/

section Update

variable [DecidableEq ι] (i : ι) {f : Node ι → Node ι}

mutual

theorem Node.ids_update? (hf : ∀ n, ((f n).withId n.id).ids = n.ids) : ∀ n : Node ι,
    ∀ m ∈ n.update? i f, m.ids = n.ids
  | .condition j c => by
    intro m hm
    rw [update?] at hm
    split_ifs at hm
    · obtain rfl := Option.some.inj hm
      exact hf (.condition j c)
    · cases hm
  | .group j k cs => by
    intro m hm
    rw [update?] at hm
    split_ifs at hm
    · obtain rfl := Option.some.inj hm
      exact hf (.group j k cs)
    · obtain ⟨ds, hds, rfl⟩ := Option.map_eq_some_iff.1 hm
      rw [ids, ids, Node.allIds_updateAmong? hf cs ds hds]
  | .raw j s => by
    intro m hm
    rw [update?] at hm
    split_ifs at hm
    · obtain rfl := Option.some.inj hm
      exact hf (.raw j s)
    · cases hm

/-- A change that leaves the identities below a node as they are leaves all of them so. -/
theorem Node.allIds_updateAmong? (hf : ∀ n, ((f n).withId n.id).ids = n.ids) :
    ∀ ns : List (Node ι), ∀ ms ∈ updateAmong? i f ns, allIds ms = allIds ns
  | [] => fun ms hms => nomatch hms
  | n :: ns => by
    intro ms hms
    rw [updateAmong?] at hms
    cases hn : n.update? i f with
    | some m =>
      rw [hn] at hms
      obtain rfl := Option.some.inj hms
      rw [allIds, allIds, Node.ids_update? hf n m hn]
    | none =>
      rw [hn] at hms
      obtain ⟨rest, hrest, rfl⟩ := Option.map_eq_some_iff.1 hms
      rw [allIds, allIds, Node.allIds_updateAmong? hf ns rest hrest]

end

end Update

theorem Node.ids_toggled (n : Node ι) : (n.toggled.withId n.id).ids = n.ids := by
  cases n <;> rfl

theorem Tree.ids_toggle [DecidableEq ι] (i : ι) (t : Tree ι) : (t.toggle i).ids = t.ids := by
  rw [toggle, update]
  split_ifs
  · rfl
  · cases h : Node.updateAmong? i Node.toggled t.children with
    | none => rfl
    | some cs =>
      rw [Option.getD_some, Tree.ids, Tree.ids,
        Node.allIds_updateAmong? i Node.ids_toggled t.children cs h]

/-! ## Drawing identities -/

theorem Tree.ids_append [DecidableEq ι] (fresh i : ι) (c : Condition) (t : Tree ι) :
    (t.append fresh i c).ids = t.ids ++ [if t.contains i then fresh else i] := by
  rw [append, Tree.ids, Node.allIds_append, Tree.ids]
  rfl

section Rename

variable {κ : Type} (name : Nat → κ)

/-- The next `n` identities of a supply, from the one with the number `k` on. -/
def draw (k n : Nat) : List κ := (List.range n).map fun j => name (k + j)

theorem draw_succ (k n : Nat) : draw name k (1 + n) = name k :: draw name (k + 1) n := by
  have hnext : ∀ j, name (k + (j + 1)) = name (k + 1 + j) := fun j => by
    rw [Nat.add_assoc, Nat.add_comm 1 j]
  rw [draw, Nat.add_comm, List.range_succ_eq_map, List.map_cons, List.map_map]
  simp only [Function.comp_def, Nat.succ_eq_add_one, hnext]
  rfl

theorem draw_add (k m n : Nat) : draw name k (m + n) = draw name k m ++ draw name (k + m) n := by
  rw [draw, List.range_add, List.map_append, List.map_map]
  simp only [Function.comp_def, ← Nat.add_assoc]
  rfl

mutual

theorem Node.ids_renamed : ∀ (k : Nat) (n : Node ι), (n.renamed name k).ids = draw name k n.size
  | _, .condition _ _ => rfl
  | k, .group _ logic cs => by
    rw [renamed, ids, size, draw_succ, Node.allIds_allRenamed (k + 1) cs]
  | _, .raw _ _ => rfl

/-- The identities of renamed nodes are the next ones in document order. -/
theorem Node.allIds_allRenamed : ∀ (k : Nat) (ns : List (Node ι)),
    allIds (allRenamed name k ns) = draw name k (totalSize ns)
  | _, [] => rfl
  | k, n :: ns => by
    rw [allRenamed, allIds, totalSize, draw_add, Node.ids_renamed k n,
      Node.allIds_allRenamed (k + n.size) ns]

end

theorem Tree.ids_renamed (k : Nat) (t : Tree ι) : (t.renamed name k).ids = draw name k t.size := by
  rw [renamed, Tree.ids, size, draw_succ, Node.allIds_allRenamed]

/-- Identities that differ from those drawn before them are all different. -/
theorem nodup_draw {k n : Nat} (h : ∀ j < n, name (k + j) ∉ draw name k j) :
    (draw name k n).Nodup := by
  induction n with
  | zero => exact List.nodup_nil
  | succ n ih =>
    rw [draw_add]
    refine (ih fun j hj => h j (by omega)).append (List.nodup_singleton _) ?_
    exact List.disjoint_singleton.2 (h n (by omega))

end Rename

/-! ## Runs of edits -/

/-- An edit of a tree. -/
inductive Edit (ι : Type) where
  /-- Removes the nodes with an identity. -/
  | remove (i : ι)
  /-- Appends a condition that comes with an identity. -/
  | append (i : ι) (c : Condition)
  /-- Toggles the connective of a group. -/
  | toggle (i : ι)
  /-- Keeps the leaves that pass a test. -/
  | keep (test : LeafTest ι)
  /-- Leaves empty groups out. -/
  | prune
  /-- Keeps the conditions of a placement. -/
  | place (p : Placement) (table : Option String)
  /-- Copies the tree with new identities. -/
  | rename

namespace Edit

/-- The identity of the condition that the edit brings. -/
def brought : Edit ι → List ι
  | append i _ => [i]
  | _ => []

variable [DecidableEq ι]

/-- How many identities the edit draws. -/
def draws (t : Tree ι) : Edit ι → Nat
  | append i _ => if t.contains i then 1 else 0
  | rename => t.size
  | _ => 0

/-- The tree behind the edit, which draws identities from the number `k` on. -/
def apply (name : Nat → ι) (k : Nat) (t : Tree ι) : Edit ι → Tree ι
  | remove i => t.remove i
  | append i c => t.append (name k) i c
  | toggle i => t.toggle i
  | keep test => t.kept test
  | prune => t.pruned
  | place p table => t.placed p table
  | rename => t.renamed name k

end Edit

/-- A tree that is being edited. -/
structure Editor (ι : Type) where
  /-- The tree. -/
  tree : Tree ι
  /-- How many identities have been drawn. -/
  drawn : Nat
  /-- The identities in all trees and conditions so far. -/
  seen : List ι

namespace Editor

/-- The editor with a tree to start from. -/
def start (t : Tree ι) : Editor ι := ⟨t, 0, t.ids⟩

variable [DecidableEq ι] (name : Nat → ι)

/-- The editor behind an edit. -/
def step (s : Editor ι) (e : Edit ι) : Editor ι :=
  let t := e.apply name s.drawn s.tree
  ⟨t, s.drawn + e.draws s.tree, s.seen ++ e.brought ++ t.ids⟩

/-- The editor behind some edits. -/
def run (s : Editor ι) (es : List (Edit ι)) : Editor ι := es.foldl (step name) s

/-- Whether every identity that the edit draws is in no tree and no condition so far. -/
def DrawsNew (s : Editor ι) (e : Edit ι) : Prop :=
  ∀ j < e.draws s.tree,
    name (s.drawn + j) ∉ s.seen ++ e.brought ++ draw name s.drawn j

/-- Whether all of the edits draw new identities only, one behind the other. -/
def AllDrawNew (s : Editor ι) : List (Edit ι) → Prop
  | [] => True
  | e :: es => s.DrawsNew name e ∧ (s.step name e).AllDrawNew es

instance (s : Editor ι) (e : Edit ι) : Decidable (s.DrawsNew name e) :=
  inferInstanceAs (Decidable (∀ j < _, _))

instance decidableAllDrawNew : (s : Editor ι) → (es : List (Edit ι)) →
    Decidable (s.AllDrawNew name es)
  | _, [] => inferInstanceAs (Decidable True)
  | s, e :: es =>
    have := decidableAllDrawNew (s.step name e) es
    inferInstanceAs (Decidable (s.DrawsNew name e ∧ (s.step name e).AllDrawNew name es))

/-- The identities of the tree are unique and have been seen. -/
structure Unique (s : Editor ι) : Prop where
  nodup : s.tree.ids.Nodup
  seen : s.tree.ids ⊆ s.seen

variable {name} {s : Editor ι}

/-- The tree behind an edit has no identity twice. -/
theorem Unique.nodup_apply (h : s.Unique) {e : Edit ι} (hnew : s.DrawsNew name e) :
    (e.apply name s.drawn s.tree).ids.Nodup := by
  cases e with
  | remove i => exact h.nodup.sublist (s.tree.ids_remove_sublist i)
  | append i c =>
    show (s.tree.append (name s.drawn) i c).ids.Nodup
    rw [Tree.ids_append]
    refine h.nodup.append (List.nodup_singleton _) (List.disjoint_singleton.2 fun hmem => ?_)
    by_cases hi : s.tree.contains i = true
    · rw [if_pos hi] at hmem
      have hdraws : 0 < (Edit.append i c).draws s.tree := by
        simp only [Edit.draws, hi, if_true, Nat.lt_one_iff]
      have hfresh := hnew 0 hdraws
      rw [Nat.add_zero, List.mem_append, List.mem_append, not_or, not_or] at hfresh
      exact hfresh.1.1 (h.seen hmem)
    · rw [if_neg hi] at hmem
      exact hi (Tree.contains_iff.2 hmem)
  | toggle i =>
    show (s.tree.toggle i).ids.Nodup
    rw [Tree.ids_toggle]
    exact h.nodup
  | keep test => exact h.nodup.sublist (s.tree.ids_kept_sublist test)
  | prune => exact h.nodup.sublist (s.tree.ids_kept_sublist _)
  | place p table =>
    cases p with
    | on => exact h.nodup.sublist (s.tree.ids_kept_sublist _)
    | atWhere => exact h.nodup.sublist (s.tree.ids_kept_sublist _)
  | rename =>
    show (s.tree.renamed name s.drawn).ids.Nodup
    rw [Tree.ids_renamed]
    exact nodup_draw name fun j hj hmem => hnew j hj (List.mem_append_right _ hmem)

theorem Unique.step (h : s.Unique) {e : Edit ι} (hnew : s.DrawsNew name e) :
    (s.step name e).Unique :=
  ⟨h.nodup_apply hnew, List.subset_append_right _ _⟩

theorem Unique.run (h : s.Unique) {es : List (Edit ι)} (hnew : s.AllDrawNew name es) :
    (s.run name es).Unique := by
  induction es generalizing s with
  | nil => exact h
  | cons e es ih => exact ih (h.step hnew.1) hnew.2

/-- **Editing** keeps identities unique, if those drawn are new; and the check for unique identities
succeeds just if no identity occurs twice. -/
theorem hasUniqueIds_run {t : Tree ι} (h : t.hasUniqueIds = true) {es : List (Edit ι)}
    (hnew : (start t).AllDrawNew name es) :
    ((start t).run name es).tree.hasUniqueIds = true ∧
      ∀ u : Tree ι, u.hasUniqueIds = true ↔ u.ids.Nodup := by
  have hstart : (start t).Unique := ⟨t.hasUniqueIds_iff.1 h, List.Subset.refl _⟩
  exact ⟨(Tree.hasUniqueIds_iff _).2 (hstart.run hnew).nodup, Tree.hasUniqueIds_iff⟩

/-- A condition that comes twice gets a new identity, the copy of the tree has new ones throughout,
and the group that is emptied goes. -/
theorem hasUniqueIds_run_append_rename :
    let c : Condition := ⟨"", "c", .isNull, none, none, .on⟩
    let t : Tree String := ⟨"r", .and, [.condition "a" c, .group "g" .or [.raw "s" "b"]]⟩
    let es : List (Edit String) := [.append "a" c, .toggle "g", .rename, .append "a" c,
      .append "n2" c, .remove "n4", .place .on none, .keep fun _ => true, .prune]
    let name (k : Nat) := "n" ++ toString k
    t.hasUniqueIds = true ∧ (start t).AllDrawNew name es ∧
      ((start t).run name es).tree.ids = ["n1", "n2", "n5", "a", "n6"] ∧
      ((start t).run name es).tree.hasUniqueIds = true := by
  intro c t es name
  have h : t.hasUniqueIds = true := by decide
  have hnew : (start t).AllDrawNew name es := by decide +kernel
  exact ⟨h, hnew, by decide +kernel, (hasUniqueIds_run h hnew).1⟩

end Editor

end SqlFilter
