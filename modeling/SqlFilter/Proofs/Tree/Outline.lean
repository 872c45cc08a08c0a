import SqlFilter.Proofs.Tree.Kept

/-!
# Outlines of trees

The outline of a tree lists the nodes below its root in document order, each with the groups that it
lies in. It has all identities (`Tree.map_id_outline`) and all leaves (`Tree.leaves_outline`).
-/

namespace SqlFilter

variable {ι : Type}

/-- A node with the identities of the groups below the root that it lies in, the innermost first. -/
structure Entry (ι : Type) where
  /-- The identities of the groups. -/
  groups : List ι
  /-- The node. -/
  node : Node ι

mutual

/-- The nodes at and below a node that lies in the groups, in document order. -/
def Node.outline (gs : List ι) : Node ι → List (Entry ι)
  | .condition i c => [⟨gs, .condition i c⟩]
  | .group i k cs => ⟨gs, .group i k cs⟩ :: Node.allOutlines (i :: gs) cs
  | .raw i s => [⟨gs, .raw i s⟩]

/-- The nodes at and below nodes that lie in the groups, in document order. -/
def Node.allOutlines (gs : List ι) : List (Node ι) → List (Entry ι)
  | [] => []
  | n :: ns => n.outline gs ++ Node.allOutlines gs ns

end

/-- The nodes below the root in document order. -/
def Tree.outline (t : Tree ι) : List (Entry ι) := Node.allOutlines [] t.children

theorem Node.allOutlines_append (gs : List ι) (ns ms : List (Node ι)) :
    allOutlines gs (ns ++ ms) = allOutlines gs ns ++ allOutlines gs ms := by
  induction ns with
  | nil => rfl
  | cons n ns ih => rw [List.cons_append, allOutlines, allOutlines, ih, List.append_assoc]

theorem Node.allOutlines_singleton (gs : List ι) (n : Node ι) :
    allOutlines gs [n] = n.outline gs := by
  rw [allOutlines, allOutlines, List.append_nil]

theorem Node.outline_of_isLeaf (gs : List ι) {n : Node ι} (h : n.isLeaf = true) :
    n.outline gs = [⟨gs, n⟩] := by
  cases n with
  | condition i c => rfl
  | group i k cs => cases h
  | raw i s => rfl

mutual

theorem Node.map_id_outline : ∀ (gs : List ι) (n : Node ι),
    (n.outline gs).map (fun e => e.node.id) = n.ids
  | _, .condition _ _ => rfl
  | gs, .group i k cs => by
    rw [outline, ids, List.map_cons, Node.map_id_allOutlines (i :: gs) cs]
    rfl
  | _, .raw _ _ => rfl

/-- The outline has all identities in document order. -/
theorem Node.map_id_allOutlines : ∀ (gs : List ι) (ns : List (Node ι)),
    (allOutlines gs ns).map (fun e => e.node.id) = allIds ns
  | _, [] => rfl
  | gs, n :: ns => by
    rw [allOutlines, allIds, List.map_append, Node.map_id_outline gs n,
      Node.map_id_allOutlines gs ns]

end

mutual

theorem Node.leaves_outline : ∀ (gs : List ι) (n : Node ι),
    ((n.outline gs).filter fun e => e.node.isLeaf).map Entry.node = n.leafNodes
  | _, .condition _ _ => rfl
  | gs, .group i k cs => by
    rw [outline, leafNodes, List.filter_cons_of_neg (Bool.false_ne_true)]
    exact Node.leaves_allOutlines (i :: gs) cs
  | _, .raw _ _ => rfl

/-- The outline has all leaves in document order. -/
theorem Node.leaves_allOutlines : ∀ (gs : List ι) (ns : List (Node ι)),
    ((allOutlines gs ns).filter fun e => e.node.isLeaf).map Entry.node = allLeafNodes ns
  | _, [] => rfl
  | gs, n :: ns => by
    rw [allOutlines, allLeafNodes, List.filter_append, List.map_append, Node.leaves_outline gs n,
      Node.leaves_allOutlines gs ns]

end

mutual

theorem Node.groups_subset_of_mem_outline : ∀ (gs : List ι) (n : Node ι),
    ∀ e ∈ n.outline gs, gs ⊆ e.groups
  | _, .condition _ _ => fun e he => by
    obtain rfl := List.mem_singleton.1 he
    exact List.Subset.refl _
  | gs, .group i k cs => fun e he => by
    rcases List.mem_cons.1 he with rfl | he
    · exact List.Subset.refl _
    · exact List.subset_of_cons_subset
        (Node.groups_subset_of_mem_allOutlines (i :: gs) cs e he)
  | _, .raw _ _ => fun e he => by
    obtain rfl := List.mem_singleton.1 he
    exact List.Subset.refl _

/-- What is below nodes lies in the groups that they lie in. -/
theorem Node.groups_subset_of_mem_allOutlines : ∀ (gs : List ι) (ns : List (Node ι)),
    ∀ e ∈ allOutlines gs ns, gs ⊆ e.groups
  | _, [] => fun e he => nomatch he
  | gs, n :: ns => fun e he => by
    rcases List.mem_append.1 he with he | he
    · exact Node.groups_subset_of_mem_outline gs n e he
    · exact Node.groups_subset_of_mem_allOutlines gs ns e he

end

namespace Tree

theorem map_id_outline (t : Tree ι) :
    t.outline.map (fun e => e.node.id) = Node.allIds t.children :=
  Node.map_id_allOutlines [] t.children

theorem leaves_outline (t : Tree ι) :
    (t.outline.filter fun e => e.node.isLeaf).map Entry.node = t.leafNodes :=
  Node.leaves_allOutlines [] t.children

end Tree

end SqlFilter
