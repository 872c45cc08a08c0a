import Mathlib
import SqlFilter.Tree.Keep

/-!
# Parts of trees and their truth values

The leaves of a part of a tree are the leaves that pass the test (`Node.allLeafNodes_allKept`). Where
leaves have truth values, so do trees, and the parts of a tree by a partition of its leaves have the
value of the tree as their conjunction, provided that no disjunction is split
(`Tree.mergeAll_kept`).
-/

namespace SqlFilter

variable {ι : Type}

/-! ## Leaves -/

mutual

/-- The leaves of the node in document order. -/
def Node.leafNodes : Node ι → List (Node ι)
  | .condition i c => [.condition i c]
  | .group _ _ cs => Node.allLeafNodes cs
  | .raw i s => [.raw i s]

/-- The leaves of the nodes. -/
def Node.allLeafNodes : List (Node ι) → List (Node ι)
  | [] => []
  | n :: ns => n.leafNodes ++ Node.allLeafNodes ns

end

/-- The leaves of the tree in document order. -/
def Tree.leafNodes (t : Tree ι) : List (Node ι) := Node.allLeafNodes t.children

/-- Whether the node is not a group. -/
def Node.isLeaf : Node ι → Bool
  | .group _ _ _ => false
  | _ => true

theorem Node.leafNodes_of_isLeaf {n : Node ι} (h : n.isLeaf = true) : n.leafNodes = [n] := by
  cases n with
  | condition i c => rfl
  | group i k cs => cases h
  | raw i s => rfl

/-- Whether a leaf passes the test. -/
def LeafTest.passes (keep : LeafTest ι) : Node ι → Bool
  | .condition i c => keep (some (i, c))
  | _ => keep none

section Leaves

variable (keep : LeafTest ι)

/-- What is kept of a group is what is kept of its members, and nothing if that is nothing. -/
theorem Node.kept?_group (i : ι) (k : Logic) (cs : List (Node ι)) :
    (Node.group i k cs).kept? keep =
      if Node.allKept keep cs = [] then none else some (.group i k (Node.allKept keep cs)) := by
  rw [kept?]
  split
  · next h => rw [if_pos h]
  · next h => rw [if_neg h]

theorem Node.kept?_of_isLeaf {n : Node ι} (h : n.isLeaf = true) :
    n.kept? keep = if keep.passes n then some n else none := by
  cases n with
  | condition i c => rfl
  | group i k cs => cases h
  | raw i s => rfl

theorem Node.allKept_cons (n : Node ι) (ns : List (Node ι)) :
    Node.allKept keep (n :: ns) = (n.kept? keep).toList ++ Node.allKept keep ns := by
  rw [allKept]
  cases n.kept? keep <;> rfl

theorem Node.allLeafNodes_append (ns ms : List (Node ι)) :
    allLeafNodes (ns ++ ms) = allLeafNodes ns ++ allLeafNodes ms := by
  induction ns with
  | nil => rfl
  | cons n ns ih => rw [List.cons_append, allLeafNodes, allLeafNodes, ih, List.append_assoc]

mutual

theorem Node.allLeafNodes_kept? : ∀ n : Node ι,
    allLeafNodes (n.kept? keep).toList = n.leafNodes.filter keep.passes
  | .condition i c => by
    rw [kept?, leafNodes]
    cases h : keep (some (i, c)) <;> simp [allLeafNodes, leafNodes, LeafTest.passes, h]
  | .group i k cs => by
    have h := Node.allLeafNodes_allKept cs
    rw [kept?_group, leafNodes, ← h]
    split_ifs with hnil
    · rw [hnil]
      rfl
    · simp [allLeafNodes, leafNodes]
  | .raw i s => by
    rw [kept?, leafNodes]
    cases h : keep none <;> simp [allLeafNodes, leafNodes, LeafTest.passes, h]

/-- The leaves that are kept are those that pass the test. -/
theorem Node.allLeafNodes_allKept : ∀ ns : List (Node ι),
    allLeafNodes (allKept keep ns) = (allLeafNodes ns).filter keep.passes
  | [] => rfl
  | n :: ns => by
    rw [allKept_cons, allLeafNodes_append, Node.allLeafNodes_kept? n, Node.allLeafNodes_allKept ns,
      allLeafNodes, List.filter_append]

end

theorem Tree.leafNodes_kept (t : Tree ι) :
    (t.kept keep).leafNodes = t.leafNodes.filter keep.passes :=
  Node.allLeafNodes_allKept keep t.children

/-! ## Depth -/

mutual

theorem Node.maxDepth_kept?_le : ∀ n : Node ι, maxDepth (n.kept? keep).toList ≤ n.depth
  | .condition i c => by
    rw [kept?]
    split_ifs <;> exact Nat.zero_le _
  | .group i k cs => by
    have h := Node.maxDepth_allKept_le cs
    rw [kept?_group]
    split_ifs with hnil
    · exact Nat.zero_le _
    · simp only [Option.toList_some, maxDepth, depth]
      omega
  | .raw i s => by
    rw [kept?]
    split_ifs <;> exact Nat.zero_le _

theorem Node.maxDepth_allKept_le : ∀ ns : List (Node ι), maxDepth (allKept keep ns) ≤ maxDepth ns
  | [] => Nat.le_refl _
  | n :: ns => by
    have hn := Node.maxDepth_kept?_le n
    have hns := Node.maxDepth_allKept_le ns
    rw [allKept]
    cases h : n.kept? keep with
    | none => exact Nat.le_trans hns (Nat.le_max_right _ _)
    | some m =>
      simp only [h, Option.toList_some, maxDepth] at hn ⊢
      omega

end

/-- A part of a tree is nested no deeper than the tree. -/
theorem Tree.depth_kept_le (t : Tree ι) : (t.kept keep).depth ≤ t.depth :=
  Nat.add_le_add_left (Node.maxDepth_allKept_le keep t.children) 1

end Leaves

/-! ## Truth values -/

/-- A truth value of SQL. -/
inductive Truth where
  | false
  | unknown
  | true
  deriving DecidableEq, Repr

/-- The connective on truth values. -/
def Logic.apply : Logic → Truth → Truth → Truth
  | and, .true, b => b
  | and, .false, _ => .false
  | and, .unknown, .false => .false
  | and, .unknown, _ => .unknown
  | or, .false, b => b
  | or, .true, _ => .true
  | or, .unknown, .true => .true
  | or, .unknown, _ => .unknown

theorem Logic.apply_comm (k : Logic) (a b : Truth) : k.apply a b = k.apply b a := by
  cases k <;> cases a <;> cases b <;> rfl

theorem Logic.apply_assoc (k : Logic) (a b c : Truth) :
    k.apply (k.apply a b) c = k.apply a (k.apply b c) := by
  cases k <;> cases a <;> cases b <;> cases c <;> rfl

/-- The connective where there may be nothing on either side. -/
def Logic.merge (k : Logic) : Option Truth → Option Truth → Option Truth
  | none, b => b
  | some a, none => some a
  | some a, some b => some (k.apply a b)

/-- The connective over all values there are. -/
def Logic.mergeAll (k : Logic) (xs : List (Option Truth)) : Option Truth := xs.foldr k.merge none

section Merge

variable (k : Logic)

@[simp] theorem Logic.merge_none (a : Option Truth) : k.merge a none = a := by cases a <;> rfl

@[simp] theorem Logic.none_merge (a : Option Truth) : k.merge none a = a := rfl

theorem Logic.merge_eq_none_iff {a b : Option Truth} :
    k.merge a b = none ↔ a = none ∧ b = none := by
  cases a <;> cases b <;> simp [merge]

theorem Logic.merge_comm (a b : Option Truth) : k.merge a b = k.merge b a := by
  cases a <;> cases b <;> simp [merge, apply_comm]

theorem Logic.merge_assoc (a b c : Option Truth) :
    k.merge (k.merge a b) c = k.merge a (k.merge b c) := by
  cases a <;> cases b <;> cases c <;> simp [merge, apply_assoc]

theorem Logic.mergeAll_append (xs ys : List (Option Truth)) :
    k.mergeAll (xs ++ ys) = k.merge (k.mergeAll xs) (k.mergeAll ys) := by
  induction xs with
  | nil => rfl
  | cons x xs ih => exact (congrArg (k.merge x) ih).trans (k.merge_assoc _ _ _).symm

theorem Logic.merge_left_comm (a b c : Option Truth) :
    k.merge a (k.merge b c) = k.merge b (k.merge a c) := by
  rw [← merge_assoc, k.merge_comm a b, merge_assoc]

/-- Merging pairwise and merging each side are the same. -/
theorem Logic.mergeAll_map_merge {α : Type} (f g : α → Option Truth) (xs : List α) :
    k.mergeAll (xs.map fun x => k.merge (f x) (g x)) =
      k.merge (k.mergeAll (xs.map f)) (k.mergeAll (xs.map g)) := by
  induction xs with
  | nil => rfl
  | cons x xs ih =>
    simp only [mergeAll, List.map_cons, List.foldr_cons] at ih ⊢
    rw [ih, merge_assoc, merge_assoc, k.merge_left_comm (g x)]

theorem Logic.mergeAll_eq_none {α : Type} {f : α → Option Truth} {xs : List α}
    (h : ∀ x ∈ xs, f x = none) : k.mergeAll (xs.map f) = none := by
  induction xs with
  | nil => rfl
  | cons x xs ih =>
    obtain ⟨hx, hxs⟩ := List.forall_mem_cons.1 h
    exact (congrArg (k.merge · _) hx).trans (ih hxs)

/-- Where there is one value only, that is the result. -/
theorem Logic.mergeAll_eq_of_mem {α : Type} {f : α → Option Truth} {xs : List α}
    (hnodup : xs.Nodup) {x : α} (hx : x ∈ xs) (h : ∀ y ∈ xs, y ≠ x → f y = none) :
    k.mergeAll (xs.map f) = f x := by
  induction xs with
  | nil => exact absurd hx List.not_mem_nil
  | cons y xs ih =>
    obtain ⟨hy, hnodup⟩ := List.nodup_cons.1 hnodup
    obtain ⟨hfy, hxs⟩ := List.forall_mem_cons.1 h
    obtain rfl | hx := List.mem_cons.1 hx
    · have hnone := k.mergeAll_eq_none fun z hz => hxs z hz (by rintro rfl; exact hy hz)
      exact (congrArg (k.merge (f x)) hnone).trans (k.merge_none _)
    · have hne : y ≠ x := by rintro rfl; exact hy hx
      exact (congrArg (k.merge · _) (hfy hne)).trans (ih hnodup hx hxs)

end Merge

section Value

variable (shown : Node ι → Bool) (v : Node ι → Truth)

mutual

/-- The value of the node, given those of the leaves that are shown. What is not shown counts for
nothing, and so do groups of nothing. -/
def Node.value : Node ι → Option Truth
  | .condition i c => if shown (.condition i c) then some (v (.condition i c)) else none
  | .group _ k cs => Node.joint k cs
  | .raw i s => if shown (.raw i s) then some (v (.raw i s)) else none

/-- The value of the nodes joined by a connective. -/
def Node.joint (k : Logic) : List (Node ι) → Option Truth
  | [] => none
  | n :: ns => k.merge n.value (Node.joint k ns)

end

/-- The value of the tree. -/
def Tree.value (t : Tree ι) : Option Truth := Node.joint shown v t.logic t.children

variable {shown v}

theorem Node.joint_append (k : Logic) (ns ms : List (Node ι)) :
    joint shown v k (ns ++ ms) = k.merge (joint shown v k ns) (joint shown v k ms) := by
  induction ns with
  | nil => rfl
  | cons n ns ih => rw [List.cons_append, joint, joint, ih, k.merge_assoc]

theorem Node.joint_toList (k : Logic) (n? : Option (Node ι)) :
    joint shown v k n?.toList = n?.bind (value shown v) := by
  cases n? with
  | none => rfl
  | some n => exact k.merge_none _

section Congr

variable {v' : Node ι → Truth}

mutual

theorem Node.value_congr : ∀ n : Node ι, (∀ l ∈ n.leafNodes, v l = v' l) →
    n.value shown v = n.value shown v'
  | .condition i c => fun h => by rw [value, value, h _ (List.mem_singleton_self _)]
  | .group i k cs => fun h => Node.joint_congr k cs h
  | .raw i s => fun h => by rw [value, value, h _ (List.mem_singleton_self _)]

theorem Node.joint_congr (k : Logic) : ∀ ns : List (Node ι), (∀ l ∈ allLeafNodes ns, v l = v' l) →
    joint shown v k ns = joint shown v' k ns
  | [] => fun _ => rfl
  | n :: ns => by
    intro h
    obtain ⟨hn, hns⟩ := List.forall_mem_append.1 h
    rw [joint, joint, Node.value_congr n hn, Node.joint_congr k ns hns]

end

/-- The value of a tree depends on those of its leaves only. -/
theorem Tree.value_congr {t : Tree ι} (h : ∀ l ∈ t.leafNodes, v l = v' l) :
    t.value shown v = t.value shown v' :=
  Node.joint_congr t.logic t.children h

end Congr

variable {keep : LeafTest ι}

/-- What is kept of a group has the value of what is kept of its members. -/
theorem Node.value_kept?_group (i : ι) (k : Logic) (cs : List (Node ι)) :
    ((Node.group i k cs).kept? keep).bind (value shown v) = joint shown v k (allKept keep cs) := by
  rw [kept?_group]
  split_ifs with h
  · rw [h]
    rfl
  · rfl

theorem Node.joint_allKept_cons (k : Logic) (n : Node ι) (ns : List (Node ι)) :
    joint shown v k (allKept keep (n :: ns)) =
      k.merge ((n.kept? keep).bind (value shown v)) (joint shown v k (allKept keep ns)) := by
  rw [allKept_cons, joint_append, joint_toList]

theorem Node.value_of_isLeaf {n : Node ι} (h : n.isLeaf = true) :
    n.value shown v = if shown n then some (v n) else none := by
  cases n with
  | condition i c => rfl
  | group i k cs => cases h
  | raw i s => rfl

theorem Node.value_kept?_of_isLeaf {n : Node ι} (h : n.isLeaf = true) :
    (n.kept? keep).bind (value shown v) = if keep.passes n then n.value shown v else none := by
  rw [kept?_of_isLeaf keep h]
  split_ifs <;> rfl

theorem Node.value_kept?_leaf_of_passes {n : Node ι} (hn : n.isLeaf = true)
    (h : shown n = true → keep.passes n = true) :
    (n.kept? keep).bind (value shown v) = n.value shown v := by
  rw [value_kept?_of_isLeaf hn]
  split_ifs with hk
  · rfl
  · rw [value_of_isLeaf hn, if_neg (mt h hk)]

theorem Node.value_kept?_leaf_of_not_passes {n : Node ι} (hn : n.isLeaf = true)
    (h : shown n = true → keep.passes n = false) :
    (n.kept? keep).bind (value shown v) = none := by
  rw [value_kept?_of_isLeaf hn]
  split_ifs with hk
  · rw [value_of_isLeaf hn, if_neg fun hs => Bool.false_ne_true ((h hs).symm.trans hk)]
  · rfl

mutual

/-- Nothing is lost if all leaves that are shown are kept. -/
theorem Node.value_kept?_of_passes : ∀ n : Node ι,
    (∀ l ∈ n.leafNodes, shown l = true → keep.passes l = true) →
      (n.kept? keep).bind (value shown v) = n.value shown v
  | .condition _ _ => fun h => value_kept?_leaf_of_passes rfl (h _ (List.mem_singleton_self _))
  | .group i k cs => by
    intro h
    rw [value_kept?_group, value]
    exact Node.joint_allKept_of_passes k cs h
  | .raw _ _ => fun h => value_kept?_leaf_of_passes rfl (h _ (List.mem_singleton_self _))

theorem Node.joint_allKept_of_passes (k : Logic) : ∀ ns : List (Node ι),
    (∀ l ∈ allLeafNodes ns, shown l = true → keep.passes l = true) →
      joint shown v k (allKept keep ns) = joint shown v k ns
  | [] => fun _ => rfl
  | n :: ns => by
    intro h
    obtain ⟨hn, hns⟩ := List.forall_mem_append.1 h
    rw [joint_allKept_cons, Node.value_kept?_of_passes n hn, Node.joint_allKept_of_passes k ns hns,
      joint]

end

mutual

/-- Nothing is left if no leaf that is shown is kept. -/
theorem Node.value_kept?_of_not_passes : ∀ n : Node ι,
    (∀ l ∈ n.leafNodes, shown l = true → keep.passes l = false) →
      (n.kept? keep).bind (value shown v) = none
  | .condition _ _ => fun h => value_kept?_leaf_of_not_passes rfl (h _ (List.mem_singleton_self _))
  | .group i k cs => by
    intro h
    rw [value_kept?_group]
    exact Node.joint_allKept_of_not_passes k cs h
  | .raw _ _ => fun h => value_kept?_leaf_of_not_passes rfl (h _ (List.mem_singleton_self _))

theorem Node.joint_allKept_of_not_passes (k : Logic) : ∀ ns : List (Node ι),
    (∀ l ∈ allLeafNodes ns, shown l = true → keep.passes l = false) →
      joint shown v k (allKept keep ns) = none
  | [] => fun _ => rfl
  | n :: ns => by
    intro h
    obtain ⟨hn, hns⟩ := List.forall_mem_append.1 h
    rw [joint_allKept_cons, Node.value_kept?_of_not_passes n hn,
      Node.joint_allKept_of_not_passes k ns hns]
    rfl

end

/-- Nodes none of whose leaves is shown have no value. -/
theorem Node.joint_eq_none (k : Logic) {ns : List (Node ι)}
    (h : ∀ l ∈ allLeafNodes ns, shown l = false) : joint shown v k ns = none := by
  have hvacuous : ∀ l ∈ allLeafNodes ns, shown l = true → False := fun l hl hs =>
    Bool.false_ne_true ((h l hl).symm.trans hs)
  have hall := @Node.joint_allKept_of_passes ι shown v (fun _ => true) k ns
    fun l hl hs => (hvacuous l hl hs).elim
  rw [← hall]
  exact Node.joint_allKept_of_not_passes k ns fun l hl hs => (hvacuous l hl hs).elim

/-! ## Partitions of the leaves -/

variable {ρ : Type} (shown) (route : Node ι → ρ)

mutual

/-- No disjunction at or below the node has leaves on different routes, among those that are
shown. -/
def Node.Unsplit : Node ι → Prop
  | .group _ k cs =>
    (k = .or → ∀ a ∈ Node.allLeafNodes cs, ∀ b ∈ Node.allLeafNodes cs,
      shown a = true → shown b = true → route a = route b) ∧ Node.AllUnsplit cs
  | _ => True

/-- No disjunction at or below the nodes has leaves on different routes. -/
def Node.AllUnsplit : List (Node ι) → Prop
  | [] => True
  | n :: ns => n.Unsplit ∧ Node.AllUnsplit ns

end

variable {shown route} {routes : List ρ} {part : ρ → LeafTest ι}
  (hnodup : routes.Nodup) (hmem : ∀ l, route l ∈ routes)
  (hpart : ∀ r ∈ routes, ∀ l, (part r).passes l = true ↔ route l = r)

include hnodup hmem hpart in
/-- A leaf is in the part of its own route only. -/
theorem Node.mergeAll_leaf {l : Node ι} (hl : l.leafNodes = [l]) :
    Logic.and.mergeAll (routes.map fun r => (l.kept? (part r)).bind (value shown v)) =
      l.value shown v := by
  have hsingle : ∀ {P : Node ι → Prop}, P l → ∀ l' ∈ l.leafNodes, P l' := by
    intro P hP l' hl'
    rw [hl, List.mem_singleton] at hl'
    rwa [hl']
  refine (Logic.and.mergeAll_eq_of_mem hnodup (hmem l) fun r hr hne => ?_).trans ?_
  · exact Node.value_kept?_of_not_passes l <| hsingle fun _ =>
      (Bool.not_eq_true _).mp fun h => hne ((hpart r hr l).1 h).symm
  · exact Node.value_kept?_of_passes l <| hsingle fun _ => (hpart _ (hmem l) l).2 rfl

include hnodup hmem hpart in
/-- A disjunction is in the part of one route as a whole. -/
theorem Node.mergeAll_or {cs : List (Node ι)} (h : ∀ a ∈ allLeafNodes cs, ∀ b ∈ allLeafNodes cs,
      shown a = true → shown b = true → route a = route b) :
    Logic.and.mergeAll (routes.map fun r => joint shown v .or (allKept (part r) cs)) =
      joint shown v .or cs := by
  by_cases hex : ∃ a ∈ allLeafNodes cs, shown a = true
  · obtain ⟨a, ha, hs⟩ := hex
    refine (Logic.and.mergeAll_eq_of_mem hnodup (hmem a) fun r hr hne => ?_).trans ?_
    · refine Node.joint_allKept_of_not_passes .or cs fun l hl hls => ?_
      refine (Bool.not_eq_true _).mp fun hp => hne ?_
      rw [← (hpart r hr l).1 hp, h l hl a ha hls hs]
    · refine Node.joint_allKept_of_passes .or cs fun l hl hls => ?_
      exact (hpart _ (hmem a) l).2 (h l hl a ha hls hs)
  · have hnone : ∀ l ∈ allLeafNodes cs, shown l = false := fun l hl =>
      (Bool.not_eq_true _).mp fun hs => hex ⟨l, hl, hs⟩
    rw [Node.joint_eq_none .or hnone]
    refine Logic.and.mergeAll_eq_none fun r _ => Node.joint_eq_none .or fun l hl => ?_
    rw [Node.allLeafNodes_allKept] at hl
    exact hnone l (List.mem_filter.1 hl).1

mutual

theorem Node.mergeAll_parts (hnodup : routes.Nodup) (hmem : ∀ l, route l ∈ routes)
    (hpart : ∀ r ∈ routes, ∀ l, (part r).passes l = true ↔ route l = r) :
    ∀ n : Node ι, n.Unsplit shown route →
      Logic.and.mergeAll (routes.map fun r => (n.kept? (part r)).bind (value shown v)) =
        n.value shown v
  | .condition i c => fun _ => Node.mergeAll_leaf hnodup hmem hpart rfl
  | .group i k cs => by
    rintro ⟨hor, hcs⟩
    simp only [value_kept?_group, value]
    cases k with
    | and => exact Node.mergeAll_allParts hnodup hmem hpart cs hcs
    | or => exact Node.mergeAll_or hnodup hmem hpart (hor rfl)
  | .raw i s => fun _ => Node.mergeAll_leaf hnodup hmem hpart rfl

theorem Node.mergeAll_allParts (hnodup : routes.Nodup) (hmem : ∀ l, route l ∈ routes)
    (hpart : ∀ r ∈ routes, ∀ l, (part r).passes l = true ↔ route l = r) :
    ∀ ns : List (Node ι), Node.AllUnsplit shown route ns →
      Logic.and.mergeAll (routes.map fun r => joint shown v .and (allKept (part r) ns)) =
        joint shown v .and ns
  | [] => fun _ => Logic.and.mergeAll_eq_none fun _ _ => rfl
  | n :: ns => by
    rintro ⟨hn, hns⟩
    simp only [joint_allKept_cons]
    rw [Logic.and.mergeAll_map_merge, Node.mergeAll_parts hnodup hmem hpart n hn,
      Node.mergeAll_allParts hnodup hmem hpart ns hns, joint]

end

include hnodup hmem hpart in
/-- **The parts** of a tree by the routes of its leaves have the value of the tree as their
conjunction, if no disjunction is split. -/
theorem Tree.mergeAll_kept (t : Tree ι) (h : t.toNode.Unsplit shown route) :
    Logic.and.mergeAll (routes.map fun r => (t.kept (part r)).value shown v) = t.value shown v := by
  have := @Node.mergeAll_parts ι shown v ρ route routes part hnodup hmem hpart t.toNode h
  simp only [Tree.toNode, Node.value_kept?_group, Node.value] at this
  exact this

end Value

end SqlFilter
