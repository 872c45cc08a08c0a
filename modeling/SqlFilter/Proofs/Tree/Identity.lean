import SqlFilter.Proofs.Tree.Kept

/-!
# Identities in a tree

The check of a tree for unique identities collects those seen so far. It succeeds just if no
identity occurs twice (`Tree.hasUniqueIds_iff`), and then an identity belongs to one condition at
most.
-/

namespace SqlFilter

variable {ι : Type}

/-! ## Unique identities -/

section Unique

variable [DecidableEq ι]

mutual

/-- The identities of a node are added if that leaves no identity twice. -/
theorem Node.addIds_eq {seen : List ι} (h : seen.Nodup) : ∀ n : Node ι,
    n.addIds seen =
      if (n.ids.reverse ++ seen).Nodup then some (n.ids.reverse ++ seen) else none
  | .condition i c => by
    rw [addIds, ids, List.reverse_singleton, List.singleton_append]
    by_cases hi : i ∈ seen <;> simp [hi, h]
  | .group i k cs => by
    rw [addIds, ids, List.reverse_cons, List.append_assoc, List.singleton_append]
    by_cases hi : i ∈ seen
    · have htwice : ¬ ((allIds cs).reverse ++ i :: seen).Nodup := fun hnodup =>
        (List.nodup_cons.1 hnodup.of_append_right).1 hi
      rw [if_pos hi, if_neg htwice]
    · rw [if_neg hi]
      exact Node.addAllIds_eq (List.nodup_cons.2 ⟨hi, h⟩) cs
  | .raw i s => by
    rw [addIds, ids, List.reverse_singleton, List.singleton_append]
    by_cases hi : i ∈ seen <;> simp [hi, h]

/-- The identities of nodes are added if that leaves no identity twice. -/
theorem Node.addAllIds_eq {seen : List ι} (h : seen.Nodup) : ∀ ns : List (Node ι),
    addAllIds seen ns =
      if ((allIds ns).reverse ++ seen).Nodup then some ((allIds ns).reverse ++ seen) else none
  | [] => by
    rw [addAllIds, allIds, List.reverse_nil, List.nil_append, if_pos h]
  | n :: ns => by
    rw [addAllIds, allIds, List.reverse_append, List.append_assoc, Node.addIds_eq h n]
    by_cases hn : (n.ids.reverse ++ seen).Nodup
    · rw [if_pos hn, Option.bind_some]
      exact Node.addAllIds_eq hn ns
    · have htwice : ¬ ((allIds ns).reverse ++ (n.ids.reverse ++ seen)).Nodup := fun hnodup =>
        hn hnodup.of_append_right
      rw [if_neg hn, if_neg htwice, Option.bind_none]

end

/-- No two nodes have the same identity just if no identity occurs twice. -/
theorem Tree.hasUniqueIds_iff (t : Tree ι) : t.hasUniqueIds = true ↔ t.ids.Nodup := by
  have hreverse : ((Node.allIds t.children).reverse ++ [t.id]).Nodup ↔ t.ids.Nodup := by
    rw [← List.reverse_cons, List.nodup_reverse]
    rfl
  rw [hasUniqueIds, Node.addAllIds_eq (List.nodup_singleton _), ← hreverse]
  split_ifs with h <;> simp [h]

end Unique

/-! ## Conditions -/

mutual

theorem Node.map_fst_leaves_sublist : ∀ n : Node ι, (n.leaves.map Prod.fst).Sublist n.ids
  | .condition _ _ => .refl _
  | .group i _ cs => (Node.map_fst_allLeaves_sublist cs).trans (List.sublist_cons_self i _)
  | .raw _ _ => .refl _

theorem Node.map_fst_allLeaves_sublist : ∀ ns : List (Node ι),
    ((allLeaves ns).map Prod.fst).Sublist (allIds ns)
  | [] => .refl _
  | n :: ns => by
    rw [allLeaves, allIds, List.map_append]
    exact (Node.map_fst_leaves_sublist n).append (Node.map_fst_allLeaves_sublist ns)

end

namespace Tree

variable {t : Tree ι}

/-- An identity belongs to one condition at most, if those of all nodes are unique. -/
theorem nodup_conditions (h : t.ids.Nodup) : (t.conditions.map Prod.fst).Nodup := by
  have hleaves : ((Node.allLeaves t.children).map Prod.fst).Nodup :=
    (List.nodup_cons.1 h).2.sublist (Node.map_fst_allLeaves_sublist t.children)
  refine List.pairwise_map.2 ((List.pairwise_map.1 hleaves).filterMap _ ?_)
  rintro ⟨i, c⟩ ⟨j, d⟩ hne x hx y hy
  obtain ⟨c', -, rfl⟩ := Option.map_eq_some_iff.1 hx
  obtain ⟨d', -, rfl⟩ := Option.map_eq_some_iff.1 hy
  exact hne

theorem eq_of_mem_conditions (h : t.ids.Nodup) {i : ι} {c d : Condition}
    (hc : (i, c) ∈ t.conditions) (hd : (i, d) ∈ t.conditions) : c = d :=
  congrArg Prod.snd (List.inj_on_of_nodup_map (nodup_conditions h) hc hd rfl)

end Tree

mutual

/-- The leaves of a node with their identities. -/
theorem Node.mem_leaves_iff {i : ι} {c : Condition} : ∀ n : Node ι,
    (i, some c) ∈ n.leaves ↔ .condition i c ∈ n.leafNodes
  | .condition j d => by simp [leaves, leafNodes]
  | .group j k cs => by
    rw [leaves, leafNodes]
    exact Node.mem_allLeaves_iff cs
  | .raw j s => by simp [leaves, leafNodes]

theorem Node.mem_allLeaves_iff {i : ι} {c : Condition} : ∀ ns : List (Node ι),
    (i, some c) ∈ allLeaves ns ↔ .condition i c ∈ allLeafNodes ns
  | [] => by simp [allLeaves, allLeafNodes]
  | n :: ns => by
    rw [allLeaves, allLeafNodes, List.mem_append, List.mem_append, Node.mem_leaves_iff n,
      Node.mem_allLeaves_iff ns]

end

/-- The conditions of a tree are its leaves that are conditions. -/
theorem Tree.mem_conditions_iff {t : Tree ι} {i : ι} {c : Condition} :
    (i, c) ∈ t.conditions ↔ .condition i c ∈ t.leafNodes := by
  rw [leafNodes, ← Node.mem_allLeaves_iff, conditions, List.mem_filterMap]
  constructor
  · rintro ⟨⟨j, d⟩, hmem, hd⟩
    obtain ⟨d, rfl, heq⟩ := Option.map_eq_some_iff.1 hd
    obtain ⟨rfl, rfl⟩ := Prod.mk.inj heq
    exact hmem
  · exact fun hmem => ⟨_, hmem, rfl⟩

end SqlFilter
