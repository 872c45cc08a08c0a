import SqlFilter.Proofs.Tree.Kept
import SqlFilter.Tree.Printer
import SqlFilter.Tree.Reader

/-!
# What is written of a tree

A tree that is not nested too deeply is written, and as nothing just if none of its leaves is
(`Printer.tree_eq_empty_iff`). Which leaves are, no printer decides
(`Printer.tree_eq_empty_iff_leaves`).
-/

namespace SqlFilter

variable {ι : Type}

theorem checkDepth_of_le {depth max : Nat} (h : depth ≤ max) : checkDepth depth max = .ok depth :=
  if_neg (Nat.not_lt.2 h)

namespace Printer

variable (p : Printer ι)

theorem write_of_depth_le {t : Tree ι} (h : t.depth ≤ p.maxDepth) :
    p.write t = .ok (p.tree t) := by
  rw [write, checkDepth_of_le h]
  rfl

variable {p} in
/-- What is written of a tree, if it is written at all. -/
theorem tree_of_write {t : Tree ι} {sql : String} (h : p.write t = .ok sql) :
    t.depth ≤ p.maxDepth ∧ p.tree t = sql := by
  rw [write, checkDepth] at h
  split_ifs at h with hd
  · cases h
  · exact ⟨Nat.not_lt.1 hd, Except.ok.inj h⟩

theorem toList_parenthesized (s : String) :
    (parenthesized s).toList = '(' :: s.toList ++ [')'] := by
  rw [parenthesized, String.toList_append, String.toList_append]
  rfl

theorem parenthesized_ne_empty (s : String) : parenthesized s ≠ "" := by
  intro h
  have := congrArg String.toList h
  rw [toList_parenthesized] at this
  cases this

theorem length_parenthesized (s : String) : (parenthesized s).length = s.length + 2 := by
  rw [parenthesized, String.length_append, String.length_append]
  exact congrArg (· + 1) (Nat.add_comm 1 s.length)

theorem parenthesized_ne (s : String) : parenthesized s ≠ s := by
  intro h
  have := congrArg String.length h
  rw [length_parenthesized] at this
  omega

theorem parenthesized_inj {s s' : String} (h : parenthesized s = parenthesized s') : s = s' := by
  have := congrArg String.toList h
  rw [toList_parenthesized, toList_parenthesized] at this
  exact String.toList_inj.1 (List.append_cancel_right (List.cons.inj this).2)

theorem join_eq_empty_iff (k : Logic) (ms : List Member) : join k ms = "" ↔ ms = [] := by
  constructor
  · intro h
    unfold join at h
    split at h
    · rfl
    · exact absurd h (parenthesized_ne_empty _)
    · exact absurd h (parenthesized_ne_empty _)
  · rintro rfl
    rfl

/-- Raw SQL as a whole gets parentheses around it. -/
theorem tree_raw {i j : ι} {s : String} (hne : Text.trim s ≠ "") :
    p.tree ⟨i, .and, [.raw j s]⟩ = parenthesized (Text.trim s) := by
  rw [tree, members, node, if_neg hne]
  rfl

/-- Whether a leaf is written as something. -/
def shows (leaf : Node ι) : Bool := p.node leaf ≠ ""

variable {p} (v : Node ι → Truth)

mutual

theorem node_eq_empty_iff : ∀ n : Node ι, p.node n = "" ↔ n.value p.shows v = none
  | .condition i c => by
    rw [Node.value, shows]
    split_ifs with h <;> simpa using h
  | .group i k cs => by
    rw [node, join_eq_empty_iff, Node.value]
    exact Printer.members_eq_nil_iff k cs
  | .raw i s => by
    rw [Node.value, shows]
    split_ifs with h <;> simpa using h

theorem members_eq_nil_iff (k : Logic) : ∀ ns : List (Node ι),
    p.members ns = [] ↔ Node.joint p.shows v k ns = none
  | [] => ⟨fun _ => rfl, fun _ => rfl⟩
  | n :: ns => by
    have hn := Printer.node_eq_empty_iff n
    have hns := Printer.members_eq_nil_iff k ns
    rw [members, Node.joint, Logic.merge_eq_none_iff, ← hn, ← hns]
    split_ifs with h
    · exact ⟨fun hms => ⟨h, hms⟩, fun hms => hms.2⟩
    · exact ⟨nofun, fun hms => absurd hms.1 h⟩

end

mutual

theorem node_ne_empty_of_mem {l : Node ι} (hl : p.shows l = true) : ∀ n : Node ι,
    l ∈ n.leafNodes → p.node n ≠ ""
  | .condition i c => fun h => of_decide_eq_true (List.mem_singleton.1 h ▸ hl)
  | .group i k cs => by
    intro h
    rw [node, Ne, join_eq_empty_iff]
    exact Printer.members_ne_nil_of_mem hl cs h
  | .raw i s => fun h => of_decide_eq_true (List.mem_singleton.1 h ▸ hl)

/-- A leaf that is written as something is a part of what is written. -/
theorem members_ne_nil_of_mem {l : Node ι} (hl : p.shows l = true) : ∀ ns : List (Node ι),
    l ∈ Node.allLeafNodes ns → p.members ns ≠ []
  | [] => fun h => absurd h List.not_mem_nil
  | n :: ns => by
    intro h
    rw [members]
    split_ifs with hn
    · refine Printer.members_ne_nil_of_mem hl ns ((List.mem_append.1 h).resolve_left fun h => ?_)
      exact Printer.node_ne_empty_of_mem hl n h hn
    · exact List.cons_ne_nil _ _

end

theorem tree_ne_empty_of_mem {t : Tree ι} {l : Node ι} (hl : p.shows l = true)
    (h : l ∈ t.leafNodes) : p.tree t ≠ "" := fun hempty =>
  members_ne_nil_of_mem hl t.children h ((join_eq_empty_iff _ _).1 hempty)

/-- A tree is written as nothing just if it has no value. -/
theorem tree_eq_empty_iff (t : Tree ι) : p.tree t = "" ↔ t.value p.shows v = none := by
  rw [tree, join_eq_empty_iff, Tree.value]
  exact members_eq_nil_iff v t.logic t.children

end Printer

/-! ## Leaves that are written as nothing -/

/-- A condition is written as something just if it is complete. -/
theorem Condition.sql_eq_empty_iff (d : Dialect) (cast : Option String) (c : Condition) :
    c.sql d cast = "" ↔ ¬ c.IsComplete := by
  have hspace : ∀ before behind : String, before ++ " " ++ behind ≠ "" := by
    intro before behind h
    have hlength := congrArg String.length h
    rw [String.length_append, String.length_append] at hlength
    exact absurd hlength (Nat.ne_of_gt (Nat.add_pos_left (Nat.succ_pos _) _))
  unfold sql
  split_ifs with hc
  · refine iff_of_false (fun h => ?_) (not_not_intro hc)
    dsimp only at h
    split at h
    all_goals
      simp only [String.append_assoc] at h
      exact hspace _ _ ((String.append_assoc ..).trans h)
  · exact iff_of_true rfl hc

/-- The leaf is written as nothing: an incomplete condition, or raw SQL without any. -/
def Node.isSilent : Node ι → Bool
  | .condition _ c => !decide c.IsComplete
  | .group _ _ _ => true
  | .raw _ s => Text.trim s = ""

namespace Printer

variable (p : Printer ι)

mutual

theorem node_eq_empty_iff_leaves : ∀ n : Node ι,
    p.node n = "" ↔ ∀ l ∈ n.leafNodes, l.isSilent = true
  | .condition i c => by
    rw [node, Condition.sql_eq_empty_iff]
    simp [Node.leafNodes, Node.isSilent]
  | .group i k cs => by
    rw [node, join_eq_empty_iff]
    exact Printer.members_eq_nil_iff_leaves cs
  | .raw i s => by simp [node, Node.leafNodes, Node.isSilent]

theorem members_eq_nil_iff_leaves : ∀ ns : List (Node ι),
    p.members ns = [] ↔ ∀ l ∈ Node.allLeafNodes ns, l.isSilent = true
  | [] => iff_of_true rfl fun l hl => absurd hl List.not_mem_nil
  | n :: ns => by
    rw [members, Node.allLeafNodes, List.forall_mem_append, ← Printer.node_eq_empty_iff_leaves n,
      ← Printer.members_eq_nil_iff_leaves ns]
    by_cases h : p.node n = ""
    · rw [if_pos h]
      exact (and_iff_right h).symm
    · rw [if_neg h]
      exact iff_of_false (List.cons_ne_nil _ _) fun hn => h hn.1

end

/-- A tree is written as nothing just if all its leaves are. -/
theorem tree_eq_empty_iff_leaves (t : Tree ι) :
    p.tree t = "" ↔ ∀ l ∈ t.leafNodes, l.isSilent = true := by
  rw [tree, join_eq_empty_iff]
  exact members_eq_nil_iff_leaves p t.children

end Printer

/-- A printer without casts. -/
def Printer.plain (κ : Type) (d : Dialect) (maxDepth : Nat) : Printer κ :=
  ⟨d, maxDepth, fun _ => none⟩

/-- What trees are written with under the limits that their text is read under. -/
def Limits.printer (limits : Limits) : Printer Unit :=
  .plain Unit limits.dialect limits.maxDepth

end SqlFilter
