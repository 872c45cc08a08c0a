import SqlFilter.Proofs.Tree.Hole
import SqlFilter.Proofs.Tree.Outline

/-!
# Updating nodes

An update changes the first node with an identity and leaves everything around it as it is, and what
is found under the identity behind the update is what the node was changed to (`Tree.update_lens`).
Identities that are unique stay so, unless the root takes in a leaf with its own identity
(`Tree.hasUniqueIds_update_iff`).

An update may have effects, which tell how often it is applied and to what. `Tree.change` therefore
takes the children one by one with the update as an action that is gone once it is taken; without
effects it is `Tree.update` (`Tree.change_pure`).
-/

namespace SqlFilter

variable {ι : Type} {i : ι}

/-! ## Identities and connectives -/

theorem Node.withId_of_id_eq {n : Node ι} (h : n.id = i) : n.withId i = n := by
  rw [← h, withId_id]

@[simp] theorem Node.withId_withId (j : ι) (n : Node ι) : (n.withId j).withId i = n.withId i := by
  cases n <;> rfl

@[simp] theorem Node.id_toggled (n : Node ι) : n.toggled.id = n.id := by cases n <;> rfl

@[simp] theorem Node.toggled_toggled (n : Node ι) : n.toggled.toggled = n := by
  cases n <;> simp [toggled]

/-- The tree with a node in place of its root, which keeps its identity. A leaf becomes the only
child of the root. -/
def Tree.withRoot (t : Tree ι) : Node ι → Tree ι
  | .group _ k cs => ⟨t.id, k, cs⟩
  | leaf => { t with children := [leaf] }

theorem Tree.ids_withRoot (t : Tree ι) (n : Node ι) :
    (t.withRoot n).ids = if n.isLeaf then [t.id, n.id] else t.id :: n.ids.tail := by
  cases n <;> rfl

/-- A new root has no identity twice, unless it becomes a leaf with the identity of the root. -/
theorem Tree.nodup_ids_withRoot_iff {t : Tree ι} {n : Node ι} (hnodup : n.ids.Nodup)
    (htop : t.id ∉ n.ids.tail) : (t.withRoot n).ids.Nodup ↔ ¬ (n.isLeaf = true ∧ n.id = t.id) := by
  rw [ids_withRoot]
  by_cases hleaf : n.isLeaf = true
  · simp [hleaf, eq_comm]
  · rw [n.ids_eq_cons] at hnodup
    rw [if_neg hleaf]
    exact iff_of_true (List.nodup_cons.2 ⟨htop, (List.nodup_cons.1 hnodup).2⟩) fun h => hleaf h.1

variable [DecidableEq ι]

/-! ## Changing with effects -/

/-- An action on a node that is still to be taken, or none. -/
abbrev Pending (m : Type → Type) (ι : Type) : Type := Option (Node ι → m (Node ι))

section Change

variable {m : Type → Type} [Monad m]

mutual

/-- Takes the action on the first node with the identity at or below the node, which keeps its
identity. What is left is the action if there is no such node. -/
def Node.change (i : ι) : Node ι → Pending m ι → m (Node ι × Pending m ι)
  | n, none => pure (n, none)
  | .condition j c, some f =>
    if j = i then (fun n => (n.withId j, none)) <$> f (.condition j c)
    else pure (.condition j c, some f)
  | .group j k cs, some f =>
    if j = i then (fun n => (n.withId j, none)) <$> f (.group j k cs)
    else (fun (ds, left) => (.group j k ds, left)) <$> Node.changeAll i cs (some f)
  | .raw j s, some f =>
    if j = i then (fun n => (n.withId j, none)) <$> f (.raw j s) else pure (.raw j s, some f)

/-- Takes the action on the first node with the identity at or below the nodes. -/
def Node.changeAll (i : ι) : List (Node ι) → Pending m ι → m (List (Node ι) × Pending m ι)
  | [], left => pure ([], left)
  | n :: ns, left => do
    let (n, left) ← n.change i left
    let (ns, left) ← Node.changeAll i ns left
    return (n :: ns, left)

end

/-- Takes the action on the first node with the identity. -/
def Tree.change (i : ι) (f : Node ι → m (Node ι)) (t : Tree ι) : m (Tree ι) :=
  if t.id = i then t.withRoot <$> f t.toNode
  else (fun (cs, _) => { t with children := cs }) <$> Node.changeAll i t.children (some f)

end Change

/-! ## Where nothing has the identity -/

mutual

theorem Node.update?_eq_none_iff (f : Node ι → Node ι) : ∀ n : Node ι,
    n.update? i f = none ↔ i ∉ n.ids
  | .condition j c => by
    rw [update?, ids, List.mem_singleton]
    by_cases h : j = i <;> simp [h, Ne.symm]
  | .group j k cs => by
    rw [update?, ids, List.mem_cons]
    by_cases h : j = i
    · simp [h]
    · rw [if_neg h, Option.map_eq_none_iff, Node.updateAmong?_eq_none_iff f cs]
      simp [Ne.symm h]
  | .raw j s => by
    rw [update?, ids, List.mem_singleton]
    by_cases h : j = i <;> simp [h, Ne.symm]

/-- Nothing is changed just if no node has the identity. -/
theorem Node.updateAmong?_eq_none_iff (f : Node ι → Node ι) : ∀ ns : List (Node ι),
    updateAmong? i f ns = none ↔ i ∉ allIds ns
  | [] => by simp [updateAmong?, allIds]
  | n :: ns => by
    rw [updateAmong?, allIds, List.mem_append, not_or, ← Node.update?_eq_none_iff f n,
      ← Node.updateAmong?_eq_none_iff f ns]
    cases n.update? i f <;> simp

end

section Change

variable {m : Type → Type} [Monad m]

@[simp] theorem Node.change_none (n : Node ι) :
    n.change i (none : Pending m ι) = pure (n, none) := by
  cases n <;> rfl

variable [LawfulMonad m]

@[simp] theorem Node.changeAll_none (ns : List (Node ι)) :
    changeAll i ns (none : Pending m ι) = pure (ns, none) := by
  induction ns with
  | nil => rfl
  | cons n ns ih => simp [changeAll, ih]

mutual

theorem Node.change_of_notMem (f : Node ι → m (Node ι)) : ∀ n : Node ι, i ∉ n.ids →
    n.change i (some f) = pure (n, some f)
  | .condition j c => fun h => if_neg fun hj => h (List.mem_singleton.2 hj.symm)
  | .group j k cs => fun h => by
    obtain ⟨hj, hcs⟩ := not_or.1 (mt List.mem_cons.2 h)
    rw [change, if_neg (Ne.symm hj), Node.changeAll_of_notMem f cs hcs, map_pure]
  | .raw j s => fun h => if_neg fun hj => h (List.mem_singleton.2 hj.symm)

/-- The action is left if no node has the identity. -/
theorem Node.changeAll_of_notMem (f : Node ι → m (Node ι)) : ∀ ns : List (Node ι), i ∉ allIds ns →
    changeAll i ns (some f) = pure (ns, some f)
  | [] => fun _ => rfl
  | n :: ns => fun h => by
    obtain ⟨hn, hns⟩ := not_or.1 (mt List.mem_append.2 h)
    simp [changeAll, Node.change_of_notMem f n hn, Node.changeAll_of_notMem f ns hns]

end

end Change

/-! ## The first node with the identity -/

section First

variable {n : Node ι} {fs : List (Frame ι)} {ns : List (Node ι)} {m : Type → Type} [Monad m]

theorem Node.find?_of_id_eq (hn : n.id = i) : n.find? i = some n := by
  cases n <;> exact if_pos hn

theorem Node.update?_of_id_eq (f : Node ι → Node ι) (hn : n.id = i) :
    n.update? i f = some ((f n).withId i) := by
  cases n <;> exact hn ▸ if_pos rfl

theorem Node.change_of_id_eq (f : Node ι → m (Node ι)) (hn : n.id = i) :
    n.change i (some f) = (fun x => (x.withId i, none)) <$> f n := by
  cases n <;> exact hn ▸ if_pos rfl

theorem Node.findAmong?_append (h : i ∉ allIds ns) (ms : List (Node ι)) :
    findAmong? i (ns ++ ms) = findAmong? i ms := by
  induction ns with
  | nil => rfl
  | cons n ns ih =>
    obtain ⟨hn, hns⟩ := not_or.1 (mt List.mem_append.2 h)
    rw [List.cons_append, findAmong?, (find?_eq_none_iff n).2 hn]
    exact ih hns

theorem Node.updateAmong?_append (f : Node ι → Node ι) (h : i ∉ allIds ns) (ms : List (Node ι)) :
    updateAmong? i f (ns ++ ms) = (updateAmong? i f ms).map (ns ++ ·) := by
  induction ns with
  | nil => exact (Option.map_id_apply).symm
  | cons n ns ih =>
    obtain ⟨hn, hns⟩ := not_or.1 (mt List.mem_append.2 h)
    rw [List.cons_append, updateAmong?, (update?_eq_none_iff f n).2 hn]
    simp only [ih hns, Option.map_map]
    rfl

theorem Node.changeAll_append [LawfulMonad m] (f : Node ι → m (Node ι)) (h : i ∉ allIds ns)
    (ms : List (Node ι)) : changeAll i (ns ++ ms) (some f) =
      (fun (ms, left) => (ns ++ ms, left)) <$> changeAll i ms (some f) := by
  induction ns with
  | nil => exact (id_map _).symm
  | cons n ns ih =>
    obtain ⟨hn, hns⟩ := not_or.1 (mt List.mem_append.2 h)
    rw [List.cons_append, changeAll, change_of_notMem f n hn]
    simp [ih hns]

namespace Frame

theorem find?_fillAll (h : i ∉ allAhead fs) (hn : n.id = i) : (fillAll fs n).find? i = some n := by
  induction fs with
  | nil => exact Node.find?_of_id_eq hn
  | cons f fs ih =>
    obtain ⟨hid, hbefore, hfs⟩ := notMem_allAhead_cons.1 h
    show (f.fill (fillAll fs n)).find? i = some n
    rw [fill, Node.find?, if_neg hid, Node.findAmong?_append hbefore, Node.findAmong?,
      ih hfs]

theorem update?_fillAll (g : Node ι → Node ι) (h : i ∉ allAhead fs) (hn : n.id = i) :
    (fillAll fs n).update? i g = some (fillAll fs ((g n).withId i)) := by
  induction fs with
  | nil => exact Node.update?_of_id_eq g hn
  | cons f fs ih =>
    obtain ⟨hid, hbefore, hfs⟩ := notMem_allAhead_cons.1 h
    show (f.fill (fillAll fs n)).update? i g = _
    rw [fill, Node.update?, if_neg hid, Node.updateAmong?_append g hbefore,
      Node.updateAmong?, ih hfs]
    rfl

theorem change_fillAll [LawfulMonad m] (g : Node ι → m (Node ι)) (h : i ∉ allAhead fs)
    (hn : n.id = i) : (fillAll fs n).change i (some g) =
      (fun x => (fillAll fs (x.withId i), none)) <$> g n := by
  induction fs with
  | nil => exact Node.change_of_id_eq g hn
  | cons f fs ih =>
    obtain ⟨hid, hbefore, hfs⟩ := notMem_allAhead_cons.1 h
    show (f.fill (fillAll fs n)).change i (some g) = _
    rw [fill, Node.change, if_neg hid, Node.changeAll_append g hbefore, Node.changeAll,
      ih hfs]
    simp only [bind_pure_comp, bind_map_left, Node.changeAll_none, map_pure, Functor.map_map]
    rfl

end Frame

namespace Tree

variable {t : Tree ι}

theorem update_of_id_eq (f : Node ι → Node ι) (h : t.id = i) :
    t.update i f = t.withRoot (f t.toNode) := by
  rw [update, if_pos h]
  cases f t.toNode <;> rfl

theorem update_of_notMem (f : Node ι → Node ι) (h : i ∉ t.ids) : t.update i f = t := by
  obtain ⟨hroot, hchildren⟩ := not_or.1 (mt List.mem_cons.2 h)
  rw [update, if_neg (Ne.symm hroot), (Node.updateAmong?_eq_none_iff f _).2 hchildren,
    Option.getD_none]

theorem change_of_notMem [LawfulMonad m] (f : Node ι → m (Node ι)) (h : i ∉ t.ids) :
    t.change i f = pure t := by
  obtain ⟨hroot, hchildren⟩ := not_or.1 (mt List.mem_cons.2 h)
  rw [change, if_neg (Ne.symm hroot), Node.changeAll_of_notMem f _ hchildren, map_pure]

namespace FirstAt

variable {p : Place ι} (h : t.FirstAt i p n)

include h

theorem find?_eq : t.find? i = some n := by
  rw [h.eq_fill, Tree.find?, Place.fill, Node.findAmong?_append h.notMem_before, Node.findAmong?,
    Frame.find?_fillAll h.notMem_inner h.id_eq]

theorem update_eq (f : Node ι → Node ι) : t.update i f = p.fill ((f n).withId i) := by
  rw [update, if_neg h.root_ne, h.eq_fill, Place.fill, Node.updateAmong?_append f h.notMem_before,
    Node.updateAmong?, Frame.update?_fillAll f h.notMem_inner h.id_eq]
  rfl

theorem change_eq [LawfulMonad m] (f : Node ι → m (Node ι)) :
    t.change i f = (fun x => p.fill (x.withId i)) <$> f n := by
  rw [change, if_neg h.root_ne, h.eq_fill, Place.fill, Node.changeAll_append f h.notMem_before,
    Node.changeAll, Frame.change_fillAll f h.notMem_inner h.id_eq]
  simp only [bind_pure_comp, bind_map_left, Node.changeAll_none, map_pure, Functor.map_map]
  rfl

end FirstAt

end Tree

end First

/-! ## Laws -/

namespace Tree

variable {t : Tree ι}

theorem update_of_find? (hroot : t.id ≠ i) {n : Node ι} (hn : t.find? i = some n) :
    t.update i (fun _ => n) = t := by
  by_cases hmem : i ∈ t.ids
  · obtain ⟨p, m, hm⟩ := exists_firstAt hroot hmem
    obtain rfl := Option.some.inj (hn.symm.trans hm.find?_eq)
    rw [hm.update_eq, Node.withId_of_id_eq hm.id_eq, ← hm.eq_fill]
  · exact update_of_notMem _ hmem

theorem update_update (hroot : t.id ≠ i) (f g : Node ι → Node ι) :
    (t.update i f).update i g = t.update i fun n => g ((f n).withId i) := by
  by_cases hmem : i ∈ t.ids
  · obtain ⟨p, n, hn⟩ := exists_firstAt hroot hmem
    have hagain := hn.replace ((f n).id_withId i)
    rw [hn.update_eq, hagain.update_eq, hn.update_eq]
  · rw [update_of_notMem f hmem, update_of_notMem g hmem, update_of_notMem _ hmem]

variable (t i)

/-- Without effects the action is an update. -/
theorem change_pure (f : Node ι → Node ι) :
    t.change i (fun n => (pure (f n) : Id (Node ι))) = pure (t.update i f) := by
  by_cases hroot : t.id = i
  · rw [update_of_id_eq f hroot, change, if_pos hroot, map_pure]
  · by_cases hmem : i ∈ t.ids
    · obtain ⟨p, n, hn⟩ := exists_firstAt hroot hmem
      rw [hn.update_eq, hn.change_eq, map_pure]
    · rw [update_of_notMem f hmem, change_of_notMem _ hmem]

theorem update_withId (j : ι) : t.update i (Node.withId j) = t := by
  by_cases hroot : t.id = i
  · rw [update_of_id_eq _ hroot]
    rfl
  · by_cases hmem : i ∈ t.ids
    · obtain ⟨p, n, hn⟩ := exists_firstAt hroot hmem
      rw [hn.update_eq, Node.withId_withId, Node.withId_of_id_eq hn.id_eq, ← hn.eq_fill]
    · exact update_of_notMem _ hmem

theorem toggle_toggle : (t.toggle i).toggle i = t := by
  by_cases hroot : t.id = i
  · have htoggled : t.toggle i = { t with logic := t.logic.toggled } := update_of_id_eq _ hroot
    have hagain : ({ t with logic := t.logic.toggled } : Tree ι).toggle i =
        { t with logic := t.logic.toggled.toggled } := update_of_id_eq _ hroot
    rw [htoggled, hagain, Logic.toggled_toggled]
  · rw [toggle, toggle, update_update hroot]
    by_cases hmem : i ∈ t.ids
    · obtain ⟨p, n, hn⟩ := exists_firstAt hroot hmem
      rw [hn.update_eq, Node.withId_of_id_eq (n.id_toggled.trans hn.id_eq), Node.toggled_toggled,
        Node.withId_of_id_eq hn.id_eq, ← hn.eq_fill]
    · exact update_of_notMem _ hmem

/-- **Updating** an identity that is not that of the root acts on the first node that has it, once,
and on nothing else. Behind an update the node is found as it was changed to, the node that was
found puts everything back, and two updates are one. A new identity alone changes nothing, and
neither does toggling a connective twice. -/
theorem update_lens :
    (i ∉ t.ids → t.find? i = none ∧ (∀ f, t.update i f = t) ∧
      ∀ (m : Type → Type) [Monad m] [LawfulMonad m] (f : Node ι → m (Node ι)),
        t.change i f = pure t) ∧
    (t.id ≠ i → i ∈ t.ids → ∃ p n, t.FirstAt i p n ∧ t.ids = p.ahead ++ n.ids ++ p.behind ∧
      t.find? i = some n ∧
      (∀ (m : Type → Type) [Monad m] [LawfulMonad m] (f : Node ι → m (Node ι)),
        t.change i f = (fun x => p.fill (x.withId i)) <$> f n) ∧
      (∀ f, t.update i f = p.fill ((f n).withId i) ∧
        (t.update i f).find? i = some ((f n).withId i)) ∧
      t.toggle i = p.fill n.toggled ∧
      t.update i (fun _ => n) = t ∧
      ∀ f g, (t.update i f).update i g = t.update i fun x => g ((f x).withId i)) ∧
    (∀ f, t.change i (fun n => (pure (f n) : Id (Node ι))) = pure (t.update i f)) ∧
    (∀ j, t.update i (Node.withId j) = t) ∧
    (t.toggle i).toggle i = t := by
  refine ⟨fun hmem => ⟨?_, fun f => update_of_notMem f hmem,
      fun m _ _ f => change_of_notMem f hmem⟩,
    fun hroot hmem => ?_, t.change_pure i, t.update_withId i, t.toggle_toggle i⟩
  · exact (Node.findAmong?_eq_none_iff _).2 (not_or.1 (mt List.mem_cons.2 hmem)).2
  · obtain ⟨p, n, hn⟩ := exists_firstAt hroot hmem
    refine ⟨p, n, hn, hn.ids_eq, hn.find?_eq, fun m _ _ f => hn.change_eq f,
      fun f => ⟨hn.update_eq f, ?_⟩, ?_, update_of_find? hroot hn.find?_eq, update_update hroot⟩
    · rw [hn.update_eq]
      exact (hn.replace ((f n).id_withId i)).find?_eq
    · rw [toggle, hn.update_eq, Node.withId_of_id_eq (n.id_toggled.trans hn.id_eq)]

/-- Of nested nodes with the same identity the outer one is changed, and what it is changed to may
hold the identity again. -/
theorem update_lens_nested :
    let t : Tree String := ⟨"r", .and,
      [.raw "a" "1", .group "x" .or [.group "x" .and [.raw "x" "2"]], .raw "x" "3"]⟩
    let f (_ : Node String) : Node String := .group "y" .or [.raw "x" "4"]
    t.id ≠ "x" ∧ "x" ∈ t.ids ∧ "b" ∉ t.ids ∧
      t.update "x" f = ⟨"r", .and, [.raw "a" "1", .group "x" .or [.raw "x" "4"], .raw "x" "3"]⟩ ∧
      (t.update "x" f).update "x" Node.toggled =
        t.update "x" (fun n => ((f n).withId "x").toggled) ∧
      t.update "b" f = t ∧ (t.toggle "x").toggle "x" = t := by
  intro t f
  have hroot : t.id ≠ "x" := by decide
  have hmem : "x" ∈ t.ids := by decide
  have habsent : "b" ∉ t.ids := by decide
  obtain ⟨-, hfirst, -, -, htoggle⟩ := t.update_lens "x"
  obtain ⟨p, n, -, -, -, -, -, -, -, htwice⟩ := hfirst hroot hmem
  exact ⟨hroot, hmem, habsent, rfl, htwice f Node.toggled,
    ((t.update_lens "b").1 habsent).2.1 f, htoggle⟩

end Tree

/-! ## Identities behind an update -/

namespace Tree

variable {t : Tree ι}

/-- The node that an update of the identity changes: the root, or the first one below it. -/
def at? (i : ι) (t : Tree ι) : Option (Node ι) := if t.id = i then some t.toNode else t.find? i

/-- **Unique identities** stay so in an update that brings none from outside the node, none twice
and not that of the node below its top: but the root takes a leaf with its own identity in, and then
both of them have it. -/
theorem hasUniqueIds_update_iff (ht : t.hasUniqueIds = true) (hi : i ∈ t.ids) :
    ∃ n, t.at? i = some n ∧ ∀ f : Node ι → Node ι, (f n).ids.Nodup →
      (∀ j ∈ (f n).ids, j ∈ t.ids → j ∈ n.ids) → i ∉ (f n).ids.tail →
        ((t.update i f).hasUniqueIds = true ↔
          ¬ (t.id = i ∧ (f n).isLeaf = true ∧ (f n).id = i)) := by
  simp only [hasUniqueIds_iff] at ht ⊢
  by_cases hroot : t.id = i
  · refine ⟨t.toNode, if_pos hroot, fun f hnodup _ htop => ?_⟩
    subst hroot
    rw [update_of_id_eq f rfl, nodup_ids_withRoot_iff hnodup htop]
    simp
  · obtain ⟨p, n, hn⟩ := exists_firstAt hroot hi
    refine ⟨n, (if_neg hroot).trans hn.find?_eq, fun f hnodup hout htop => ?_⟩
    rw [hn.update_eq]
    exact iff_of_true (hn.nodup_ids_fill ht hnodup hout htop) fun h => hroot h.1

/-- Identities of the node that is changed may come again, and the root may become a leaf with
another identity. -/
theorem hasUniqueIds_update_iff_group :
    let t : Tree String := ⟨"r", .and, [.group "g" .or [.raw "a" "1", .raw "b" "2"], .raw "c" "3"]⟩
    let f (_ : Node String) : Node String := .group "g" .and [.raw "b" "4", .raw "d" "5"]
    let g (_ : Node String) : Node String := .raw "c" "6"
    t.hasUniqueIds = true ∧ "g" ∈ t.ids ∧ "r" ∈ t.ids ∧
      (t.update "g" f).ids = ["r", "g", "b", "d", "c"] ∧ (t.update "g" f).hasUniqueIds = true ∧
      (t.update "r" g).ids = ["r", "c"] ∧ (t.update "r" g).hasUniqueIds = true := by
  intro t f g
  have ht : t.hasUniqueIds = true := by decide
  have hgroup : "g" ∈ t.ids := by decide
  have hroot : "r" ∈ t.ids := by decide
  obtain ⟨n, hn, hf⟩ := hasUniqueIds_update_iff ht hgroup
  obtain ⟨m, hm, hg⟩ := hasUniqueIds_update_iff ht hroot
  obtain rfl : Node.group "g" .or [.raw "a" "1", .raw "b" "2"] = n := Option.some.inj hn
  obtain rfl : t.toNode = m := Option.some.inj hm
  exact ⟨ht, hgroup, hroot, rfl, (hf f (by decide) (by decide) (by decide)).2 (by decide), rfl,
    (hg g (by decide) (by decide) (by decide)).2 (by decide)⟩

/-- The root and the leaf that it takes in have the same identity. -/
theorem exists_update_repeated : ∃ (t : Tree String) (f : Node String → Node String)
    (n : Node String), t.hasUniqueIds = true ∧ t.at? "r" = some n ∧ (f n).ids.Nodup ∧
      (∀ j ∈ (f n).ids, j ∈ t.ids → j ∈ n.ids) ∧ "r" ∉ (f n).ids.tail ∧
      (t.update "r" f).ids = ["r", "r"] ∧ (t.update "r" f).hasUniqueIds = false :=
  ⟨⟨"r", .and, [.raw "a" "1"]⟩, fun _ => .raw "r" "2", .group "r" .and [.raw "a" "1"],
    by decide, rfl, by decide, by decide, by decide, rfl, by decide⟩

end Tree

end SqlFilter
