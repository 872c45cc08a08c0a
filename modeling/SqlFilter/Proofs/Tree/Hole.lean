import SqlFilter.Proofs.Lists
import SqlFilter.Proofs.Tree.Edited

/-!
# Places in trees

A place below the root of a tree is what is left of the tree when the node there is taken out: the
groups around it, each with the members on either side. A node put into the place gives a tree again
(`Place.fill`), whose identities in document order are those ahead of the place, those of the node
and those behind it (`Place.ids_fill`). Of the nodes with an identity the first one is at a place
that has none of them ahead (`Tree.exists_firstAt`).
-/

namespace SqlFilter

variable {ι : Type}

/-! ## Frames -/

/-- A group that one member is taken out of. -/
structure Frame (ι : Type) where
  /-- The identity of the group. -/
  id : ι
  /-- Its connective. -/
  logic : Logic
  /-- The members before the gap. -/
  before : List (Node ι)
  /-- The members after the gap. -/
  after : List (Node ι)

namespace Frame

/-- The group with a node in the gap. -/
def fill (f : Frame ι) (n : Node ι) : Node ι := .group f.id f.logic (f.before ++ n :: f.after)

/-- The identities of the group ahead of the gap. -/
def ahead (f : Frame ι) : List ι := f.id :: Node.allIds f.before

/-- A node in the innermost of some groups, the outermost of which comes first. -/
def fillAll (fs : List (Frame ι)) (n : Node ι) : Node ι := fs.foldr fill n

/-- The identities ahead of the gap in the innermost group. -/
def allAhead : List (Frame ι) → List ι
  | [] => []
  | f :: fs => f.ahead ++ allAhead fs

/-- The identities behind the gap in the innermost group. -/
def allBehind : List (Frame ι) → List ι
  | [] => []
  | f :: fs => allBehind fs ++ Node.allIds f.after

theorem ids_fillAll (fs : List (Frame ι)) (n : Node ι) :
    (fillAll fs n).ids = allAhead fs ++ n.ids ++ allBehind fs := by
  induction fs with
  | nil => exact (List.append_nil n.ids).symm
  | cons f fs ih =>
    show (f.fill (fillAll fs n)).ids = _
    rw [fill, Node.ids, Node.allIds_append, Node.allIds, ih, allBehind, allAhead, ahead]
    simp only [List.append_assoc, List.cons_append]

theorem notMem_allAhead_cons {i : ι} {f : Frame ι} {fs : List (Frame ι)} :
    i ∉ allAhead (f :: fs) ↔ f.id ≠ i ∧ i ∉ Node.allIds f.before ∧ i ∉ allAhead fs := by
  rw [allAhead, ahead, List.mem_append, List.mem_cons, not_or, not_or, and_assoc, eq_comm]

end Frame

/-! ## Places -/

/-- A place below the root of a tree. -/
structure Place (ι : Type) where
  /-- The root with a gap among its members. -/
  root : Frame ι
  /-- The groups between the root and the place, the outermost first. -/
  inner : List (Frame ι)

namespace Place

/-- The tree with a node in the place. -/
def fill (p : Place ι) (n : Node ι) : Tree ι :=
  ⟨p.root.id, p.root.logic, p.root.before ++ Frame.fillAll p.inner n :: p.root.after⟩

/-- The identities ahead of the place in document order, the root first. -/
def ahead (p : Place ι) : List ι := p.root.ahead ++ Frame.allAhead p.inner

/-- The identities behind the place in document order. -/
def behind (p : Place ι) : List ι := Frame.allBehind p.inner ++ Node.allIds p.root.after

theorem ids_fill (p : Place ι) (n : Node ι) : (p.fill n).ids = p.ahead ++ n.ids ++ p.behind := by
  rw [fill, Tree.ids, Node.allIds_append, Node.allIds, Frame.ids_fillAll, ahead, Frame.ahead,
    behind]
  simp only [List.append_assoc, List.cons_append]

end Place

/-! ## The first node with an identity -/

section First

variable {i : ι}

theorem Node.ids_eq_cons (n : Node ι) : n.ids = n.id :: n.ids.tail := by cases n <;> rfl

theorem Node.ids_withId (n : Node ι) : (n.withId i).ids = i :: n.ids.tail := by cases n <;> rfl

mutual

theorem Node.exists_fillAll : ∀ n : Node ι, i ∈ n.ids →
    ∃ fs m, n = Frame.fillAll fs m ∧ m.id = i ∧ i ∉ Frame.allAhead fs
  | .condition j c => fun h =>
    ⟨[], .condition j c, rfl, (List.mem_singleton.1 h).symm, List.not_mem_nil⟩
  | .group j k cs => by
    intro h
    by_cases hj : j = i
    · exact ⟨[], .group j k cs, rfl, hj, List.not_mem_nil⟩
    · have hcs : i ∈ allIds cs := (List.mem_cons.1 h).resolve_left (Ne.symm hj)
      obtain ⟨before, fs, m, after, rfl, hm, hbefore, hahead⟩ := Node.exists_fillAll_among cs hcs
      exact ⟨⟨j, k, before, after⟩ :: fs, m, rfl, hm,
        Frame.notMem_allAhead_cons.2 ⟨hj, hbefore, hahead⟩⟩
  | .raw j s => fun h => ⟨[], .raw j s, rfl, (List.mem_singleton.1 h).symm, List.not_mem_nil⟩

/-- The first of the nodes with an identity has none of them ahead. -/
theorem Node.exists_fillAll_among : ∀ ns : List (Node ι), i ∈ allIds ns →
    ∃ before fs m after, ns = before ++ Frame.fillAll fs m :: after ∧ m.id = i ∧
      i ∉ allIds before ∧ i ∉ Frame.allAhead fs
  | [] => fun h => absurd h List.not_mem_nil
  | n :: ns => by
    intro h
    by_cases hn : i ∈ n.ids
    · obtain ⟨fs, m, rfl, hm, hahead⟩ := Node.exists_fillAll n hn
      exact ⟨[], fs, m, ns, rfl, hm, List.not_mem_nil, hahead⟩
    · have hns : i ∈ allIds ns := (List.mem_append.1 h).resolve_left hn
      obtain ⟨before, fs, m, after, rfl, hm, hbefore, hahead⟩ := Node.exists_fillAll_among ns hns
      refine ⟨n :: before, fs, m, after, rfl, hm, fun hmem => ?_, hahead⟩
      exact (List.mem_append.1 hmem).elim hn hbefore

end

/-- The place has the first node of the tree with the identity, the root not counted. -/
structure Tree.FirstAt (i : ι) (t : Tree ι) (p : Place ι) (n : Node ι) : Prop where
  eq_fill : t = p.fill n
  id_eq : n.id = i
  notMem_ahead : i ∉ p.ahead

namespace Tree

theorem exists_firstAt {t : Tree ι} (hroot : t.id ≠ i) (h : i ∈ t.ids) :
    ∃ p n, t.FirstAt i p n := by
  have hmem : i ∈ Node.allIds t.children := (List.mem_cons.1 h).resolve_left (Ne.symm hroot)
  obtain ⟨before, fs, n, after, hchildren, hn, hbefore, hahead⟩ := Node.exists_fillAll_among _ hmem
  refine ⟨⟨⟨t.id, t.logic, before, after⟩, fs⟩, n, ?_, hn, ?_⟩
  · rw [Place.fill, ← hchildren]
  · exact Frame.notMem_allAhead_cons.2 ⟨hroot, hbefore, hahead⟩

namespace FirstAt

variable {t : Tree ι} {p : Place ι} {n : Node ι} (h : t.FirstAt i p n)

include h

theorem ids_eq : t.ids = p.ahead ++ n.ids ++ p.behind := by rw [h.eq_fill, p.ids_fill]

theorem root_ne : t.id ≠ i := by
  rw [h.eq_fill]
  exact (Frame.notMem_allAhead_cons.1 h.notMem_ahead).1

theorem notMem_before : i ∉ Node.allIds p.root.before :=
  (Frame.notMem_allAhead_cons.1 h.notMem_ahead).2.1

theorem notMem_inner : i ∉ Frame.allAhead p.inner :=
  (Frame.notMem_allAhead_cons.1 h.notMem_ahead).2.2

/-- Another node with the identity takes the place of the first one. -/
theorem replace {m : Node ι} (hm : m.id = i) : (p.fill m).FirstAt i p m := ⟨rfl, hm, h.notMem_ahead⟩

/-- A node put into the place brings no identity in twice, if it has none twice and none from
outside the node that was there. -/
theorem nodup_ids_fill (ht : t.ids.Nodup) {m : Node ι} (hnodup : m.ids.Nodup)
    (hout : ∀ j ∈ m.ids, j ∈ t.ids → j ∈ n.ids) (htop : i ∉ m.ids.tail) :
    (p.fill (m.withId i)).ids.Nodup := by
  rw [m.ids_eq_cons] at hnodup hout
  rw [h.ids_eq] at ht hout
  rw [p.ids_fill, Node.ids_withId]
  refine nodup_exchange ht (List.nodup_cons.2 ⟨htop, (List.nodup_cons.1 hnodup).2⟩) ?_
  refine List.forall_mem_cons.2 ⟨fun _ => ?_, (List.forall_mem_cons.1 hout).2⟩
  rw [n.ids_eq_cons, h.id_eq]
  exact List.mem_cons_self

end FirstAt

end Tree

end First

end SqlFilter
