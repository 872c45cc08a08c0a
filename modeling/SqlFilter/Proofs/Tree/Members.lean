import SqlFilter.Proofs.Tree.Canonical
import SqlFilter.Proofs.Tree.Fragment

/-!
# Members of a group in SQL

The SQL of a group is that of its members, less those that are written as nothing, in parentheses.
Members whose SQL is cut no further can be told apart when they are joined (`Printer.exists_cuts`),
so that the SQL of a group of several members is cut into that of the members
(`Printer.exists_split_tree`).
-/

namespace SqlFilter

open Piece Word

variable {ι : Type}

/-! ## What a group is written with -/

/-- The text of a member among others. -/
def Member.text (m : Member) : String := if m.isRaw then Printer.parenthesized m.sql else m.sql

namespace Printer

/-- The members of a group joined by its connective, without the parentheses around them. -/
def inner (k : Logic) : List Member → String
  | [] => ""
  | [m] => m.sql
  | ms => String.intercalate (" " ++ k.name ++ " ") (ms.map Member.text)

theorem join_eq_parenthesized (k : Logic) {ms : List Member} (hne : ms ≠ []) :
    join k ms = parenthesized (inner k ms) := by
  match ms, hne with
  | [m], _ => rfl
  | m :: m' :: ms, _ => rfl

variable (p : Printer ι)

/-- The nodes that are written as something. -/
def visible (ns : List (Node ι)) : List (Node ι) := ns.filter fun n => p.node n ≠ ""

/-- A node as the member of a group. -/
def member (n : Node ι) : Member := ⟨p.node n, n.isRaw⟩

theorem text_member_of_not_isRaw {n : Node ι} (h : n.isRaw = false) :
    (p.member n).text = p.node n := if_neg (by rw [member, h]; exact Bool.false_ne_true)

theorem text_member_raw (i : ι) (s : String) :
    (p.member (.raw i s)).text = parenthesized (Text.trim s) := rfl

variable {p} in
theorem mem_visible {n : Node ι} {ns : List (Node ι)} :
    n ∈ p.visible ns ↔ n ∈ ns ∧ p.node n ≠ "" := by
  simp [visible]

theorem visible_cons (n : Node ι) (ns : List (Node ι)) :
    p.visible (n :: ns) = if p.node n = "" then p.visible ns else n :: p.visible ns := by
  unfold visible
  by_cases h : p.node n = "" <;> simp [h]

theorem members_eq_map_visible (ns : List (Node ι)) :
    p.members ns = (p.visible ns).map p.member := by
  induction ns with
  | nil => rfl
  | cons n ns ih =>
    rw [members, visible_cons, ih]
    split_ifs
    · rfl
    · rfl

theorem members_concat (ns : List (Node ι)) {n : Node ι} (hne : p.node n ≠ "") :
    p.members (ns ++ [n]) = p.members ns ++ [p.member n] := by
  rw [members_eq_map_visible, members_eq_map_visible, visible, List.filter_append, List.map_append,
    List.filter_singleton, decide_eq_true hne]
  rfl

end Printer

/-! ## Words in parentheses and behind another layout -/

namespace Word

variable (gap : List Piece) (ws : List Word)

section Parenthesized

variable {ws} (hb : balanced 0 ws = true)

include hb

theorem passed_parentheses : Passed (parenthesized ws) := passed_parenthesized rfl rfl hb

theorem unwrap?_parentheses : unwrap? (parenthesized ws) = some ws :=
  unwrap?_eq_some_iff.2 ⟨_, _, rfl, rfl, rfl, hb⟩

end Parenthesized

@[simp] theorem unwrap?_behind : unwrap? (behind gap ws) = unwrap? ws := by cases ws <;> rfl

theorem cut_behind (depth : Nat) (pending : Bool) : cut depth pending (behind gap ws) =
    (behind gap (cut depth pending ws).1, (cut depth pending ws).2) := by
  cases ws with
  | nil => rfl
  | cons w ws =>
    have hc : connective? depth pending { w with before := gap } = connective? depth pending w :=
      rfl
    rw [behind, cut, cut, hc]
    cases connective? depth pending w <;> rfl

end Word

/-! ## Members that are joined -/

namespace Printer

variable {p : Printer ι}

variable (p) in
/-- Raw SQL among others is written in parentheses. -/
theorem written_text_raw {s : String} {us : List Word}
    (h : Written p.dialect.backslashEscapes (Text.trim s).toList us) (i : ι) :
    Written p.dialect.backslashEscapes (p.member (.raw i s)).text.toList
      (Word.parenthesized us) := by
  rw [text_member_raw, toList_parenthesized]
  exact h.parenthesized

/-- The text of nodes joined by a connective is cut into the texts of the nodes, up to the layout
before them. -/
structure Cuts (p : Printer ι) (k : Logic) (ns : List (Node ι)) (vs : List Word)
    (ps : List (List Word)) : Prop where
  written : Written p.dialect.backslashEscapes
    (String.intercalate (" " ++ k.name ++ " ") ((ns.map p.member).map Member.text)).toList vs
  balanced : Word.balanced 0 vs = true
  cut : ∃ q qs, ps = q :: qs ∧ Word.cut 0 false vs = (q, qs.map (k, ·))
  parts : List.Forall₂ (fun q n => ∃ gap us, q = behind gap us ∧
    Written p.dialect.backslashEscapes (p.member n).text.toList us) ps ns

namespace Cuts

variable {k : Logic} {ns : List (Node ι)} {vs : List Word} {ps : List (List Word)}

/-- The parts of several nodes are those of a clear level. -/
theorem split (h : p.Cuts k ns vs ps) (hns : 2 ≤ ns.length) :
    (Split.ofWords vs).1 = .parts k ps := by
  have hlength := h.parts.length_eq
  have hne : ∀ q ∈ ps, q ≠ [] := by
    refine ((List.forall₂_and_left _ _).1 (h.parts.imp fun q n hq => ⟨?_, hq⟩)).1
    obtain ⟨gap, us, rfl, hus⟩ := hq
    exact (behind_eq_nil_iff gap us).not.2 hus.ne_nil
  obtain ⟨q, qs, rfl, hcut⟩ := h.cut
  refine Split.ofWords_eq_of_cut hcut hne ?_
  rintro rfl
  rw [← hlength, List.length_singleton] at hns
  exact absurd hns (by decide)

/-- The parts have the tokens of the nodes. -/
theorem map_token (h : p.Cuts k ns vs ps) : ps.map (List.map Word.token) =
    ns.map fun n => (Word.ofText p.dialect.backslashEscapes (p.member n).text).map Word.token := by
  refine List.forall₂_eq_eq_eq ▸ List.forall₂_map_left_iff.2 (List.forall₂_map_right_iff.2 ?_)
  refine h.parts.imp fun q n hq => ?_
  obtain ⟨gap, us, rfl, hus⟩ := hq
  rw [map_token_behind, hus.ofText_eq]

end Cuts

/-- Nodes whose texts are cut no further can be told apart when they are joined. -/
theorem exists_cuts (k : Logic) {n : Node ι} {ns : List (Node ι)}
    (h : ∀ m ∈ n :: ns, ∃ us, Written p.dialect.backslashEscapes (p.member m).text.toList us ∧
      Passed us) : ∃ vs ps, p.Cuts k (n :: ns) vs ps := by
  induction ns generalizing n with
  | nil =>
    obtain ⟨us, hus, hpassed⟩ := h n List.mem_cons_self
    refine ⟨us, [us], ?_, hpassed.1, ⟨us, [], rfl, cut_last hpassed.2⟩,
      .cons ⟨[], us, hus.behind_eq.symm, hus⟩ .nil⟩
    rwa [List.map_singleton, List.map_singleton, String.intercalate_singleton]
  | cons m ns ih =>
    obtain ⟨⟨us, hus, hpassed⟩, hms⟩ := List.forall_mem_cons.1 h
    obtain ⟨vs, _, hwritten, hbalanced, ⟨q, qs, rfl, hcut⟩, hparts⟩ := ih hms
    obtain ⟨⟨gap, ws, rfl, hws⟩, hrest⟩ := List.forall₂_cons.1 hparts
    obtain ⟨ks, hks, hktoken⟩ := k.spells_name p.dialect.backslashEscapes
    obtain ⟨w, ks, rfl, hw, hnil⟩ := List.map_eq_cons_iff.1 hktoken
    obtain rfl := List.map_eq_nil_iff.1 hnil
    have htoken : ({ w with before := [.blank [' ']] } : Word).token = k.token := hw
    refine ⟨us ++ { w with before := [.blank [' ']] } :: behind [.blank [' ']] vs,
      us :: behind [.blank [' ']] (behind gap ws) :: qs, ?_, ?_, ⟨us, _, rfl, ?_⟩,
      .cons ⟨[], us, hus.behind_eq.symm, hus⟩ (.cons ⟨_, ws, behind_behind .., hws⟩ hrest)⟩
    · rw [List.map_cons, List.map_cons, List.map_cons, List.map_cons,
        String.intercalate_cons_cons, ← List.map_cons, ← List.map_cons]
      simp only [String.toList_append, List.append_assoc]
      exact hus.space (hks.space hwritten)
    · rw [balanced_append_zero hpassed.1, balanced_token htoken,
        balanced_congr (map_token_behind _ vs), hbalanced]
    · rw [cut_joined hpassed.2 htoken, cut_behind, hcut, List.map_cons]

/-- The text of several nodes in a group is cut into the texts of the nodes, if these are cut no
further. -/
theorem exists_cuts_join (k : Logic) {ns : List (Node ι)} (hseveral : 2 ≤ (p.visible ns).length)
    (h : ∀ n ∈ p.visible ns, ∃ us,
      Written p.dialect.backslashEscapes (p.member n).text.toList us ∧ Passed us) :
    ∃ vs ps, p.Cuts k (p.visible ns) vs ps ∧
      Written p.dialect.backslashEscapes (join k (p.members ns)).toList (Word.parenthesized vs) := by
  obtain ⟨n, m, ms, hvisible⟩ : ∃ n m ms, p.visible ns = n :: m :: ms := by
    obtain ⟨n, rest, hn⟩ := List.exists_cons_of_length_pos (Nat.lt_of_lt_of_le Nat.two_pos hseveral)
    rw [hn] at hseveral
    obtain ⟨m, ms, rfl⟩ := List.exists_cons_of_length_pos (Nat.le_of_succ_le_succ hseveral)
    exact ⟨n, m, ms, hn⟩
  rw [members_eq_map_visible, hvisible]
  rw [hvisible] at h
  obtain ⟨vs, ps, hcuts⟩ := exists_cuts k h
  refine ⟨vs, ps, hcuts, ?_⟩
  rw [join_eq_parenthesized k (by simp), toList_parenthesized]
  exact hcuts.written.parenthesized

/-- The text of a group of several members is cut into the texts of the members, if these are cut no
further. -/
theorem exists_split_tree {t : Tree ι} (hseveral : 2 ≤ (p.members t.children).length)
    (h : ∀ n ∈ t.children, p.node n ≠ "" → ∃ us,
      Written p.dialect.backslashEscapes (p.member n).text.toList us ∧ Passed us) :
    ∃ body ps, unwrap? (Word.ofText p.dialect.backslashEscapes (p.tree t)) = some body ∧
      (Split.ofWords body).1 = .parts t.logic ps ∧ ps.map (List.map Word.token) =
        (p.members t.children).map fun m =>
          (Word.ofText p.dialect.backslashEscapes m.text).map Word.token := by
  rw [members_eq_map_visible, List.length_map] at hseveral
  obtain ⟨vs, ps, hcuts, hwritten⟩ := exists_cuts_join t.logic hseveral fun n hn =>
    h n (mem_visible.1 hn).1 (mem_visible.1 hn).2
  refine ⟨vs, ps, ?_, hcuts.split hseveral, ?_⟩
  · rw [tree, hwritten.ofText_eq, unwrap?_parentheses hcuts.balanced]
  · rw [hcuts.map_token, members_eq_map_visible, List.map_map]
    rfl

end Printer

end SqlFilter
