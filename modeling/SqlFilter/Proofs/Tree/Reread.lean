import SqlFilter.Proofs.Tree.Members

/-!
# Written trees with raw SQL are read again

What is read of a tree that was read from text before, once it is written. A node among others comes
back with its text (`Node.Again`). What a group alone in its group has in parentheses may be a level
that is not clear; one of the two pairs of parentheses is then lost (`Node.loses`). Raw SQL in
company takes a level of its own, so that groups are nested more deeply the second time
(`Node.writtenDepth`).
-/

namespace SqlFilter

open Piece Word

variable {ι : Type}

/-! ## Text that comes back or is shorter -/

/-- The new text is the old one, or is shorter if something is lost. -/
def Shrunk (lost : Bool) (new old : String) : Prop :=
  if lost = true then new.length < old.length else new = old

namespace Shrunk

variable {a b : Bool} {new new' old old' : String}

theorem refl (s : String) : Shrunk false s s := rfl

theorem length_le (h : Shrunk a new old) : new.length ≤ old.length := by
  unfold Shrunk at h
  split_ifs at h
  · exact h.le
  · rw [h]

theorem eq_iff (h : Shrunk a new old) : new = old ↔ a = false := by
  unfold Shrunk at h
  cases a with
  | true => exact iff_of_false (by rintro rfl; exact absurd h (lt_irrefl _)) Bool.true_eq_false.mp
  | false => exact iff_of_true h rfl

theorem append (h : Shrunk a new old) (h' : Shrunk b new' old') :
    Shrunk (a || b) (new ++ new') (old ++ old') := by
  have hle := h.length_le
  have hle' := h'.length_le
  unfold Shrunk at h h' ⊢
  rw [String.length_append, String.length_append]
  cases a with
  | true =>
    have : new.length < old.length := h
    rw [Bool.true_or, if_pos rfl]
    omega
  | false =>
    obtain rfl : new = old := h
    cases b with
    | true =>
      have : new'.length < old'.length := h'
      rw [Bool.or_true, if_pos rfl]
      omega
    | false =>
      obtain rfl : new' = old' := h'
      rfl

/-- What stands around the text stays. -/
theorem frame (h : Shrunk a new old) (before after : String) :
    Shrunk a (before ++ new ++ after) (before ++ old ++ after) := by
  have := ((refl before).append h).append (refl after)
  rwa [Bool.false_or, Bool.or_false] at this

theorem parenthesized (h : Shrunk a new old) :
    Shrunk a (Printer.parenthesized new) (Printer.parenthesized old) := h.frame "(" ")"

end Shrunk

/-! ## Levels and lost parentheses -/

namespace Printer

variable (p : Printer ι)

/-- The raw SQL is no clear level. -/
def clashes (s : String) : Bool :=
  !(Split.ofWords (Word.ofText p.dialect.backslashEscapes s)).1.isClear

/-- The group is written as raw SQL alone, which is no clear level. -/
def loneClash (ns : List (Node ι)) : Bool :=
  match p.visible ns with
  | [.raw _ s] => p.clashes s
  | _ => false

/-- The node is a group written as raw SQL alone, which is no clear level. -/
def isClash : Node ι → Bool
  | .group _ _ ns => p.loneClash ns
  | _ => false

/-- How many levels deep the members are read, each of them being read `depth` levels deep at
most. -/
def levelDepth (ns : List (Node ι)) (depth : Nat) : Nat :=
  match p.visible ns with
  | [.raw _ _] => 1
  | _ => 1 + depth

end Printer

section Written

variable (p : Printer ι)

mutual

/-- How many levels deep the node is read among others. -/
def Node.writtenDepth : Node ι → Nat
  | .condition _ _ => 0
  | .group _ _ ns => p.levelDepth ns (Node.maxWrittenDepth ns)
  | .raw _ _ => 1

/-- How many levels deep the nodes that are written are read among others. -/
def Node.maxWrittenDepth : List (Node ι) → Nat
  | [] => 0
  | n :: ns => max (if p.node n = "" then 0 else n.writtenDepth) (Node.maxWrittenDepth ns)

end

/-- A member that stands alone in the group is read as raw SQL, and written without the
parentheses that it was read in. -/
def Printer.losesAlone (ns : List (Node ι)) : Bool :=
  match p.visible ns with
  | [n] => p.isClash n
  | _ => false

mutual

/-- Parentheses are lost at or below the node. -/
def Node.loses : Node ι → Bool
  | .group _ _ ns => p.losesAlone ns || Node.anyLoses ns
  | _ => false

/-- Parentheses are lost at or below one of the nodes that are written. -/
def Node.anyLoses : List (Node ι) → Bool
  | [] => false
  | n :: ns => (p.node n ≠ "" && n.loses) || Node.anyLoses ns

end

variable {p}

theorem Node.maxWrittenDepth_cons {n : Node ι} (hne : p.node n ≠ "") (ns : List (Node ι)) :
    maxWrittenDepth p (n :: ns) = max (n.writtenDepth p) (maxWrittenDepth p ns) := by
  rw [maxWrittenDepth, if_neg hne]

theorem Node.maxWrittenDepth_visible (ns : List (Node ι)) :
    maxWrittenDepth p (p.visible ns) = maxWrittenDepth p ns := by
  induction ns with
  | nil => rfl
  | cons n ns ih =>
    rw [Printer.visible_cons, maxWrittenDepth]
    split_ifs with h
    · rw [ih, Nat.zero_max]
    · rw [maxWrittenDepth_cons h, ih]

theorem Node.anyLoses_visible (ns : List (Node ι)) :
    anyLoses p (p.visible ns) = anyLoses p ns := by
  induction ns with
  | nil => rfl
  | cons n ns ih =>
    rw [Printer.visible_cons, anyLoses]
    split_ifs with h
    · simp [ih, h]
    · rw [anyLoses, ih]

end Written

@[simp] theorem readPart_behind (inner : List Word → Attempt (Option Level)) (gap : List Piece)
    (ws : List Word) : readPart inner (behind gap ws) = readPart inner ws := by
  simp only [readPart, unwrap?_behind, map_token_behind, source_behind]

/-! ## What attempts come to -/

/-- The attempt fails where there is too little room, and comes to something of the kind
otherwise. -/
def Attempt.Meets {α : Type} (short : Prop) (a : Attempt α) (P : α → Prop) : Prop :=
  (short → a.result = none) ∧ (¬short → ∃ x warnings, a.result = some (x, warnings) ∧ P x)

namespace Attempt

theorem meets_nil {P : List (Node Unit) → Prop} (h : P []) : (collect []).Meets False P :=
  ⟨False.elim, fun _ => ⟨[], [], rfl, h⟩⟩

theorem Meets.cons {short short' : Prop} {a : Attempt (Option (Node Unit))}
    {as : List (Attempt (Option (Node Unit)))} {R : Node Unit → Node Unit → Prop} {n : Node Unit}
    {ns : List (Node Unit)} (ha : a.Meets short fun x => ∃ n', x = some n' ∧ R n' n)
    (has : (collect as).Meets short' fun ns' => List.Forall₂ R ns' ns) :
    (collect (a :: as)).Meets (short ∨ short') fun ns' => List.Forall₂ R ns' (n :: ns) := by
  by_cases hs : short
  · refine ⟨fun _ => ?_, fun h => absurd (.inl hs) h⟩
    rw [collect, ha.1 hs]
  · obtain ⟨x, w, hx, n', rfl, hn⟩ := ha.2 hs
    by_cases hs' : short'
    · refine ⟨fun _ => ?_, fun h => absurd (.inr hs') h⟩
      rw [collect, hx]
      simp only [has.1 hs', Option.map_none]
    · obtain ⟨ns', w', hns', hms⟩ := has.2 hs'
      refine ⟨fun h => (h.elim hs hs').elim, fun _ => ⟨n' :: ns', w ++ w', ?_, .cons hn hms⟩⟩
      rw [collect, hx]
      simp only [hns', Option.map_some]
      rfl

theorem Meets.imp {α : Type} {short : Prop} {a : Attempt α} {P Q : α → Prop}
    (h : a.Meets short P) (hPQ : ∀ x, P x → Q x) : a.Meets short Q := by
  refine ⟨h.1, fun hs => ?_⟩
  obtain ⟨x, w, hx, hP⟩ := h.2 hs
  exact ⟨x, w, hx, hPQ x hP⟩

theorem Meets.congr {α : Type} {short short' : Prop} {a : Attempt α} {P : α → Prop}
    (h : a.Meets short P) (hs : short ↔ short') : a.Meets short' P := by
  rwa [← propext hs]

end Attempt

section Read

variable {ws : List Word} {room : Nat}

/-- A level whose parts are known is read part by part. -/
theorem result_readLevel_of_parts {k : Logic} {ps : List (List Word)}
    (h : (Split.ofWords ws).1 = .parts k ps) : (readLevel (room + 1) ws).result =
      (Attempt.collect (ps.map (readPart (readLevel room)))).result.map
        fun (cs, warnings) => (some ⟨k, cs⟩, warnings) := by
  have hsplit : Split.ofWords ws = (.parts k ps, (Split.ofWords ws).2) := Prod.ext h rfl
  rw [readLevel, hsplit]

theorem meets_readLevel_of_parts {short : Prop} {P : List (Node Unit) → Prop} {k : Logic}
    {ps : List (List Word)} (h : (Split.ofWords ws).1 = .parts k ps)
    (hps : (Attempt.collect (ps.map (readPart (readLevel room)))).Meets short P) :
    (readLevel (room + 1) ws).Meets short fun l => ∃ ns, l = some ⟨k, ns⟩ ∧ P ns := by
  have hread := @result_readLevel_of_parts ws room k ps h
  refine ⟨fun hs => ?_, fun hs => ?_⟩
  · rw [hread, hps.1 hs]
    rfl
  · obtain ⟨ns, warnings, hns, hP⟩ := hps.2 hs
    rw [hns] at hread
    exact ⟨_, warnings, hread, ns, rfl, hP⟩

/-- Reading a level takes room for the level itself. -/
theorem meets_readLevel {depth : Nat} {P : Option Level → Prop}
    (h : ∀ room, (readLevel (room + 1) ws).Meets (room < depth) P) (room : Nat) :
    (readLevel room ws).Meets (room < 1 + depth) P := by
  cases room with
  | zero => exact ⟨fun _ => rfl, fun hn => absurd (Nat.add_pos_left Nat.one_pos depth) hn⟩
  | succ room => exact (h room).congr (by omega)

theorem exists_result_readLevel (h : (Split.ofWords ws).1.isClear = false) :
    ∃ warnings, (readLevel (room + 1) ws).result = some (none, warnings) := by
  rw [readLevel]
  split
  · exact ⟨_, rfl⟩
  · exact ⟨_, rfl⟩
  · next hs =>
    rw [hs] at h
    cases h

theorem result_readPart_of_unwrap? {inner : List Word → Attempt (Option Level)} {body : List Word}
    (hu : unwrap? ws = some body) {l : Option Level} {warnings : List Warning}
    (h : (inner body).result = some (l, warnings)) :
    (readPart inner ws).result = some (match l with
        | none => some (.raw () (source body))
        | some ⟨_, []⟩ => none
        | some ⟨k, cs⟩ => some (.group () k cs), warnings) := by
  rcases l with _ | ⟨k, _ | ⟨c, cs⟩⟩ <;> simp only [readPart, hu, h, Option.map_some]

theorem result_readPart_of_isFragment {inner : List Word → Attempt (Option Level)}
    (h : IsFragment ws) :
    (readPart inner ws).result = some (some (.raw () (source ws)), [.unrecognized (source ws)]) := by
  have hc := h.ofTokens_eq
  simp only [readPart, h.unwrap?_eq]
  split
  · next heq =>
    rw [heq] at hc
    cases hc
  · rfl

/-- A fragment on its own is a level of one member. -/
theorem result_readLevel_of_isFragment (h : IsFragment ws) (hne : ws ≠ []) :
    (readLevel (room + 1) ws).result =
      some (some ⟨.and, [.raw () (source ws)]⟩, [.unrecognized (source ws)]) := by
  have hlevel : (Split.ofWords ws).1 = .parts .and [ws] :=
    Split.ofWords_eq_of_cut h.cut_eq (List.forall_mem_singleton.2 hne) fun _ => rfl
  rw [result_readLevel_of_parts hlevel, List.map_singleton, Attempt.collect,
    result_readPart_of_isFragment h]
  rfl

end Read

/-! ## Nodes that come back -/

section Again

variable (p : Printer Unit)

/-- The node is written like the other one, less the parentheses that are lost. -/
structure Printer.Matches (new old : Node Unit) : Prop where
  ne_empty : p.node new ≠ ""
  text : Shrunk (old.loses p) (p.member new).text (p.member old).text
  alone : old.isRaw = false → Shrunk (p.isClash old || old.loses p) (p.node new) (p.node old)

/-- The text of the node among others is read as a node that matches it, or there is too little
room. -/
def Node.Again (n : Node Unit) : Prop :=
  p.node n ≠ "" → ∃ vs, Written p.dialect.backslashEscapes (p.member n).text.toList vs ∧
    Passed vs ∧ ∀ room, (readPart (readLevel room) vs).Meets (room < n.writtenDepth p)
      fun x => ∃ n', x = some n' ∧ p.Matches n' n

variable {p}

theorem Node.again_condition (hcasts : p.casts () = none) (c : Condition) :
    (Node.condition () c).Again p := by
  intro hne
  have hsql : p.node (.condition () c) = c.sql p.dialect none := by rw [Printer.node, hcasts]
  have hc : c.IsComplete := by
    by_contra hc
    rw [hsql, Condition.sql, if_neg hc] at hne
    exact hne rfl
  obtain ⟨ts, ⟨vs, hvs, rfl⟩, hd⟩ := Condition.spells_sql p.dialect hc
  have hn := numerals_ofText p.dialect.backslashEscapes (c.sql p.dialect none)
  rw [hvs.ofText_eq] at hn
  have hread : ∀ inner, (readPart inner vs).result =
      some (some (.condition () (c.canonical p.dialect)), []) := fun inner =>
    readPart_of_condition (hd.unwrap?_eq rfl) ((Condition.ofTokens_eq_iff hn).2 hd)
  have hsame : p.node (.condition () (c.canonical p.dialect)) = p.node (.condition () c) := by
    rw [hsql, Printer.node, hcasts, Condition.sql_canonical p.dialect hc]
  refine ⟨vs, ?_, hd.passed rfl, fun room => ⟨fun h => absurd h (Nat.not_lt_zero room), fun _ =>
    ⟨_, _, hread _, _, rfl, ⟨?_, ?_, fun _ => ?_⟩⟩⟩⟩
  · rw [p.text_member_of_not_isRaw rfl, hsql]
    exact hvs
  · rwa [hsame]
  · rw [p.text_member_of_not_isRaw rfl, p.text_member_of_not_isRaw rfl, hsame]
    exact .refl _
  · rw [hsame]
    exact .refl _

theorem Printer.Matches.raw {s : String} (hne : p.node (.raw () s) ≠ "") :
    p.Matches (.raw () s) (.raw () s) := ⟨hne, .refl _, nofun⟩

theorem Node.again_raw {s : String} (h : Kept p.dialect.backslashEscapes s) :
    (Node.raw () s).Again p := by
  intro hne
  obtain ⟨ws, hws, hb, hkept⟩ := h
  have htext : (p.member (.raw () s)).text = Printer.parenthesized s := by
    rw [p.text_member_raw, hws.trim_eq]
  refine ⟨_, p.written_text_raw (hws.trim_eq.symm ▸ hws) (), passed_parentheses hb,
    fun room => ?_⟩
  have hu := unwrap?_parentheses hb
  cases room with
  | zero =>
    refine ⟨fun _ => ?_, fun h => absurd Nat.one_pos h⟩
    simp only [readPart, hu, readLevel, Option.map_none]
  | succ room =>
    refine ⟨fun h => absurd (Nat.lt_of_succ_lt_succ h) (Nat.not_lt_zero room), fun _ => ?_⟩
    rcases hkept with hfragment | hclash
    · have hread := @result_readLevel_of_isFragment ws room hfragment hws.ne_nil
      rw [hws.source_eq] at hread
      refine ⟨_, _, result_readPart_of_unwrap? hu hread, _, rfl, ?_⟩
      have hnode : p.node (.group () .and [.raw () s]) = (p.member (.raw () s)).text := by
        rw [Printer.node, Printer.members, if_neg hne]
        rfl
      refine ⟨?_, ?_, fun h => absurd h.symm Bool.false_ne_true⟩
      · rw [hnode, htext]
        exact Printer.parenthesized_ne_empty s
      · rw [p.text_member_of_not_isRaw rfl, hnode]
        exact .refl _
    · obtain ⟨warnings, hread⟩ := @exists_result_readLevel ws room hclash
      have hpart := result_readPart_of_unwrap? hu hread
      rw [hws.source_eq] at hpart
      exact ⟨_, _, hpart, _, rfl, .raw hne⟩

/-- The parts that the text of nodes is cut into are read as nodes that match them. -/
theorem meets_parts {room : Nat} {ns : List (Node Unit)} {ps : List (List Word)}
    (h : ∀ m ∈ ns, p.node m ≠ "" ∧ m.Again p)
    (hps : List.Forall₂ (fun q n => ∃ gap us, q = behind gap us ∧
      Written p.dialect.backslashEscapes (p.member n).text.toList us) ps ns) :
    (Attempt.collect (ps.map (readPart (readLevel room)))).Meets
      (room < Node.maxWrittenDepth p ns) fun ns' => List.Forall₂ p.Matches ns' ns := by
  induction hps with
  | nil => exact (Attempt.meets_nil .nil).congr (by simp [Node.maxWrittenDepth])
  | @cons q n ps ns hq _ ih =>
    obtain ⟨⟨hne, hn⟩, hms⟩ := List.forall_mem_cons.1 h
    obtain ⟨gap, us, rfl, hus⟩ := hq
    obtain ⟨vs, hvs, -, hmeets⟩ := hn hne
    obtain rfl : us = vs := hus.ofText_eq.symm.trans hvs.ofText_eq
    rw [List.map_cons, readPart_behind]
    refine ((hmeets room).cons (ih hms)).congr ?_
    rw [Node.maxWrittenDepth_cons hne, lt_max_iff]

theorem Printer.members_of_matches {ns ns' : List (Node Unit)}
    (h : List.Forall₂ p.Matches ns' ns) : p.members ns' = ns'.map p.member := by
  induction h with
  | nil => rfl
  | cons hn _ ih =>
    rw [members, if_neg hn.ne_empty, ih]
    rfl

theorem shrunk_intercalate (k : Logic) {n n' : Node Unit} {ns ns' : List (Node Unit)}
    (hn : p.Matches n' n) (hns : List.Forall₂ p.Matches ns' ns)
    (hne : ∀ m ∈ n :: ns, p.node m ≠ "") : Shrunk (Node.anyLoses p (n :: ns))
      (String.intercalate (" " ++ k.name ++ " ") (((n' :: ns').map p.member).map Member.text))
      (String.intercalate (" " ++ k.name ++ " ") (((n :: ns).map p.member).map Member.text)) := by
  induction hns generalizing n n' with
  | nil =>
    have hloses : Node.anyLoses p [n] = n.loses p := by
      rw [Node.anyLoses, Node.anyLoses, decide_eq_true (hne n List.mem_cons_self), Bool.true_and,
        Bool.or_false]
    rw [hloses]
    simp only [List.map_cons, List.map_nil, String.intercalate_singleton]
    exact hn.text
  | @cons m' m ns' ns hm _ ih =>
    obtain ⟨hnode, hms⟩ := List.forall_mem_cons.1 hne
    have := (hn.text.append (.refl (" " ++ k.name ++ " "))).append (ih hm hms)
    rw [Node.anyLoses, decide_eq_true hnode, Bool.true_and]
    rw [Bool.or_false] at this
    simp only [List.map_cons, String.intercalate_cons_cons] at this ⊢
    exact this

/-- The level that the members of a group are read as, if it is clear, is written like the group,
less the parentheses that are lost. -/
def Printer.LevelMatches (p : Printer Unit) (k : Logic) (ns : List (Node Unit)) :
    Option Level → Prop
  | none => p.loneClash ns = true
  | some l => p.loneClash ns = false ∧ p.members l.children ≠ [] ∧
      Shrunk (p.losesAlone ns || Node.anyLoses p ns) (Printer.inner l.logic (p.members l.children))
        (Printer.inner k (p.members ns))

/-- The text of a group is read as a level that matches it, or there is too little room. -/
def Printer.LevelAgain (p : Printer Unit) (k : Logic) (ns : List (Node Unit)) : Prop :=
  ∃ vs, Written p.dialect.backslashEscapes (Printer.inner k (p.members ns)).toList vs ∧
    balanced 0 vs = true ∧ ∀ room, (readLevel room vs).Meets
      (room < p.levelDepth ns (Node.maxWrittenDepth p ns)) (p.LevelMatches k ns)

section Level

variable {k : Logic} {ns : List (Node Unit)}

theorem lost_of_visible_raw {i : Unit} {s : String} (hw : p.visible ns = [.raw i s]) :
    (p.losesAlone ns || Node.anyLoses p ns) = false := by
  rw [Printer.losesAlone, ← Node.anyLoses_visible, hw]
  simp [Printer.isClash, Node.anyLoses, Node.loses]

theorem levelAgain_raw {i : Unit} {s : String} (hw : p.visible ns = [.raw i s])
    (h : Kept p.dialect.backslashEscapes s) : p.LevelAgain k ns := by
  obtain ⟨ws, hws, hb, hkept⟩ := h
  have hnode : p.node (.raw () s) ≠ "" := (Printer.mem_visible.1 (hw ▸ List.mem_singleton_self _)).2
  have hmembers : p.members ns = [p.member (.raw () s)] := by
    rw [p.members_eq_map_visible, hw]
    rfl
  have hsql : (p.member (.raw () s)).sql = s := by rw [Printer.member, Printer.node, hws.trim_eq]
  have hdepth : p.levelDepth ns (Node.maxWrittenDepth p ns) = 1 + 0 := by
    rw [Printer.levelDepth, hw]
  have hclash : p.loneClash ns = !(Split.ofWords ws).1.isClear := by
    rw [Printer.loneClash, hw]
    show p.clashes s = _
    rw [Printer.clashes, hws.ofText_eq]
  refine ⟨ws, ?_, hb, ?_⟩
  · rwa [hmembers, Printer.inner, hsql]
  · rw [hdepth]
    refine meets_readLevel fun room => ⟨fun h => absurd h (Nat.not_lt_zero room), fun _ => ?_⟩
    -- raw SQL that stands alone is read as raw SQL again, or its connectives clash
    rcases hkept with hfragment | hunclear
    · have hread := @result_readLevel_of_isFragment ws room hfragment hws.ne_nil
      have hclear : (Split.ofWords ws).1 = .parts .and [ws] := Split.ofWords_eq_of_cut
        hfragment.cut_eq (List.forall_mem_singleton.2 hws.ne_nil) fun _ => rfl
      have hmembers' : p.members [.raw () s] = [p.member (.raw () s)] := by
        rw [Printer.members, if_neg hnode]
        rfl
      rw [hws.source_eq] at hread
      refine ⟨_, _, hread, ?_, ?_, ?_⟩
      · rw [hclash, hclear]
        rfl
      · rw [hmembers']
        exact List.cons_ne_nil _ _
      · rw [lost_of_visible_raw hw, hmembers, hmembers', Printer.inner, Printer.inner]
        exact .refl _
    · obtain ⟨warnings, hread⟩ := @exists_result_readLevel ws room hunclear
      exact ⟨none, warnings, hread, by rw [Printer.LevelMatches, hclash, hunclear]; rfl⟩

theorem levelDepth_of_ne_raw (hraw : ∀ i s, p.visible ns ≠ [.raw i s]) (depth : Nat) :
    p.levelDepth ns depth = 1 + depth := by
  unfold Printer.levelDepth
  split
  · next hw => exact absurd hw (hraw _ _)
  · rfl

theorem loneClash_of_ne_raw (hraw : ∀ i s, p.visible ns ≠ [.raw i s]) :
    p.loneClash ns = false := by
  unfold Printer.loneClash
  split
  · next hw => exact absurd hw (hraw _ _)
  · rfl

theorem levelAgain_alone {n : Node Unit} (hw : p.visible ns = [n]) (hraw : n.isRaw = false)
    (hn : n.Again p) : p.LevelAgain k ns := by
  have hnode : p.node n ≠ "" := (Printer.mem_visible.1 (hw ▸ List.mem_singleton_self n)).2
  have hmembers : p.members ns = [p.member n] := by
    rw [p.members_eq_map_visible, hw]
    rfl
  have hne : ∀ i s, p.visible ns ≠ [.raw i s] := by
    intro i s h
    obtain rfl := List.singleton_inj.1 (hw.symm.trans h)
    exact Bool.true_eq_false.mp hraw
  have hdepth : p.levelDepth ns (Node.maxWrittenDepth p ns) = 1 + n.writtenDepth p := by
    rw [levelDepth_of_ne_raw hne, ← Node.maxWrittenDepth_visible, hw,
      Node.maxWrittenDepth_cons hnode, Node.maxWrittenDepth, Nat.max_zero]
  have hlost : (p.losesAlone ns || Node.anyLoses p ns) = (p.isClash n || n.loses p) := by
    rw [Printer.losesAlone, ← Node.anyLoses_visible, hw, Node.anyLoses, Node.anyLoses,
      decide_eq_true hnode, Bool.true_and, Bool.or_false]
  obtain ⟨vs, hvs, hpassed, hmeets⟩ := hn hnode
  -- a member that stands alone is written without parentheses of its own
  rw [p.text_member_of_not_isRaw hraw] at hvs
  refine ⟨vs, ?_, hpassed.1, ?_⟩
  · rwa [hmembers, Printer.inner]
  · rw [hdepth]
    refine meets_readLevel fun room => ?_
    have hlevel : (Split.ofWords vs).1 = .parts .and [vs] := Split.ofWords_eq_of_cut
      (cut_last hpassed.2) (List.forall_mem_singleton.2 hvs.ne_nil) fun _ => rfl
    have hparts := (hmeets room).cons (Attempt.meets_nil .nil)
    refine ((meets_readLevel_of_parts hlevel hparts).congr (iff_of_eq (or_false _))).imp ?_
    rintro _ ⟨ns', rfl, hmatch⟩
    obtain ⟨n', ns', hn', hnil, rfl⟩ := List.forall₂_cons_right_iff.1 hmatch
    obtain rfl := List.forall₂_nil_right_iff.1 hnil
    have hmembers' := Printer.members_of_matches hmatch
    refine ⟨loneClash_of_ne_raw hne, ?_, ?_⟩
    · rw [hmembers']
      exact List.cons_ne_nil _ _
    · rw [hlost, hmembers, hmembers']
      exact hn'.alone hraw

theorem levelAgain_joined {n m : Node Unit} {ms : List (Node Unit)}
    (hw : p.visible ns = n :: m :: ms) (h : ∀ x ∈ n :: m :: ms, x.Again p) :
    p.LevelAgain k ns := by
  have hnode : ∀ x ∈ n :: m :: ms, p.node x ≠ "" := fun x hx =>
    (Printer.mem_visible.1 (hw ▸ hx)).2
  have hmembers : p.members ns = (n :: m :: ms).map p.member := by
    rw [p.members_eq_map_visible, hw]
  have hne : ∀ i s, p.visible ns ≠ [.raw i s] := fun i s h => nomatch hw.symm.trans h
  have hdepth : p.levelDepth ns (Node.maxWrittenDepth p ns) =
      1 + Node.maxWrittenDepth p (n :: m :: ms) := by
    rw [levelDepth_of_ne_raw hne, ← Node.maxWrittenDepth_visible, hw]
  have hlost : (p.losesAlone ns || Node.anyLoses p ns) = Node.anyLoses p (n :: m :: ms) := by
    rw [Printer.losesAlone, ← Node.anyLoses_visible, hw, Bool.false_or]
  have hagain : ∀ x ∈ n :: m :: ms, p.node x ≠ "" ∧ x.Again p := fun x hx => ⟨hnode x hx, h x hx⟩
  have htext : ∀ x ∈ n :: m :: ms, ∃ us,
      Written p.dialect.backslashEscapes (p.member x).text.toList us ∧ Passed us := by
    intro x hx
    obtain ⟨us, hus, hpassed, -⟩ := h x hx (hnode x hx)
    exact ⟨us, hus, hpassed⟩
  obtain ⟨vs, ps, hcuts⟩ := Printer.exists_cuts k htext
  refine ⟨vs, ?_, hcuts.balanced, ?_⟩
  · rw [hmembers]
    exact hcuts.written
  · rw [hdepth]
    refine meets_readLevel fun room => ?_
    have hlevel : (Split.ofWords vs).1 = .parts k ps := hcuts.split (by simp)
    refine (meets_readLevel_of_parts hlevel (meets_parts hagain hcuts.parts)).imp ?_
    rintro _ ⟨ns', rfl, hmatch⟩
    have hmembers' := Printer.members_of_matches hmatch
    cases hmatch with
    | @cons n' _ ns' _ hn' hms' =>
      refine ⟨loneClash_of_ne_raw hne, ?_, ?_⟩
      · rw [hmembers']
        exact List.cons_ne_nil _ _
      · rw [hlost, hmembers, hmembers']
        have := shrunk_intercalate k hn' hms' hnode
        cases hms' with
        | cons hm' hrest => exact this

/-- **Groups** are read again as levels that match them. -/
theorem levelAgain (h : ∀ n ∈ ns, n.RawsKept p.dialect.backslashEscapes ∧ n.Again p)
    (hne : p.visible ns ≠ []) : p.LevelAgain k ns := by
  match hw : p.visible ns, hne with
  | [n], _ =>
    obtain ⟨hraws, hn⟩ := h n (Printer.mem_visible.1 (hw ▸ List.mem_singleton_self n)).1
    cases n with
    | raw i s => exact levelAgain_raw hw (hraws i s (List.mem_singleton_self _))
    | condition i c => exact levelAgain_alone hw rfl hn
    | group i l cs => exact levelAgain_alone hw rfl hn
  | n :: m :: ms, _ =>
    exact levelAgain_joined hw fun x hx => (h x (Printer.mem_visible.1 (hw ▸ hx)).1).2

end Level

section Group

variable {k : Logic} {ns : List (Node Unit)} (hmembers : p.members ns ≠ [])

include hmembers in
theorem Printer.node_group :
    p.node (.group () k ns) = parenthesized (inner k (p.members ns)) :=
  join_eq_parenthesized k hmembers

include hmembers in
/-- A group of raw SQL that is no clear level is matched by the raw SQL. -/
theorem Printer.matches_of_loneClash {vs : List Word}
    (hvs : Written p.dialect.backslashEscapes (inner k (p.members ns)).toList vs)
    (hclash : p.loneClash ns = true) :
    p.Matches (.raw () (inner k (p.members ns))) (.group () k ns) := by
  have hraw : p.node (.raw () (inner k (p.members ns))) = inner k (p.members ns) := hvs.trim_eq
  have hlost : (Node.group () k ns).loses p = false := by
    unfold loneClash at hclash
    split at hclash
    · next i s hw => exact lost_of_visible_raw hw
    · exact absurd hclash Bool.false_ne_true
  refine ⟨?_, ?_, fun _ => ?_⟩
  · rw [hraw]
    intro hnil
    obtain ⟨c, cs, hcs, -⟩ := hvs.solid
    rw [hnil] at hcs
    cases hcs
  · rw [hlost, p.text_member_raw, p.text_member_of_not_isRaw rfl, node_group hmembers,
      hvs.trim_eq]
    exact .refl _
  · rw [hlost, Bool.or_false, hraw, node_group hmembers, isClash, hclash]
    show _ < (parenthesized _).length
    rw [length_parenthesized]
    exact Nat.lt_add_of_pos_right Nat.two_pos

include hmembers in
/-- A group is matched by the level that its members are read as. -/
theorem Printer.matches_of_levelMatches {k' : Logic} {ns' : List (Node Unit)}
    (h : p.LevelMatches k ns (some ⟨k', ns'⟩)) :
    p.Matches (.group () k' ns') (.group () k ns) := by
  obtain ⟨hclash, hmembers', hshrunk⟩ := h
  have htext : Shrunk ((Node.group () k ns).loses p) (p.node (.group () k' ns'))
      (p.node (.group () k ns)) := by
    rw [node_group hmembers, node_group hmembers']
    exact hshrunk.parenthesized
  refine ⟨?_, ?_, fun _ => ?_⟩
  · rw [node_group hmembers']
    exact parenthesized_ne_empty _
  · rwa [p.text_member_of_not_isRaw rfl, p.text_member_of_not_isRaw rfl]
  · rwa [isClash, hclash, Bool.false_or]

end Group

theorem Node.again_group {k : Logic} {ns : List (Node Unit)}
    (h : ∀ n ∈ ns, n.RawsKept p.dialect.backslashEscapes ∧ n.Again p) :
    (Node.group () k ns).Again p := by
  intro hne
  have hmembers : p.members ns ≠ [] := by
    intro hnil
    rw [Printer.node, hnil] at hne
    exact hne rfl
  have hvisible : p.visible ns ≠ [] := by
    intro hnil
    rw [p.members_eq_map_visible, hnil] at hmembers
    exact hmembers rfl
  obtain ⟨vs, hvs, hb, hmeets⟩ := @levelAgain p k ns h hvisible
  refine ⟨parenthesized vs, ?_, passed_parentheses hb, fun room => ⟨fun hs => ?_, fun hs => ?_⟩⟩
  · rw [p.text_member_of_not_isRaw rfl, Printer.node_group hmembers, Printer.toList_parenthesized]
    exact hvs.parenthesized
  · simp only [readPart, unwrap?_parentheses hb, (hmeets room).1 hs, Option.map_none]
  · obtain ⟨l, warnings, hread, hl⟩ := (hmeets room).2 hs
    have hpart := result_readPart_of_unwrap? (unwrap?_parentheses hb) hread
    rcases l with _ | ⟨k', _ | ⟨n', ns'⟩⟩
    · rw [hvs.source_eq] at hpart
      exact ⟨_, _, hpart, _, rfl, Printer.matches_of_loneClash hmembers hvs hl⟩
    · exact absurd rfl hl.2.1
    · exact ⟨_, _, hpart, _, rfl, Printer.matches_of_levelMatches hmembers hl⟩

mutual

/-- **Nodes** whose raw SQL is kept text are read again. -/
theorem Node.again (hcasts : p.casts () = none) : ∀ n : Node Unit,
    n.RawsKept p.dialect.backslashEscapes → n.Again p
  | .condition () c => fun _ => again_condition hcasts c
  | .group () _ ns => fun h =>
    have hns := Node.rawsKept_group.1 h
    again_group fun n hn => ⟨hns n hn, Node.forall_again hcasts ns hns n hn⟩
  | .raw () s => fun h => again_raw (h () s (List.mem_singleton_self _))

theorem Node.forall_again (hcasts : p.casts () = none) : ∀ ns : List (Node Unit),
    (∀ n ∈ ns, n.RawsKept p.dialect.backslashEscapes) → ∀ n ∈ ns, n.Again p
  | [] => fun _ n hn => absurd hn List.not_mem_nil
  | n :: ns => by
    intro h
    obtain ⟨hn, hns⟩ := List.forall_mem_cons.1 h
    exact List.forall_mem_cons.2 ⟨Node.again hcasts n hn, Node.forall_again hcasts ns hns⟩

end

end Again

end SqlFilter
