import SqlFilter.Proofs.Tree.Accepted
import SqlFilter.Proofs.Tree.Reread

/-!
# Texts that end with an open literal

A literal that is never closed takes in the rest of the text, and with it the parentheses that are
written behind it. Whatever is read from such a text, its SQL ends with the literal and further
parentheses (`Reading.exists_trails`).
-/

namespace SqlFilter

open Text Piece Word

/-! ## Text in front of an open literal -/

namespace Word.Trails

variable {escapes : Bool} {last as bs : List Char} {depth : Nat} {s : String}

theorem parenthesized (h : Trails escapes last depth s.toList) :
    Trails escapes last (depth + 1) (Printer.parenthesized s).toList := by
  obtain ⟨ps, hps⟩ := h
  refine ⟨.token .leftParen ['('] :: ps, fun n => ?_⟩
  rw [Printer.toList_parenthesized, List.append_assoc, List.cons_append, ofText_leftParen,
    List.singleton_append, ← List.replicate_succ, hps (n + 1), Nat.add_right_comm, Nat.add_assoc]
  rfl

theorem space {ws : List Word} (ha : Written escapes as ws) (hb : Solid bs)
    (h : Trails escapes last depth bs) : Trails escapes last depth (as ++ ' ' :: bs) := by
  obtain ⟨ps, hps⟩ := h
  refine ⟨pieces ws ++ .blank [' '] :: ps, fun n => ?_⟩
  rw [List.append_assoc, List.cons_append, ha.closed _ (delimited_cons.2 (by decide)),
    ofText_space (hb.append _).head, hps, List.append_assoc, List.cons_append]

end Word.Trails

/-- What the end of a text decides, at a depth of parentheses: it still holds behind written words,
and one level deeper in parentheses. -/
structure Word.Carried (escapes : Bool) (P : Nat → List Char → Prop) : Prop where
  space : ∀ {as bs ws depth}, Written escapes as ws → Solid bs → P depth bs →
    P depth (as ++ ' ' :: bs)
  parenthesized : ∀ {s depth}, P depth s.toList → P (depth + 1) (Printer.parenthesized s).toList

theorem Word.carried_trails (escapes : Bool) (last : List Char) :
    Carried escapes (Trails escapes last) :=
  ⟨.space, .parenthesized⟩

namespace Word.Carried

variable {escapes : Bool} {P : Nat → List Char → Prop} {depth : Nat} (hP : Carried escapes P)

include hP

theorem intercalate (k : Logic) {ms : List Member} {m : Member}
    (hms : ∀ x ∈ ms, ∃ ws, Written escapes x.text.toList ws)
    (hm : Solid m.text.toList ∧ P depth m.text.toList) :
    let s := String.intercalate (" " ++ k.name ++ " ") ((ms ++ [m]).map Member.text)
    Solid s.toList ∧ P depth s.toList := by
  induction ms with
  | nil =>
    rw [List.nil_append, List.map_singleton, String.intercalate_singleton]
    exact hm
  | cons x ms ih =>
    obtain ⟨⟨ws, hws⟩, hms⟩ := List.forall_mem_cons.1 hms
    obtain ⟨hsolid, hcarried⟩ := ih hms
    obtain ⟨ks, hks, -⟩ := k.spells_name escapes
    obtain ⟨y, ys, hy⟩ := List.exists_cons_of_ne_nil
      (List.append_ne_nil_of_right_ne_nil ms (List.cons_ne_nil m []))
    rw [List.cons_append]
    rw [hy] at hsolid hcarried ⊢
    rw [List.map_cons, List.map_cons, String.intercalate_cons_cons, ← List.map_cons]
    simp only [String.toList_append, List.append_assoc]
    exact ⟨hws.solid.append _,
      hP.space hws (hks.solid.append _) (hP.space hks hsolid hcarried)⟩

/-- What holds of raw SQL holds of a group whose last member it is. -/
theorem exists_tree (p : Printer Unit) (k : Logic) {ns : List (Node Unit)} {s : String}
    (hns : ∀ n ∈ ns, p.node n ≠ "" → ∃ ws, Written escapes (p.member n).text.toList ws)
    (hs : Text.trim s ≠ "") (h : P 0 (Text.trim s).toList) :
    ∃ d, P (d + 1) (p.tree ⟨(), k, ns ++ [.raw () s]⟩).toList := by
  have hmembers : p.members (ns ++ [.raw () s]) = p.members ns ++ [⟨Text.trim s, true⟩] :=
    p.members_concat ns (show p.node (.raw () s) ≠ "" from hs)
  have hne : p.members (ns ++ [.raw () s]) ≠ [] := by
    rw [hmembers]
    exact List.append_ne_nil_of_right_ne_nil _ (List.cons_ne_nil _ _)
  rw [Printer.tree, Printer.join_eq_parenthesized k hne, hmembers]
  cases hms : p.members ns with
  | nil => exact ⟨0, hP.parenthesized h⟩
  | cons m ms =>
    have hwritten : ∀ x ∈ m :: ms, ∃ ws, Written escapes x.text.toList ws := by
      rw [← hms, Printer.members_eq_map_visible]
      intro x hx
      obtain ⟨n, hn, rfl⟩ := List.mem_map.1 hx
      obtain ⟨hn, hne⟩ := Printer.mem_visible.1 hn
      exact hns n hn hne
    have hlast : Solid (Member.text ⟨Text.trim s, true⟩).toList ∧
        P 1 (Member.text ⟨Text.trim s, true⟩).toList := by
      refine ⟨?_, hP.parenthesized h⟩
      rw [Member.text, if_pos rfl, Printer.toList_parenthesized]
      exact solid_parenthesized _
    have hinner : Printer.inner k (m :: ms ++ [⟨Text.trim s, true⟩]) = String.intercalate
        (" " ++ k.name ++ " ") ((m :: ms ++ [(⟨Text.trim s, true⟩ : Member)]).map Member.text) := by
      cases ms <;> rfl
    rw [hinner]
    exact ⟨1, hP.parenthesized (hP.intercalate k hwritten hlast).2⟩

end Word.Carried

/-! ## What is read in front of an open literal -/

/-- The attempts before the last one give what comes before what the last one gives. -/
theorem Attempt.collect_concat {as : List (Attempt (Option (Node Unit)))}
    {a : Attempt (Option (Node Unit))} {ns : List (Node Unit)} {warnings : List Warning}
    (h : (collect (as ++ [a])).result = some (ns, warnings)) :
    ∃ ms n w w', (collect as).result = some (ms, w) ∧ a.result = some (n, w') ∧
      ns = ms ++ n.toList := by
  rw [result_collect_append] at h
  obtain ⟨⟨ms, w⟩, hms, hlast⟩ := Option.bind_eq_some_iff.1 h
  obtain ⟨⟨last, w'⟩, ha, heq⟩ := Option.map_eq_some_iff.1 hlast
  obtain ⟨rfl, -⟩ := Prod.mk.inj heq
  obtain ⟨n, v, rest, more, hn, hrest, rfl, -⟩ := result_collect_cons_iff.1 ha
  obtain rfl : [] = rest := congrArg Prod.fst (Option.some.inj hrest)
  exact ⟨ms, n, w, v, hms, hn, by rw [List.append_nil]⟩

namespace Word

variable {escapes : Bool} {ws : List Word} {w : Word}

theorem token_of_isOpen (h : w.isOpen = true) : w.token = .illegal := by
  obtain ⟨c, -, hc⟩ := Option.any_eq_true _ _ |>.1 h
  exact beq_iff_eq.1 (Bool.and_eq_true_iff.1 hc).1

/-- No word behind which a text goes on is left open. -/
theorem InText.isOpen_eq (h : InText escapes (ws ++ [w])) : ∀ v ∈ ws, v.isOpen = false := by
  intro v hv
  obtain ⟨us, vs, rfl⟩ := List.append_of_mem hv
  obtain ⟨⟨after, hl⟩, hws⟩ := h
  rw [List.append_assoc, spread_append, List.cons_append, spread_cons, pieces_cons] at hl
  have hchars := Lexed.chars_ne_nil hl.right.right.2
    (token_mem_spread (List.mem_append_right vs (List.mem_singleton_self w)))
  obtain ⟨-, c, ds, hcs, -, ho, -⟩ := closed_of_lexed hl.right.right
    (hws v (List.mem_append_left _ (List.mem_append_right us List.mem_cons_self))).1
    (List.append_ne_nil_of_left_ne_nil hchars _)
  rw [isOpen, hcs]
  exact ho

/-- Only the last word of a text is left open. -/
theorem exists_ofText_concat {text : String}
    (h : ¬ ∀ w ∈ ofText escapes text, w.isOpen = false) :
    ∃ ws w, ofText escapes text = ws ++ [w] ∧ w.isOpen = true := by
  push Not at h
  obtain ⟨w, hw, ho⟩ := h
  obtain ⟨vs, v, hvs⟩ : ∃ vs v, ofText escapes text = vs ++ [v] :=
    ⟨_, _, (List.dropLast_concat_getLast (List.ne_nil_of_mem hw)).symm⟩
  have hin : InText escapes (vs ++ [v]) := hvs ▸ inText_ofText escapes text
  rw [hvs, List.mem_append, List.mem_singleton] at hw
  rcases hw with hw | rfl
  · exact absurd (hin.isOpen_eq w hw) ho
  · exact ⟨vs, w, hvs, (Bool.not_eq_false _).mp ho⟩

/-- A word that is no connective belongs to the last part. -/
theorem exists_cut_concat (hw : ∀ depth pending, connective? depth pending w = none)
    (depth : Nat) (pending : Bool) : ∃ ps p,
      (cut depth pending ws).1 :: (cut depth pending ws).2.map Prod.snd = ps ++ [p] ∧
      (cut depth pending (ws ++ [w])).1 :: (cut depth pending (ws ++ [w])).2.map Prod.snd =
        ps ++ [p ++ [w]] := by
  induction ws generalizing depth pending with
  | nil =>
    refine ⟨[], [], rfl, ?_⟩
    simp only [List.nil_append, cut, hw, List.map_nil]
  | cons v ws ih =>
    rw [List.cons_append]
    cases hc : connective? depth pending v with
    | some k =>
      obtain ⟨ps, p, hps, hcut⟩ := ih depth false
      refine ⟨[] :: ps, p, ?_, ?_⟩
      · simp only [cut, hc, List.map_cons, hps, List.cons_append]
      · simp only [cut, hc, List.map_cons, hcut, List.cons_append]
    | none =>
      obtain ⟨ps, p, hps, hcut⟩ := ih (depthAfter depth v) (pendingAfter depth pending v)
      simp only [cut, hc]
      cases ps with
      | nil =>
        obtain ⟨hp, hmore⟩ := List.cons.inj hps
        obtain ⟨hq, hmore'⟩ := List.cons.inj hcut
        exact ⟨[], v :: p, by rw [hp, hmore]; rfl, by rw [hq, hmore']; rfl⟩
      | cons q ps =>
        obtain ⟨hp, hmore⟩ := List.cons.inj hps
        obtain ⟨hq, hmore'⟩ := List.cons.inj hcut
        exact ⟨(v :: q) :: ps, p, by rw [hp, hmore]; rfl, by rw [hq, hmore']; rfl⟩

theorem connective?_of_isOpen (h : w.isOpen = true) (depth : Nat) (pending : Bool) :
    connective? depth pending w = none := by
  simp [connective?, token_of_isOpen h]

theorem unwrap?_of_isOpen (h : w.isOpen = true) : unwrap? (ws ++ [w]) = none := by
  refine Option.eq_none_iff_forall_ne_some.2 fun body hu => ?_
  obtain ⟨o, c, heq, -, hc, -⟩ := unwrap?_eq_some_iff.1 hu
  rw [← List.cons_append] at heq
  obtain ⟨-, heq⟩ := List.append_inj' heq rfl
  obtain rfl := List.singleton_inj.1 heq
  cases hc.symm.trans (token_of_isOpen h)

/-- The part with an open literal is kept. -/
theorem node_of_isOpen (h : w.isOpen = true) {inner : List Word → Attempt (Option Level)}
    {n : Option (Node Unit)} {warnings : List Warning}
    (hn : (readPart inner (ws ++ [w])).result = some (n, warnings)) :
    n = some (.raw () (source (ws ++ [w]))) := by
  have hmem : .illegal ∈ (ws ++ [w]).map token := by
    rw [List.map_append, List.map_singleton, token_of_isOpen h]
    exact List.mem_append_right _ (List.mem_singleton_self _)
  obtain ⟨body, hu, -⟩ | ⟨body, l, hu, -⟩ | ⟨c, -, hc, -⟩ | ⟨-, -, rfl, -⟩ := readPart_outcomes hn
  · cases (unwrap?_of_isOpen h).symm.trans hu
  · cases (unwrap?_of_isOpen h).symm.trans hu
  · cases (Condition.ofTokens_of_illegal hmem).symm.trans hc
  · rfl

/-- **The last member** of a level that ends with an open literal is kept with the literal, and the
members before it are read as ever. -/
theorem children_of_isOpen (h : InText escapes (ws ++ [w])) (hw : w.isOpen = true)
    (hb : balanced 0 (ws ++ [w]) = true) {room : Nat} {l : Level} {warnings : List Warning}
    (hl : (readLevel room (ws ++ [w])).result = some (some l, warnings)) :
    ∃ ns vs, l.children = ns ++ [.raw () (source (vs ++ [w]))] ∧ InText escapes (vs ++ [w]) ∧
      ∀ n ∈ ns, n.RawsKept escapes := by
  cases room with
  | zero => cases hl
  | succ room =>
    obtain ⟨hnone, -⟩ | ⟨k, ps, n, ns, hsome, hs, hns⟩ := readLevel_cases hl
    · cases hnone
    obtain rfl := Option.some.inj hsome
    obtain ⟨qs, q, hqs, hcut⟩ := @exists_cut_concat ws w (connective?_of_isOpen hw) 0 false
    have hparts := hs
    rw [Split.ofWords, if_neg (List.append_ne_nil_of_right_ne_nil ws (List.cons_ne_nil w []))]
      at hparts
    obtain ⟨rfl, hne, -, -⟩ := Split.eq_of_check hparts
    rw [hcut] at hne hns
    rw [List.map_append, List.map_singleton] at hns
    obtain ⟨ms, m, v, v', hms, hm, rfl⟩ := Attempt.collect_concat hns
    obtain rfl := node_of_isOpen hw hm
    refine ⟨ms, q, rfl, ?_, fun n hn => ?_⟩
    · have hmem : q ++ [w] ∈ qs ++ [q ++ [w]] := List.mem_append_right qs (List.mem_singleton_self _)
      obtain ⟨us, vs, heq⟩ := exists_append_of_mem (hcut ▸ hmem)
      rw [heq] at h
      exact h.right.left
    · obtain ⟨p, hp, hread⟩ := readAs_of_collect hms n hn
      obtain ⟨hbp, hcutp⟩ := cut_of_mem (hcut ▸ List.mem_append_left _ hp) hb
      obtain ⟨us, vs, rfl⟩ := exists_append_of_mem (hqs ▸ List.mem_append_left _ hp)
      have hp' : Intact escapes p := by
        refine ⟨h.left.right.left, hbp, ?_⟩
        exact (List.forall_mem_append.1 (List.forall_mem_append.1 h.isOpen_eq).2).1
      exact hread.rawsKept (fun vs hvs l w hl => rawsKept_readLevel room hvs hl) hp'
        (hne p (List.mem_append_left _ hp)) hcutp

end Word

/-! ## The SQL of a text with an open literal -/

theorem Node.exists_written {p : Printer Unit} (hcasts : p.casts () = none) {ns : List (Node Unit)}
    (h : ∀ n ∈ ns, n.RawsKept p.dialect.backslashEscapes) :
    ∀ n ∈ ns, p.node n ≠ "" →
      ∃ ws, Written p.dialect.backslashEscapes (p.member n).text.toList ws := by
  intro n hn hne
  obtain ⟨ws, hws, -⟩ := Node.forall_again hcasts ns h n hn hne
  exact ⟨ws, hws⟩

namespace Word

variable {escapes : Bool} {last cs : List Char} {depth : Nat}

/-- The text ends with the literal as its last token. -/
theorem Trails.exists_ofText_eq (hu : Unclosed escapes last) (h : Trails escapes last depth cs) :
    ∃ ps, Piece.ofText escapes cs =
      ps ++ [.token .illegal (last ++ List.replicate depth ')')] := by
  obtain ⟨ps, hps⟩ := h
  have := hps 0
  rw [List.replicate_zero, List.append_nil, Nat.add_zero, hu.ofText_eq] at this
  exact ⟨ps, this⟩

theorem exists_ofPieces_concat {t : Token} (ht : t ≠ .comment) (gap ps : List Piece) :
    ∃ ws before, ofPieces gap (ps ++ [.token t cs]) = ws ++ [⟨t, cs, before⟩] := by
  induction ps generalizing gap with
  | nil => exact ⟨[], gap, by rw [List.nil_append, ofPieces, if_neg ht]; rfl⟩
  | cons p ps ih =>
    rw [List.cons_append]
    cases p with
    | blank bs => exact ih _
    | token u us =>
      rw [ofPieces]
      split_ifs
      · exact ih _
      · obtain ⟨ws, before, hws⟩ := ih []
        exact ⟨⟨u, us, gap⟩ :: ws, before, by rw [hws]; rfl⟩

theorem Unclosed.isOpen_eq (hu : Unclosed escapes last) (before : List Piece) :
    (⟨.illegal, last ++ cs, before⟩ : Word).isOpen = true := by
  obtain ⟨c, ds, rfl, -, ho, -⟩ := hu
  exact ho

end Word

namespace Reading

variable {limits : Limits} {ws : List Word} {w : Word}

/-- The literal is the end of the last child of the root, which is raw SQL. -/
theorem exists_root_of_isOpen {text : String} {r : Reading} (hr : ofText limits text = .ok r)
    (hws : Word.ofText limits.dialect.backslashEscapes text = ws ++ [w]) (hw : w.isOpen = true) :
    ∃ k ns vs, r.root = ⟨(), k, ns ++ [.raw () (source (vs ++ [w]))]⟩ ∧
      InText limits.dialect.backslashEscapes (vs ++ [w]) ∧
        ∀ n ∈ ns, n.RawsKept limits.dialect.backslashEscapes := by
  have hin : InText limits.dialect.backslashEscapes (ws ++ [w]) := hws ▸ inText_ofText _ text
  rw [ofText, hws] at hr
  cases hraw : r.node.isRaw with
  | true => exact ⟨.and, [], ws, (root_of_isRaw hr hraw).2, hin, fun n hn =>
      absurd hn List.not_mem_nil⟩
  | false =>
    obtain ⟨hnil, -⟩ | ⟨hb, l, warnings, htop, hroot⟩ := understood_cases hr hraw
    · exact absurd hnil (List.append_ne_nil_of_right_ne_nil ws (List.cons_ne_nil w []))
    · rw [top, unwrap?_of_isOpen hw, Option.getD_none] at htop
      obtain ⟨ns, vs, hchildren, hvs, hns⟩ := children_of_isOpen hin hw hb htop
      exact ⟨l.logic, ns, vs, hchildren ▸ hroot, hvs, hns⟩

/-- **The SQL** of a text that ends with an open literal ends with the literal and parentheses. -/
theorem exists_trails {text : String} {r : Reading} (hr : ofText limits text = .ok r)
    (hws : Word.ofText limits.dialect.backslashEscapes text = ws ++ [w]) (hw : w.isOpen = true) :
    Unclosed limits.dialect.backslashEscapes (trimEnd w.chars) ∧
      ∃ d, Trails limits.dialect.backslashEscapes (trimEnd w.chars) (d + 1)
        (limits.printer.tree r.root).toList := by
  obtain ⟨k, ns, vs, hroot, hvs, hns⟩ := exists_root_of_isOpen hr hws hw
  obtain ⟨hu, htrails⟩ := trails_source hvs hw
  rw [hroot]
  exact ⟨hu, (carried_trails _ _).exists_tree limits.printer k (Node.exists_written rfl hns)
    (hvs.trim_source_ne (List.append_ne_nil_of_right_ne_nil vs (List.cons_ne_nil w []))) htrails⟩

/-- With every reading there is one parenthesis more in the literal. -/
theorem not_eq_of_trails {last : List Char} {d : Nat} {sql : String}
    (hu : Unclosed limits.dialect.backslashEscapes last)
    (ht : Trails limits.dialect.backslashEscapes last (d + 1) sql.toList) {r : Reading}
    (hr : ofText limits sql = .ok r) : limits.printer.tree r.root ≠ sql := by
  intro hsame
  obtain ⟨ps, hps⟩ := ht.exists_ofText_eq hu
  obtain ⟨ws, before, hws⟩ := @exists_ofPieces_concat (last ++ List.replicate (d + 1) ')')
    .illegal (by decide) [] ps
  rw [← hps] at hws
  obtain ⟨hu', e, ht'⟩ := exists_trails hr hws (hu.isOpen_eq before)
  have hends : EndsSolid (last ++ List.replicate (d + 1) ')') := by
    rw [List.replicate_succ', ← List.append_assoc]
    exact (endsSolid_singleton (by decide)).append
  rw [hends.trimEnd_eq] at hu' ht'
  rw [hsame] at ht'
  obtain ⟨qs, hqs⟩ := ht'.exists_ofText_eq hu'
  obtain ⟨-, hlast⟩ := List.append_inj' (hps.symm.trans hqs) rfl
  have hlen := congrArg List.length (Piece.token.inj (List.singleton_inj.1 hlast)).2
  simp only [List.length_append, List.length_replicate] at hlen
  omega

end Reading

end SqlFilter
