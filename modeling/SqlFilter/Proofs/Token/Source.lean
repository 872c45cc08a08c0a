import SqlFilter.Proofs.Token.Layout

/-!
# The text of consecutive words

The text that is kept of consecutive words is written with the same tokens
(`Word.exists_written`), unless the last one is a literal that is never closed. Such a literal stays
open when parentheses are closed behind it (`Word.dangling_source`).
-/

namespace SqlFilter

open Text Piece

/-! ## Literals that are never closed -/

namespace Token

variable {escapes : Bool} {c close : Char} {t : Token} {n : Nat} {cs more : List Char}

/-- The four opening marks start a token in quotes, whatever follows. -/
theorem exists_scanQuoted (escapes : Bool)
    (hc : (c == '\'' || c == '"' || c == Dialect.backtick || c == '[') = true) :
    ∃ token e close, isDelimiter close = false ∧ (∀ s, token s ≠ illegal) ∧
      ∀ cs, scan escapes c cs = scanQuoted token e close cs := by
  simp only [Bool.or_eq_true, beq_iff_eq] at hc
  rcases hc with ((rfl | rfl) | rfl) | rfl
  · exact ⟨string, escapes, '\'', by decide, nofun, fun _ => rfl⟩
  · exact ⟨quotedName, false, '"', by decide, nofun, fun _ => rfl⟩
  · exact ⟨quotedName, false, Dialect.backtick, by decide, nofun, fun _ => rfl⟩
  · exact ⟨quotedName, false, ']', by decide, nofun, fun _ => rfl⟩

/-- An open literal has no end in the text behind it, and reaches as far as that does. -/
theorem exists_of_isOpen (ho : isOpen t c = true) (h : scan escapes c cs = (t, n)) :
    n = cs.length ∧ ∃ e close, isDelimiter close = false ∧ content e close cs = none ∧
      ∀ ds, content e close ds = none → scan escapes c ds = (illegal, ds.length) := by
  obtain ⟨ht, hc⟩ := Bool.and_eq_true_iff.1 ho
  obtain ⟨token, e, close, hclose, htoken, hscan⟩ := exists_scanQuoted escapes hc
  rw [hscan, scanQuoted] at h
  split at h
  · obtain ⟨rfl, -⟩ := Prod.mk.inj h
    exact absurd (beq_iff_eq.1 ht) (htoken _)
  · next hnone =>
    obtain ⟨-, rfl⟩ := Prod.mk.inj h
    refine ⟨rfl, e, close, hclose, hnone, fun ds hds => ?_⟩
    rw [hscan, scanQuoted, hds]

/-- Nothing is behind an open literal. -/
theorem eq_nil_of_isOpen {ds : List Char} (ho : isOpen t c = true)
    (h : scan escapes c (ds ++ more) = (t, ds.length)) : more = [] := by
  obtain ⟨hlen, -⟩ := exists_of_isOpen ho h
  rw [List.length_append] at hlen
  exact List.length_eq_zero_iff.1 (by omega)

/-- A token is scanned the same where the text ends with it. -/
theorem scan_of_append {ds : List Char} (ht : t ≠ comment)
    (h : scan escapes c (ds ++ more) = (t, ds.length)) : scan escapes c ds = (t, ds.length) := by
  cases ho : isOpen t c with
  | false =>
    have hcut : Curtailed more [] := .stop delimited_nil
    have := scan_of_curtailed hcut ht ho h
    rwa [List.append_nil] at this
  | true =>
    obtain rfl := eq_nil_of_isOpen ho h
    rwa [List.append_nil] at h

theorem content_of_notMem (h : close ∉ cs) (e : Bool) : content e close cs = none := by
  fun_induction content e close cs with
  | case1 => rfl
  | case2 c hc => rfl
  | case3 c hc =>
    have : c ≠ close := fun hcc => h (by rw [hcc]; exact List.mem_singleton_self _)
    exact absurd (by simp [this]) hc
  | case4 c d cs he ih =>
    rw [ih fun hm => h (List.mem_cons_of_mem _ (List.mem_cons_of_mem _ hm))]
    rfl
  | case5 c d cs he hc hd ih =>
    exact absurd (by rw [beq_iff_eq.1 hc]; exact List.mem_cons_self) h
  | case6 c d cs he hc hd => exact absurd (by rw [beq_iff_eq.1 hc]; exact List.mem_cons_self) h
  | case7 c d cs he hc ih =>
    rw [ih fun hm => h (List.mem_cons_of_mem _ hm)]
    rfl

/-- Text without the closing mark does not end the content. -/
theorem content_append_of_notMem {e : Bool} (hnone : content e close cs = none)
    (h : close ∉ more) : content e close (cs ++ more) = none := by
  fun_induction content e close cs with
  | case1 => exact content_of_notMem h e
  | case2 c hc =>
    cases more with
    | nil => exact if_pos hc
    | cons d more =>
      have hmore := content_of_notMem h e
      have hmore' := content_of_notMem (fun hm => h (List.mem_cons_of_mem d hm)) e
      rw [List.singleton_append, content]
      split_ifs with he hcc
      · rw [hmore']
        rfl
      · exact absurd hc (by simp_all)
      · exact absurd hc (by simp_all)
      · rw [hmore]
        rfl
  | case3 c hc => cases hnone
  | case4 c d cs he ih =>
    rw [List.cons_append, List.cons_append, content, if_pos he,
      ih (Option.map_eq_none_iff.1 hnone)]
    rfl
  | case5 c d cs he hc hd ih =>
    rw [List.cons_append, List.cons_append, content, if_neg he, if_pos hc, if_pos hd,
      ih (Option.map_eq_none_iff.1 hnone)]
    rfl
  | case6 c d cs he hc hd => cases hnone
  | case7 c d cs he hc ih =>
    rw [List.cons_append, List.cons_append, content, if_neg he, if_neg hc, ← List.cons_append,
      ih (Option.map_eq_none_iff.1 hnone)]
    rfl

/-- Content that is closed stays so in front of a delimiter. -/
theorem content_of_append {e : Bool} (hclose : isDelimiter close = false) (hmore : Delimited more)
    (hnone : content e close (cs ++ more) = none) : content e close cs = none := by
  refine Option.eq_none_iff_forall_ne_some.2 fun ⟨s, n⟩ hs => ?_
  have hcut := (Curtailed.stop hmore : Curtailed [] more).append (cs.drop n)
  have htake : (cs.take n).length = n := List.length_take_of_le (content_le hs)
  rw [List.append_nil] at hcut
  have := @content_of_curtailed _ _ hcut e close hclose (cs.take n) s
  rw [List.take_append_drop, htake, ← List.append_assoc, List.take_append_drop, hnone] at this
  cases this hs

end Token

/-! ## Words of a text -/

namespace Word

/-- The word is a literal that is never closed. -/
def isOpen (w : Word) : Bool := w.chars.head?.any (Token.isOpen w.token)

/-- The pieces of the words, with the layout before each of them. -/
def spread (ws : List Word) : List Piece := ws.flatMap fun w => w.before ++ [.token w.token w.chars]

/-- The words stand one after the other in a text. -/
def InText (escapes : Bool) (ws : List Word) : Prop :=
  (∃ after, Lexed escapes after (spread ws)) ∧ ∀ w ∈ ws, w.token ≠ .comment ∧ IsLayout w.before

variable {escapes : Bool} {after : List Char} {ws vs : List Word} {w : Word}

theorem spread_append (ws vs : List Word) : spread (ws ++ vs) = spread ws ++ spread vs :=
  List.flatMap_append

theorem pieces_cons (w : Word) (ws : List Word) :
    pieces (w :: ws) = .token w.token w.chars :: spread ws := rfl

theorem spread_cons (w : Word) (ws : List Word) :
    spread (w :: ws) = w.before ++ pieces (w :: ws) := by
  rw [spread, List.flatMap_cons, List.append_assoc]
  rfl

theorem InText.left (h : InText escapes (ws ++ vs)) : InText escapes ws := by
  obtain ⟨⟨after, hl⟩, hws⟩ := h
  rw [spread_append] at hl
  exact ⟨⟨_, hl.left⟩, (List.forall_mem_append.1 hws).1⟩

theorem InText.right (h : InText escapes (ws ++ vs)) : InText escapes vs := by
  obtain ⟨⟨after, hl⟩, hws⟩ := h
  rw [spread_append] at hl
  exact ⟨⟨_, hl.right⟩, (List.forall_mem_append.1 hws).2⟩

theorem exists_spread_ofPieces {gap ps : List Piece} (hl : Lexed escapes after (gap ++ ps))
    (hgap : IsLayout gap) :
    (∃ rest, IsLayout rest ∧ gap ++ ps = spread (ofPieces gap ps) ++ rest) ∧
      ∀ w ∈ ofPieces gap ps, w.token ≠ .comment ∧ IsLayout w.before := by
  induction ps generalizing gap with
  | nil => exact ⟨⟨gap, hgap, List.append_nil gap⟩, fun w hw => absurd hw List.not_mem_nil⟩
  | cons p ps ih =>
    have more := fun hp : IsLayout [p] =>
      @ih (gap ++ [p]) (by rwa [← List.append_cons]) (List.forall_mem_append.2 ⟨hgap, hp⟩)
    rw [← List.append_cons] at more
    cases p with
    | blank cs =>
      exact more (List.forall_mem_singleton.2 (.inl ⟨cs, rfl, hl.right.1⟩))
    | token t cs =>
      rw [ofPieces]
      split_ifs with ht
      · rw [ht] at more ⊢
        exact more (List.forall_mem_singleton.2 (.inr ⟨cs, rfl⟩))
      · obtain ⟨⟨rest, hlay, hrest⟩, hws⟩ :=
          @ih [] hl.right.2 fun p hp => absurd hp List.not_mem_nil
        refine ⟨⟨rest, hlay, ?_⟩, List.forall_mem_cons.2 ⟨⟨ht, hgap⟩, hws⟩⟩
        rw [spread, List.flatMap_cons, List.append_assoc, List.append_assoc, ← spread, ← hrest]
        rfl

/-- A text consists of its words and the layout behind the last one. -/
theorem exists_spread_ofText (escapes : Bool) (text : String) :
    (∃ rest, IsLayout rest ∧
      Piece.ofText escapes text.toList = spread (ofText escapes text) ++ rest) ∧
        ∀ w ∈ ofText escapes text, w.token ≠ .comment ∧ IsLayout w.before :=
  @exists_spread_ofPieces escapes [] [] _ (@lexed_ofText escapes text.toList) fun _ hp =>
    absurd hp List.not_mem_nil

theorem inText_ofText (escapes : Bool) (text : String) : InText escapes (ofText escapes text) := by
  obtain ⟨⟨rest, -, hrest⟩, hws⟩ := exists_spread_ofText escapes text
  have hl := @lexed_ofText escapes text.toList
  rw [hrest] at hl
  exact ⟨⟨_, hl.left⟩, hws⟩

/-! ## Kept text is cut again -/

/-- Text that a token goes on behind `pre`, in place of what the token is in its text, is cut into
the pieces `ps` up to there. -/
structure Recut (escapes : Bool) (old here pre : List Char) (ps : List Piece) : Prop where
  curtailed : ∀ {new}, Curtailed here new → Curtailed old (pre ++ new)
  solid : ∀ {new}, Solid new → Solid (pre ++ new)
  ofText_eq : ∀ {new}, Curtailed here new → Solid new →
    Piece.ofText escapes (pre ++ new) = ps ++ Piece.ofText escapes new

theorem Recut.refl (escapes : Bool) (here : List Char) : Recut escapes here here [] [] :=
  ⟨id, id, fun _ _ => rfl⟩

/-- The blanks as a piece, if there are any. -/
def blanks (bs : List Char) : List Piece := if bs = [] then [] else [.blank bs]

theorem ofText_blanks {bs rest : List Char} (hb : ∀ c ∈ bs, isBlank c = true) (hr : Solid rest) :
    Piece.ofText escapes (bs ++ rest) = blanks bs ++ Piece.ofText escapes rest := by
  unfold blanks
  split_ifs with hbs
  · rw [hbs]
    rfl
  · exact ofText_append_of_blank hbs hb hr.head

/-- A token and the blanks behind it come before what is cut again. -/
theorem Recut.cons {c : Char} {cs bs old here pre : List Char} {t : Token} {ps : List Piece}
    (h : Recut escapes old here pre ps) {gap : List Char} (hc : isBlank c = false)
    (ht : t ≠ .comment) (ho : Token.isOpen t c = false)
    (hs : Token.scan escapes c (cs ++ (gap ++ old)) = (t, cs.length))
    (hb : ∀ c ∈ bs, isBlank c = true) (hbs : bs = gap ∨ ∃ ds, bs = ' ' :: ds) :
    Recut escapes (c :: cs ++ (gap ++ old)) here (c :: cs ++ (bs ++ pre))
      (.token t (c :: cs) :: (blanks bs ++ ps)) := by
  have hcut : ∀ {new}, Curtailed here new → Curtailed (gap ++ old) (bs ++ (pre ++ new)) := by
    intro new hnew
    rcases hbs with rfl | ⟨ds, rfl⟩
    · exact (h.curtailed hnew).append bs
    · exact .stop (delimited_cons.2 (by decide))
  refine ⟨fun {new} hnew => ?_, fun {new} _ => ⟨c, _, rfl, hc⟩, fun {new} hnew hsolid => ?_⟩
  · rw [List.append_assoc, List.append_assoc]
    exact (hcut hnew).append _
  · rw [List.append_assoc, List.append_assoc, List.cons_append,
      ofText_cons_of_scan hc (Token.scan_of_curtailed (hcut hnew) ht ho hs),
      ofText_blanks hb (h.solid hsolid), h.ofText_eq hnew hsolid, List.cons_append,
      List.append_assoc]

/-- A token behind which the text goes on is closed and ends with a character that is not blank. -/
theorem closed_of_lexed {t : Token} {cs : List Char} {ps : List Piece}
    (hl : Lexed escapes after (.token t cs :: ps)) (ht : t ≠ .comment)
    (hne : ps.flatMap Piece.chars ++ after ≠ []) : EndsSolid cs ∧ ∃ c ds, cs = c :: ds ∧
      isBlank c = false ∧ Token.isOpen t c = false ∧
        Token.scan escapes c (ds ++ (ps.flatMap Piece.chars ++ after)) = (t, ds.length) := by
  obtain ⟨⟨c, ds, rfl, hc, hs⟩, -⟩ := hl
  have ho : Token.isOpen t c = false :=
    Bool.eq_false_iff.2 fun ho => hne (Token.eq_nil_of_isOpen ho hs)
  have hends := Token.endsSolid_of_scan hc ht ho hs
  rw [List.take_left] at hends
  exact ⟨hends, c, ds, rfl, hc, ho, hs⟩

theorem Lexed.chars_ne_nil {t : Token} {cs : List Char} {ps : List Piece}
    (hl : Lexed escapes after ps) (hmem : .token t cs ∈ ps) : ps.flatMap Piece.chars ≠ [] := by
  intro hnil
  obtain rfl : cs = [] := List.flatMap_eq_nil_iff.1 hnil _ hmem
  obtain ⟨us, vs, rfl⟩ := List.append_of_mem hmem
  obtain ⟨⟨c, ds, hcs, -⟩, -⟩ := hl.right
  cases hcs

theorem pieces_cons_cons (v y : Word) (ys : List Word) :
    pieces (v :: y :: ys) = .token v.token v.chars :: (y.before ++ pieces (y :: ys)) := by
  rw [pieces_cons, spread_cons]

theorem token_mem_spread {w : Word} (hw : w ∈ ws) : .token w.token w.chars ∈ spread ws :=
  List.mem_flatMap.2 ⟨w, hw, List.mem_append_right _ List.mem_cons_self⟩

/-- What is kept of the layout in front of a word. -/
theorem exists_kept_append {y : Word} {ys : List Word} (hy : y.token ≠ .comment)
    (hlay : IsLayout y.before) (hl : Lexed escapes after (pieces (y :: ys))) :
    ∃ bs, (∀ c ∈ bs, isBlank c = true) ∧
      (bs = y.before.flatMap Piece.chars ∨ ∃ ds, bs = ' ' :: ds) ∧
      kept (y.before ++ pieces (y :: ys)) = bs ++ kept (pieces (y :: ys)) := by
  have hends : spread ys ≠ [] → EndsSolid y.chars := by
    intro hne
    cases ys with
    | nil => exact absurd rfl hne
    | cons z zs =>
      have hchars := Lexed.chars_ne_nil hl.2 (token_mem_spread List.mem_cons_self)
      exact (closed_of_lexed hl hy (List.append_ne_nil_of_left_ne_nil hchars _)).1
  have hsolid : Solid y.chars := by
    obtain ⟨⟨c, ds, hcs, hc, -⟩, -⟩ := hl
    exact ⟨c, ds, hcs, hc⟩
  exact exists_kept hy hends hsolid hlay

/-- The kept text of words is cut into plain words of the same tokens, up to the last one. -/
theorem exists_recut {w : Word} (hl : Lexed escapes after (pieces (ws ++ [w])))
    (hws : ∀ v ∈ ws ++ [w], v.token ≠ .comment ∧ IsLayout v.before) : ∃ pre ps zs,
      kept (pieces (ws ++ [w])) = pre ++ w.chars ∧ zs ≠ [] ∧ behind [] zs = zs ∧ Plain zs ∧
        zs.map token = (ws ++ [w]).map token ∧ pieces zs = ps ++ [.token w.token w.chars] ∧
          Recut escapes ((pieces (ws ++ [w])).flatMap Piece.chars ++ after) (w.chars ++ after)
            pre ps := by
  induction ws with
  | nil =>
    obtain ⟨hw, -⟩ := hws w (List.mem_singleton_self w)
    refine ⟨[], [], [⟨w.token, w.chars, []⟩], ?_, List.cons_ne_nil _ _, rfl, plain_singleton hw _,
      rfl, rfl, ?_⟩
    · exact (kept_token hw fun h => absurd rfl h).trans (List.append_nil _)
    · rw [List.nil_append, pieces_cons, spread, List.flatMap_nil, List.flatMap_cons,
        List.flatMap_nil, List.append_nil]
      exact .refl escapes _
  | cons v ws ih =>
    obtain ⟨y, ys, hy⟩ := List.exists_cons_of_ne_nil (List.append_ne_nil_of_right_ne_nil ws
      (List.cons_ne_nil w []))
    rw [List.cons_append, hy] at hws
    rw [List.cons_append, hy, pieces_cons_cons] at hl ⊢
    rw [hy] at ih
    obtain ⟨⟨hv, -⟩, hws⟩ := List.forall_mem_cons.1 hws
    obtain ⟨pre, ps, zs, hkept, hne, -, hplain, htokens, hpieces, hrecut⟩ := ih hl.2.right hws
    obtain ⟨hytoken, hlay⟩ := hws y List.mem_cons_self
    have hmem : Piece.token y.token y.chars ∈ pieces (y :: ys) := List.mem_cons_self
    have hchars := Lexed.chars_ne_nil hl.2 (List.mem_append_right y.before hmem)
    -- another word follows, so this one is closed
    obtain ⟨hends, c, cs, hcs, hc, ho, hs⟩ :=
      closed_of_lexed hl hv (List.append_ne_nil_of_left_ne_nil hchars _)
    obtain ⟨bs, hbs, hsame, hgap⟩ := exists_kept_append hytoken hlay hl.2.right
    rw [List.flatMap_append, List.append_assoc] at hs
    refine ⟨v.chars ++ (bs ++ pre), .token v.token v.chars :: (blanks bs ++ ps),
      ⟨v.token, v.chars, []⟩ :: behind (blanks bs) zs, ?_, List.cons_ne_nil _ _, rfl, ?_, ?_, ?_, ?_⟩
    · rw [kept_token hv fun _ => hends, hgap, hkept]
      simp only [List.append_assoc]
    · refine (plain_singleton hv v.chars).append (hplain.behind fun p hp => ?_)
      unfold blanks at hp
      split_ifs at hp
      · exact absurd hp List.not_mem_nil
      · exact ⟨bs, List.mem_singleton.1 hp⟩
    · rw [List.map_cons, map_token_behind, htokens]
      rfl
    · have := @pieces_append [⟨v.token, v.chars, []⟩] zs (List.cons_ne_nil _ _) hne (blanks bs)
      rw [hpieces] at this
      exact this.trans (by simp [pieces])
    · rw [List.flatMap_cons, List.flatMap_append, List.append_assoc, List.append_assoc]
      have := hrecut.cons hc hv ho hs hbs hsame
      rw [← hcs] at this
      exact this

theorem exists_pieces_append (ws : List Word) (w : Word) :
    ∃ ps, pieces (ws ++ [w]) = ps ++ [.token w.token w.chars] := by
  cases ws with
  | nil => exact ⟨[], rfl⟩
  | cons v ws =>
    refine ⟨.token v.token v.chars :: (spread ws ++ w.before), ?_⟩
    rw [List.cons_append, pieces_cons, spread_append, spread_cons, ← List.append_assoc]
    rfl

theorem InText.exists_lexed (h : InText escapes (ws ++ [w])) :
    ∃ after, Lexed escapes after (pieces (ws ++ [w])) ∧ ∃ c ds, w.chars = c :: ds ∧
      isBlank c = false ∧ Token.scan escapes c (ds ++ after) = (w.token, ds.length) := by
  obtain ⟨⟨after, hl⟩, -⟩ := h
  refine ⟨after, ?_, ?_⟩
  · cases ws with
    | nil =>
      rw [List.nil_append, spread_cons] at hl
      exact hl.right
    | cons v ws =>
      rw [List.cons_append, spread_cons] at hl
      exact hl.right
  · rw [spread_append, spread_cons] at hl
    exact hl.right.right.1

/-- Kept text on its own is cut into plain words of the same tokens, also if the last one is a
literal that is never closed. -/
theorem exists_ofText_source (h : InText escapes ws) (hne : ws ≠ []) : ∃ zs, Plain zs ∧
    zs.map token = ws.map token ∧ Piece.ofText escapes (source ws).toList = pieces zs := by
  obtain ⟨ws, w, rfl⟩ : ∃ vs w, ws = vs ++ [w] :=
    ⟨_, _, (List.dropLast_concat_getLast hne).symm⟩
  obtain ⟨after, hl, c, ds, hcs, hc, hs⟩ := h.exists_lexed
  obtain ⟨pre, ps, zs, hkept, -, -, hplain, htokens, hpieces, hrecut⟩ := exists_recut hl h.2
  have hw := (h.2 w (List.mem_append_right ws (List.mem_singleton_self w))).1
  have hcut : Curtailed (w.chars ++ after) w.chars := by
    have := (Curtailed.stop delimited_nil : Curtailed after []).append w.chars
    rwa [List.append_nil] at this
  have halone : Piece.ofText escapes w.chars = [.token w.token w.chars] := by
    have hs' := Token.scan_of_append hw hs
    rw [← List.append_nil ds] at hs'
    have := ofText_cons_of_scan hc (hs'.trans (by rw [List.append_nil]))
    rwa [List.append_nil, Piece.ofText, ← hcs] at this
  refine ⟨zs, hplain, htokens, ?_⟩
  rw [toList_source, hkept, hrecut.ofText_eq hcut ⟨c, ds, hcs, hc⟩, halone, hpieces]

theorem trim_ne_empty {s : String} (h : Solid s.toList) : Text.trim s ≠ "" := by
  intro hnil
  have htrim : trimEnd s.toList = [] := by
    rw [← h.trimStart_eq]
    exact String.ofList_injective hnil
  obtain ⟨c, cs, hcs, hc⟩ := h
  rw [hcs, ← List.singleton_append, trimEnd_append (endsSolid_singleton hc)] at htrim
  exact List.cons_ne_nil _ _ htrim

/-- Something is left of words when their kept text is trimmed. -/
theorem InText.trim_source_ne (h : InText escapes ws) (hne : ws ≠ []) :
    Text.trim (source ws) ≠ "" := by
  obtain ⟨zs, -, htokens, htext⟩ := exists_ofText_source h hne
  cases zs with
  | nil => exact absurd (List.map_eq_nil_iff.1 htokens.symm) hne
  | cons z zs => exact trim_ne_empty (solid_of_ofText htext)

/-- **Kept text** is written with the tokens it was kept for. -/
theorem exists_written (h : InText escapes ws) (hne : ws ≠ []) (ho : ∀ w ∈ ws, w.isOpen = false) :
    ∃ zs, Written escapes (source ws).toList zs ∧ zs.map token = ws.map token := by
  obtain ⟨ws, w, rfl⟩ : ∃ vs w, ws = vs ++ [w] :=
    ⟨_, _, (List.dropLast_concat_getLast hne).symm⟩
  obtain ⟨after, hl, c, ds, hcs, hc, hs⟩ := h.exists_lexed
  obtain ⟨pre, ps, zs, hkept, hzs, hfirst, hplain, htokens, hpieces, hrecut⟩ :=
    exists_recut hl h.2
  have hw := List.mem_append_right ws (List.mem_singleton_self w)
  have hopen := ho w hw
  rw [isOpen, hcs] at hopen
  refine ⟨zs, ⟨hzs, hfirst, hplain, fun rest hr => ?_⟩, htokens⟩
  have hcut : Curtailed after rest := .stop hr
  rw [toList_source, hkept, List.append_assoc, hrecut.ofText_eq (hcut.append w.chars)
    (Solid.append ⟨c, ds, hcs, hc⟩ rest), hpieces, hcs, List.cons_append,
    ofText_cons_of_scan hc (Token.scan_of_curtailed hcut (h.2 w hw).1 hopen hs),
    List.append_cons]

end Word

/-! ## The text of written words -/

namespace Piece

open Word

variable {escapes : Bool} {ws : List Word}

theorem betweenComments_of_forall {ps : List Piece} (h : ∀ p ∈ ps, p.isComment = false) :
    betweenComments ps = [ps.flatMap chars] := by
  induction ps with
  | nil => rfl
  | cons p ps ih =>
    obtain ⟨hp, hps⟩ := List.forall_mem_cons.1 h
    rw [betweenComments_cons hp (ih hps), List.flatMap_cons]

theorem isComment_of_plain (h : Plain ws) : ∀ p ∈ pieces ws, p.isComment = false := by
  cases ws with
  | nil => exact fun p hp => absurd hp List.not_mem_nil
  | cons w ws =>
    obtain ⟨hw, hws⟩ := List.forall_mem_cons.1 h
    refine List.forall_mem_cons.2 ⟨isComment_token hw.1 _, fun p hp => ?_⟩
    obtain ⟨v, hv, hp⟩ := List.mem_flatMap.1 hp
    rcases List.mem_append.1 hp with hp | hp
    · obtain ⟨cs, rfl⟩ := (hws v hv).2 p hp
      rfl
    · rw [List.mem_singleton.1 hp]
      exact isComment_token (hws v hv).1 _

/-- Of written words all the text is kept. -/
theorem Written.source_eq {s : String} (h : Written escapes s.toList ws) : source ws = s := by
  refine String.toList_inj.1 ?_
  rw [toList_source, kept, betweenComments_of_forall (isComment_of_plain h.plain)]
  exact h.chars_eq

/-- No literal among written words is left open. -/
theorem Written.isOpen_eq {cs : List Char} (h : Written escapes cs ws) :
    ∀ w ∈ ws, w.isOpen = false := by
  intro w hw
  have hl := @lexed_ofText escapes (cs ++ [' '])
  have hmem : .token w.token w.chars ∈ pieces ws := by
    cases ws with
    | nil => exact absurd hw List.not_mem_nil
    | cons v vs =>
      rcases List.mem_cons.1 hw with rfl | hw
      · exact List.mem_cons_self
      · exact List.mem_cons_of_mem _ (token_mem_spread hw)
  obtain ⟨ps, qs, hps⟩ := List.append_of_mem hmem
  rw [h.closed _ (delimited_cons.2 (by decide)), hps, List.append_assoc] at hl
  have hblank : Piece.blank [' '] ∈ qs ++ Piece.ofText escapes [' '] := by
    rw [@ofText_space escapes [] fun c hc => nomatch hc]
    exact List.mem_append_right qs List.mem_cons_self
  have hne : (qs ++ Piece.ofText escapes [' ']).flatMap chars ++ [] ≠ [] := by
    rw [List.append_nil]
    exact fun hnil => nomatch List.flatMap_eq_nil_iff.1 hnil _ hblank
  obtain ⟨-, c, ds, hcs, -, ho, -⟩ := closed_of_lexed hl.right (h.plain w hw).1 hne
  rw [Word.isOpen, hcs]
  exact ho

theorem Written.endsSolid {cs : List Char} (h : Written escapes cs ws) : EndsSolid cs := by
  obtain ⟨vs, w, rfl⟩ : ∃ vs w, ws = vs ++ [w] :=
    ⟨_, _, (List.dropLast_concat_getLast h.ne_nil).symm⟩
  obtain ⟨ps, hps⟩ := exists_pieces_append vs w
  have hl := @lexed_ofText escapes (cs ++ [' '])
  rw [h.closed _ (delimited_cons.2 (by decide)), hps, List.append_assoc] at hl
  rw [@ofText_space escapes [] fun c hc => nomatch hc] at hl
  have hends := (closed_of_lexed hl.right
    (h.plain w (List.mem_append_right _ (List.mem_singleton_self w))).1 (List.cons_ne_nil _ _)).1
  rw [← h.chars_eq, hps, List.flatMap_append, List.flatMap_singleton]
  exact hends.append

theorem Written.trim_eq {s : String} (h : Written escapes s.toList ws) : Text.trim s = s := by
  rw [Text.trim, h.solid.trimStart_eq, h.endsSolid.trimEnd_eq, String.ofList_toList]

end Piece

/-! ## Text without comments -/

namespace Word

variable {escapes : Bool}

/-- Layout without comments is blank. -/
theorem blank_of_isLayout {ps : List Piece} (h : IsLayout ps) (hps : ∀ p ∈ ps, p.isComment = false) :
    ∀ c ∈ ps.flatMap Piece.chars, isBlank c = true := by
  intro c hc
  obtain ⟨p, hp, hc⟩ := List.mem_flatMap.1 hc
  obtain ⟨cs, rfl, hcs⟩ | ⟨cs, rfl⟩ := h p hp
  · exact hcs c hc
  · cases hps _ hp

/-- A text without comments is kept, less the blanks at its ends. -/
theorem source_ofText {s : String}
    (huncommented : ∀ p ∈ Piece.ofText escapes s.toList, p.isComment = false)
    (hclosed : ∀ w ∈ ofText escapes s, w.isOpen = false) :
    source (ofText escapes s) = Text.trim s := by
  obtain ⟨⟨rest, hrest, hpieces⟩, hws⟩ := exists_spread_ofText escapes s
  have htext := Piece.chars_ofText escapes s.toList
  have hwritten := @exists_written escapes (ofText escapes s) (inText_ofText escapes s)
  rw [hpieces] at htext huncommented
  generalize ofText escapes s = ws at *
  obtain ⟨hspread, hafter⟩ := List.forall_mem_append.1 huncommented
  have hbehind := blank_of_isLayout hrest hafter
  refine String.toList_inj.1 (Eq.symm ?_)
  rw [Text.trim, String.toList_ofList, ← htext, List.flatMap_append]
  cases ws with
  | nil =>
    rw [spread, List.flatMap_nil, List.flatMap_nil, List.nil_append,
      ← List.append_nil (List.flatMap _ rest), trimStart_of_blank hbehind]
    rfl
  | cons w ws =>
    obtain ⟨zs, hzs, -⟩ := hwritten (List.cons_ne_nil w ws) hclosed
    rw [spread_cons] at hspread ⊢
    obtain ⟨hbefore, hkept⟩ := List.forall_mem_append.1 hspread
    have hsource : (pieces (w :: ws)).flatMap Piece.chars = (source (w :: ws)).toList := by
      rw [toList_source, kept, betweenComments_of_forall hkept]
      rfl
    have hblank := blank_of_isLayout (hws w List.mem_cons_self).2 hbefore
    rw [List.flatMap_append, List.append_assoc, trimStart_of_blank hblank, hsource,
      (hzs.solid.append _).trimStart_eq, trimEnd_append hzs.endsSolid, trimEnd_of_blank hbehind,
      List.append_nil]

end Word

/-! ## Text that ends with an open literal -/

namespace Word

variable {escapes : Bool} {ws : List Word} {w : Word}

theorem delimited_replicate (n : Nat) : Delimited (List.replicate n ')') := by
  intro c hc
  rw [List.eq_of_mem_replicate (List.mem_of_mem_head? hc)]
  decide

/-- A literal that is never closed, however many parentheses are. -/
def Unclosed (escapes : Bool) (cs : List Char) : Prop :=
  ∃ c ds, cs = c :: ds ∧ isBlank c = false ∧ Token.isOpen .illegal c = true ∧
    ∀ n, Token.scan escapes c (ds ++ List.replicate n ')') = (.illegal, ds.length + n)

theorem Unclosed.ofText_eq {cs : List Char} (h : Unclosed escapes cs) (n : Nat) :
    Piece.ofText escapes (cs ++ List.replicate n ')') =
      [.token .illegal (cs ++ List.replicate n ')')] := by
  obtain ⟨c, ds, rfl, hc, -, hs⟩ := h
  have hlen : Token.scan escapes c ((ds ++ List.replicate n ')') ++ []) =
      (.illegal, (ds ++ List.replicate n ')').length) := by
    rw [List.append_nil, hs n, List.length_append, List.length_replicate]
  have := ofText_cons_of_scan hc hlen
  rwa [List.append_nil, Piece.ofText] at this

/-- The text is cut into pieces up to the literal, which it ends with less `depth` parentheses. -/
def Trails (escapes : Bool) (last : List Char) (depth : Nat) (cs : List Char) : Prop :=
  ∃ ps, ∀ n, Piece.ofText escapes (cs ++ List.replicate n ')') =
    ps ++ Piece.ofText escapes (last ++ List.replicate (depth + n) ')')

/-- What is kept in front of an open literal is cut into the same pieces, whatever number of
parentheses the literal takes in. -/
theorem exists_ofText_trim (h : InText escapes (ws ++ [w])) (ho : w.isOpen = true) :
    Unclosed escapes (trimEnd w.chars) ∧ ∃ ps, (∀ p ∈ ps, p.isComment = false) ∧
      ∀ n, Piece.ofText escapes
        ((Text.trim (source (ws ++ [w]))).toList ++ List.replicate n ')') =
          ps ++ Piece.ofText escapes (trimEnd w.chars ++ List.replicate n ')') := by
  obtain ⟨after, hl, c, ds, hcs, hc, hs⟩ := h.exists_lexed
  obtain ⟨pre, ps, zs, hkept, -, -, hplain, -, hpieces, hrecut⟩ := exists_recut hl h.2
  have hps : ∀ p ∈ ps, p.isComment = false := fun p hp =>
    isComment_of_plain hplain p (hpieces ▸ List.mem_append_left _ hp)
  -- the blanks at the end of the literal are lost, and the mark that is missing stays missing
  obtain ⟨bs, hbs, hblank⟩ := exists_append_trimEnd ds
  have htrim : trimEnd w.chars = c :: trimEnd ds := by
    rw [hcs, ← List.singleton_append, trimEnd_append (endsSolid_singleton hc)]
    rfl
  rw [isOpen, hcs] at ho
  obtain ⟨-, e, close, hclose, hnone, hscan⟩ := Token.exists_of_isOpen ho hs
  obtain rfl := Token.eq_nil_of_isOpen ho hs
  have hbehind : Delimited bs := fun d hd => by
    rw [isDelimiter, hblank d (List.mem_of_mem_head? hd)]
    rfl
  have hshort : Token.content e close (trimEnd ds) = none :=
    Token.content_of_append hclose hbehind (by rwa [← hbs, ← List.append_nil ds])
  refine ⟨⟨c, trimEnd ds, htrim, hc, ?_, fun n => ?_⟩, ps, hps, fun n => ?_⟩
  · obtain ⟨-, hmark⟩ := Bool.and_eq_true_iff.1 ho
    exact Bool.and_eq_true_iff.2 ⟨rfl, hmark⟩
  · have hmore : close ∉ List.replicate n ')' := by
      intro hmem
      rw [List.eq_of_mem_replicate hmem] at hclose
      exact absurd hclose (by decide)
    rw [hscan _ (Token.content_append_of_notMem hshort hmore), List.length_append,
      List.length_replicate]
  · have htext : (Text.trim (source (ws ++ [w]))).toList = pre ++ trimEnd w.chars := by
      have hsolid : Solid (pre ++ w.chars) := hrecut.solid ⟨c, ds, hcs, hc⟩
      rw [Text.trim, String.toList_ofList, toList_source, hkept, hsolid.trimStart_eq, htrim, hcs,
        List.append_cons, trimEnd_append (endsSolid_singleton hc).append, ← List.append_cons]
    have hcut : Curtailed (w.chars ++ []) (trimEnd w.chars ++ List.replicate n ')') := by
      have hchars : w.chars = c :: trimEnd ds ++ bs := by rw [hcs, List.cons_append, ← hbs]
      rw [List.append_nil, htrim, hchars]
      exact (Curtailed.stop (delimited_replicate n)).append _
    rw [htext, List.append_assoc, hrecut.ofText_eq hcut]
    exact ⟨c, _, by rw [htrim]; rfl, hc⟩

/-- **Open literals** stay open in the text that is kept of them. -/
theorem trails_source (h : InText escapes (ws ++ [w])) (ho : w.isOpen = true) :
    Unclosed escapes (trimEnd w.chars) ∧
      Trails escapes (trimEnd w.chars) 0 (Text.trim (source (ws ++ [w]))).toList := by
  obtain ⟨hu, ps, -, hps⟩ := exists_ofText_trim h ho
  exact ⟨hu, ps, fun n => by rw [hps, Nat.zero_add]⟩

end Word

end SqlFilter
