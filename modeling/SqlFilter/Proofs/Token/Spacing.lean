import SqlFilter.Proofs.Token.Ended

/-!
# Layout between tokens

A token ends where it ends because of what follows. In front of a token of the text that is
something the token before does not go on with, and a blank in its place makes no difference
(`Piece.scan_of_solid`). So layout may be put in front of any token of a text, and the text keeps its
tokens (`Piece.IsSpacing.tokens_insert`).
-/

namespace SqlFilter

open Text

namespace Piece

/-- Layout that may be put in front of a token: blanks, or a comment with a blank on both sides,
the end of a line being one. -/
inductive IsSpacing : String → Prop
  | blanks {s : String} (hne : s ≠ "") (h : ∀ c ∈ s.toList, isBlank c = true) : IsSpacing s
  | block {s : String} (h : ¬ ['*', '/'] <:+: s.toList) : IsSpacing (" /*" ++ s ++ "*/ ")
  | line {s : String} (h : '\n' ∉ s.toList) : IsSpacing (" --" ++ s ++ "\n")

variable {escapes : Bool}

/-! ## Text in front of a token -/

section Before

variable {c : Char} {t : Token} {cs between behind rest : List Char} (hbehind : Solid behind)
  (hr : Delimited rest)

include hbehind hr

/-- A token with text behind it that starts with no blank is the same with a delimiter there. -/
theorem scan_of_solid (hs : Token.scan escapes c (cs ++ (between ++ behind)) = (t, cs.length)) :
    Token.scan escapes c (cs ++ (between ++ rest)) = (t, cs.length) := by
  obtain ⟨b, bs, rfl, hb⟩ := hbehind
  have hne : between ++ b :: bs ≠ [] :=
    List.append_ne_nil_of_right_ne_nil between (List.cons_ne_nil b bs)
  by_cases ht : t = .comment
  · subst ht
    obtain ⟨rfl, -⟩ | ⟨rfl, -⟩ := Token.eq_of_scan_comment hs
    · obtain ⟨hcs, hhead, hmore⟩ := line_of_scan hs
      obtain ⟨more, hline⟩ := hmore hne
      -- the end of the line is blank, so it is not where the text starts with no blank
      obtain ⟨ds, rfl⟩ : ∃ ds, between = '\n' :: ds := by
        cases between with
        | nil =>
          rw [(List.cons.inj hline).1] at hb
          exact absurd hb (by decide)
        | cons d ds => exact ⟨ds, by rw [(List.cons.inj hline).1]⟩
      exact scan_line hcs hhead (ds ++ rest)
    · exact scan_block (closesComment_of_scan hne hs) hs (between ++ rest)
  · have ho : Token.isOpen t c = false :=
      Bool.eq_false_iff.2 fun ho => hne (Token.eq_nil_of_isOpen ho hs)
    exact Token.scan_of_curtailed ((Curtailed.stop hr).append between) ht ho hs

/-- What is in front of a token is cut into the same tokens in front of a delimiter. -/
theorem Lexed.tokens_append {ps : List Piece} (h : Lexed escapes behind ps) :
    tokens (ofText escapes (ps.flatMap chars ++ rest)) =
      tokens ps ++ tokens (ofText escapes rest) := by
  induction ps with
  | nil => rfl
  | cons p ps ih =>
    rw [List.flatMap_cons, List.append_assoc]
    cases p with
    | blank cs =>
      obtain ⟨hblank, hps⟩ := h
      show tokens (ofText escapes (cs ++ (ps.flatMap chars ++ rest))) = _
      rw [tokens_ofText_blanks hblank, ih hps, tokens_blank]
    | token t cs =>
      obtain ⟨⟨c, ds, rfl, hc, hs⟩, hps⟩ := h
      show tokens (ofText escapes (c :: (ds ++ (ps.flatMap chars ++ rest)))) = _
      rw [ofText_cons_of_scan hc (scan_of_solid hbehind hr hs), tokens, tokens, ih hps]
      split_ifs <;> rfl

end Before

/-- The pieces behind some pieces of a text are those of the text behind them. -/
theorem eq_ofText_of_append {cs : List Char} {ps qs : List Piece}
    (h : ofText escapes cs = ps ++ qs) : qs = ofText escapes (qs.flatMap chars) := by
  induction ps generalizing cs with
  | nil =>
    rw [List.nil_append] at h
    rw [← h, chars_ofText]
  | cons p ps ih =>
    cases cs with
    | nil =>
      rw [ofText] at h
      cases h
    | cons c cs =>
      rw [ofText] at h
      split_ifs at h
      · exact ih (List.cons.inj h).2
      · exact ih (List.cons.inj h).2

/-! ## Places -/

theorem exists_of_mem_locate {ps : List Piece} {l : Located} {offset : Nat}
    (h : l ∈ locate offset ps) : ∃ before t cs behind, ps = before ++ token t cs :: behind ∧
      l.start = offset + byteCount (before.flatMap chars) := by
  induction ps generalizing offset with
  | nil => exact absurd h List.not_mem_nil
  | cons p ps ih =>
    have later : l ∈ locate (offset + byteCount p.chars) ps → ∃ before t cs behind,
        p :: ps = before ++ token t cs :: behind ∧
          l.start = offset + byteCount (before.flatMap chars) := by
      intro hl
      obtain ⟨before, t, cs, behind, rfl, hstart⟩ := ih hl
      refine ⟨p :: before, t, cs, behind, rfl, ?_⟩
      rw [hstart, List.flatMap_cons, byteCount_append, Nat.add_assoc]
    cases p with
    | blank cs => exact later h
    | token t cs =>
      rcases List.mem_cons.1 h with rfl | h
      · exact ⟨[], t, cs, ps, rfl, rfl⟩
      · exact later h

/-- A place in a text is the end of one text in front of it. -/
theorem eq_of_byteCount_eq {as bs cs ds : List Char} (h : as ++ bs = cs ++ ds)
    (hcount : byteCount as = byteCount cs) : as = cs ∧ bs = ds := by
  have hpos : ∀ (c : Char) (cs : List Char), byteCount (c :: cs) ≠ 0 := by
    intro c cs
    have := c.utf8Size_pos
    show c.utf8Size + byteCount cs ≠ 0
    omega
  induction as generalizing cs with
  | nil =>
    cases cs with
    | nil => exact ⟨rfl, h⟩
    | cons c cs => exact absurd hcount.symm (hpos c cs)
  | cons a as ih =>
    cases cs with
    | nil => exact absurd hcount (hpos a as)
    | cons c cs =>
      obtain ⟨rfl, htail⟩ := List.cons.inj h
      obtain ⟨rfl, rfl⟩ := ih htail (Nat.add_left_cancel hcount)
      exact ⟨rfl, rfl⟩

/-- The pieces in front of a token of a text, and those from the token on. -/
theorem exists_append_of_start {before behind : List Char}
    (h : ∃ l ∈ locate 0 (ofText escapes (before ++ behind)), l.start = byteCount before) :
    ∃ ps, before = ps.flatMap chars ∧ Lexed escapes behind ps ∧ Solid behind ∧
      ofText escapes (before ++ behind) = ps ++ ofText escapes behind := by
  obtain ⟨l, hl, hstart⟩ := h
  obtain ⟨ps, t, cs, qs, hpieces, hplace⟩ := exists_of_mem_locate hl
  have htext := chars_ofText escapes (before ++ behind)
  rw [hpieces, List.flatMap_append] at htext
  rw [hplace, Nat.zero_add] at hstart
  obtain ⟨hbefore, hbehind⟩ := eq_of_byteCount_eq htext hstart
  have hfrom := eq_ofText_of_append hpieces
  rw [hbehind] at hfrom
  have hlexed := @lexed_ofText escapes (before ++ behind)
  rw [hpieces] at hlexed
  have hleft := hlexed.left
  rw [hbehind, List.append_nil] at hleft
  exact ⟨ps, hbefore.symm, hleft, solid_of_ofText hfrom.symm, by rw [hpieces, hfrom]⟩

/-! ## Layout in front of a token -/

theorem commentSize_of_not_infix {cs : List Char} (h : ¬ ['*', '/'] <:+: cs) (more : List Char) :
    Token.commentSize (cs ++ '*' :: '/' :: more) = cs.length + 2 := by
  induction cs with
  | nil => rfl
  | cons c cs ih =>
    have htail : ¬ ['*', '/'] <:+: cs := fun hcs => h (hcs.trans (List.suffix_cons c cs).isInfix)
    have hmark : ∀ d ds, cs ++ '*' :: '/' :: more = d :: ds → (c == '*' && d == '/') = false := by
      rintro d ds hds
      refine Bool.eq_false_iff.2 fun hcd => ?_
      simp only [Bool.and_eq_true, beq_iff_eq] at hcd
      obtain ⟨rfl, rfl⟩ := hcd
      cases cs with
      | nil => exact absurd (List.cons.inj hds).1 (by decide)
      | cons e es =>
        obtain ⟨rfl, -⟩ := List.cons.inj hds
        exact h ⟨[], es, rfl⟩
    obtain ⟨d, ds, hds⟩ := List.exists_cons_of_ne_nil
      (List.append_ne_nil_of_right_ne_nil cs (List.cons_ne_nil '*' ('/' :: more)))
    rw [List.cons_append, hds, Token.commentSize, hmark d ds hds, if_neg Bool.false_ne_true, ← hds,
      ih htail, List.length_cons]

namespace IsSpacing

variable {layout : String} (h : IsSpacing layout) (rest : List Char)

include h

theorem delimited : Delimited (layout.toList ++ rest) := by
  cases h with
  | blanks hne h =>
    obtain ⟨c, cs, hcs⟩ := List.exists_cons_of_ne_nil (mt String.toList_eq_nil_iff.1 hne)
    rw [hcs, List.cons_append, delimited_cons, isDelimiter, h c (hcs ▸ List.mem_cons_self)]
    rfl
  | block h =>
    simp only [String.toList_append, List.append_assoc]
    exact delimited_cons.2 (by decide)
  | line h =>
    simp only [String.toList_append, List.append_assoc]
    exact delimited_cons.2 (by decide)

theorem tokens_ofText :
    tokens (ofText escapes (layout.toList ++ rest)) = tokens (ofText escapes rest) := by
  cases h with
  | blanks hne h => exact tokens_ofText_blanks h rest
  | @block s h =>
    have hscan : Token.scan escapes '/' ('*' :: (s.toList ++ ['*', '/']) ++ ' ' :: rest) =
        (.comment, ('*' :: (s.toList ++ ['*', '/'])).length) := by
      have hsize := commentSize_of_not_infix h (' ' :: rest)
      show (Token.comment, 1 + Token.commentSize (s.toList ++ ['*', '/'] ++ ' ' :: rest)) = _
      rw [List.append_assoc, List.cons_append, List.cons_append, List.nil_append, hsize,
        List.length_cons, List.length_append, Nat.add_comm]
      rfl
    have htext : (" /*" ++ s ++ "*/ ").toList ++ rest =
        ' ' :: '/' :: ('*' :: (s.toList ++ ['*', '/']) ++ ' ' :: rest) := by
      simp only [String.toList_append, List.append_assoc, List.cons_append, List.nil_append]
      rfl
    rw [htext, tokens_ofText_cons_blank (by decide), ofText_cons_of_scan (by decide) hscan, tokens,
      if_pos rfl, tokens_ofText_cons_blank (by decide)]
  | @line s h =>
    have hcs : ∀ c ∈ '-' :: s.toList, c ≠ '\n' := by
      refine List.forall_mem_cons.2 ⟨by decide, ?_⟩
      rintro c hc rfl
      exact h hc
    have htext : (" --" ++ s ++ "\n").toList ++ rest =
        ' ' :: '-' :: ('-' :: s.toList ++ '\n' :: rest) := by
      simp only [String.toList_append, List.append_assoc]
      rfl
    rw [htext, tokens_ofText_cons_blank (by decide),
      ofText_cons_of_scan (by decide) (scan_line hcs rfl rest), tokens, if_pos rfl,
      tokens_ofText_cons_blank (by decide)]

end IsSpacing

/-- **Layout** in front of a token of a text leaves the tokens of the text as they are. -/
theorem IsSpacing.tokens_insert {layout : String} (hlayout : IsSpacing layout)
    {before behind : List Char}
    (h : ∃ l ∈ locate 0 (ofText escapes (before ++ behind)), l.start = byteCount before) :
    tokens (ofText escapes (before ++ (layout.toList ++ behind))) =
      tokens (ofText escapes (before ++ behind)) := by
  obtain ⟨ps, rfl, hlexed, hsolid, hpieces⟩ := exists_append_of_start h
  rw [hlexed.tokens_append hsolid (hlayout.delimited behind), hlayout.tokens_ofText, hpieces,
    tokens_append]

end Piece

end SqlFilter
