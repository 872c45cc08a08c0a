import SqlFilter.Proofs.Token.Enclosed
import SqlFilter.Proofs.Token.Lexing
import SqlFilter.Proofs.Token.Located
import SqlFilter.Proofs.Token.Spacing

/-!
# Tokens cover their text

The tokens of a text, comments among them, lie between characters, one behind the other, and leave
only blanks out. What nothing closes, a literal or a block comment, takes up the rest of the text,
so it is the last of them (`Lossless`). The lexing by an offset, which may fail and need not end,
does end with these tokens (`lex_lossless`).
-/

namespace SqlFilter

open Text

/-! ## The tokens of a text -/

/-- The token occupies `here`, with `before` in front of it and `behind` behind it. -/
structure Located.Stands (l : Located) (text before here behind : String) : Prop where
  text_eq : text = before ++ here ++ behind
  start_eq : l.start = before.utf8ByteSize
  stop_eq : l.stop = (before ++ here).utf8ByteSize

/-- Nothing of the text is lost in the tokens but blanks. -/
structure Lossless (escapes : Bool) (text : String) (ls : List Located) : Prop where
  /-- No token is empty. -/
  nonempty : ∀ l ∈ ls, l.start < l.stop
  /-- A token starts where the one before ends, or behind that. -/
  apart : ls.Pairwise fun l m => l.stop ≤ m.start
  /-- Tokens start and end between characters of the text. -/
  boundaries : ∀ l ∈ ls, (String.Pos.Raw.mk l.start).IsValid text ∧
    (String.Pos.Raw.mk l.stop).IsValid text
  /-- A character that is not blank lies within a token. -/
  covered : ∀ before c behind, text = before ++ String.singleton c ++ behind →
    isBlank c = false → ∃ l ∈ ls, l.start ≤ before.utf8ByteSize ∧
      (before ++ String.singleton c).utf8ByteSize ≤ l.stop
  /-- A part of the text that no token touches is blank. -/
  outside : ∀ before gap behind, text = before ++ gap ++ behind →
    (∀ l ∈ ls, l.stop ≤ before.utf8ByteSize ∨ (before ++ gap).utf8ByteSize ≤ l.start) →
      ∀ c ∈ gap.toList, isBlank c = true
  /-- A literal or a block comment that nothing closes is the last token and reaches the end. -/
  endless : ∀ first l more, ls = first ++ l :: more → ∀ before here behind,
    l.Stands text before here behind → Token.Endless escapes (here ++ behind).toList →
      more = [] ∧ l.stop = text.utf8ByteSize ∧ (l.token = .illegal ∨ l.token = .comment)
  /-- Any other literal or block comment ends with its closing mark. -/
  complete : ∀ l ∈ ls, ∀ before here behind, l.Stands text before here behind →
    Token.Marked escapes (here ++ behind).toList →
      ¬Token.Endless escapes (here ++ behind).toList →
        l.token ≠ .illegal ∧ Token.Complete escapes here.toList

/-! ## Places of pieces -/

namespace Piece

variable {escapes : Bool} {after : List Char} {ps : List Piece} {offset : Nat}

/-- A token with its place is one of the pieces. -/
theorem exists_of_locate {first more : List Located} {l : Located}
    (h : locate offset ps = first ++ l :: more) : ∃ before cs behind,
      ps = before ++ token l.token cs :: behind ∧ l.start = offset + extent before ∧
        l.stop = l.start + byteCount cs ∧ more = locate l.stop behind := by
  induction ps generalizing offset first with
  | nil => exact absurd h.symm (List.append_ne_nil_of_right_ne_nil first (List.cons_ne_nil l more))
  | cons p ps ih =>
    have later : ∀ first, locate (offset + byteCount p.chars) ps = first ++ l :: more →
        ∃ before cs behind, p :: ps = before ++ token l.token cs :: behind ∧
          l.start = offset + extent before ∧ l.stop = l.start + byteCount cs ∧
            more = locate l.stop behind := by
      intro first hfirst
      obtain ⟨before, cs, behind, hps, hstart, hstop, hmore⟩ := ih hfirst
      refine ⟨p :: before, cs, behind, by rw [hps]; rfl, ?_, hstop, hmore⟩
      rw [hstart, extent_cons, Nat.add_assoc]
    cases p with
    | blank cs => exact later first h
    | token t cs =>
      cases first with
      | nil =>
        obtain ⟨rfl, rfl⟩ := List.cons.inj h
        exact ⟨[], cs, ps, rfl, rfl, rfl, rfl⟩
      | cons f first => exact later first (List.cons.inj h).2

/-- There are no tokens in no text. -/
theorem Lexed.locate_eq_nil (h : Lexed escapes after ps) (hps : ps.flatMap chars = []) :
    locate offset ps = [] := by
  refine List.eq_nil_iff_forall_not_mem.2 fun l hl => ?_
  obtain ⟨hstart, hlt, hstop⟩ := h.bounds hl
  rw [extent, hps, byteCount] at hstop
  omega

/-- Tokens follow one another. -/
theorem Lexed.pairwise (h : Lexed escapes after ps) :
    (locate offset ps).Pairwise fun l m => l.stop ≤ m.start := by
  induction ps generalizing offset with
  | nil => exact .nil
  | cons p ps ih =>
    cases p with
    | blank cs => exact ih h.2
    | token t cs => exact .cons (fun m hm => (Lexed.bounds h.2 hm).1) (ih h.2)

/-- A character of pieces is one of a piece. -/
theorem exists_of_chars {before behind : List Char} {c : Char}
    (h : ps.flatMap chars = before ++ c :: behind) : ∃ us p vs xs ys,
      ps = us ++ p :: vs ∧ before = us.flatMap chars ++ xs ∧ p.chars = xs ++ c :: ys := by
  induction ps generalizing before with
  | nil => exact absurd h.symm (List.append_ne_nil_of_right_ne_nil before (List.cons_ne_nil c _))
  | cons p ps ih =>
    have later : ∀ as, before = p.chars ++ as → ps.flatMap chars = as ++ c :: behind →
        ∃ us q vs xs ys, p :: ps = us ++ q :: vs ∧ before = us.flatMap chars ++ xs ∧
          q.chars = xs ++ c :: ys := by
      rintro as rfl has
      obtain ⟨us, q, vs, xs, ys, rfl, rfl, hq⟩ := ih has
      exact ⟨p :: us, q, vs, xs, ys, rfl, by rw [List.flatMap_cons, List.append_assoc], hq⟩
    rw [List.flatMap_cons] at h
    obtain ⟨as, hbefore, has⟩ | ⟨bs, hchars, hbs⟩ := List.append_eq_append_iff.1 h
    · exact later as hbefore has
    · cases bs with
      | nil => exact later [] (by rw [hchars, List.append_nil, List.append_nil]) hbs.symm
      | cons b bs =>
        obtain ⟨rfl, -⟩ := List.cons.inj hbs
        exact ⟨[], p, ps, before, bs, rfl, rfl, hchars⟩

/-- Tokens cover the characters that are not blank. -/
theorem Lexed.covered (h : Lexed escapes after ps) {before behind : List Char} {c : Char}
    (hc : isBlank c = false) (hps : ps.flatMap chars = before ++ c :: behind) :
    ∃ l ∈ locate offset ps, l.start ≤ offset + byteCount before ∧
      offset + byteCount (before ++ [c]) ≤ l.stop := by
  obtain ⟨us, p, vs, xs, ys, rfl, rfl, hp⟩ := exists_of_chars hps
  cases p with
  | blank cs =>
    obtain rfl : cs = xs ++ c :: ys := hp
    have hblank := h.right.1 c (List.mem_append_right xs List.mem_cons_self)
    rw [hc] at hblank
    cases hblank
  | token t cs =>
    obtain rfl : cs = xs ++ c :: ys := hp
    refine ⟨⟨t, offset + extent us, offset + extent us + byteCount (xs ++ c :: ys)⟩, ?_, ?_, ?_⟩
    · rw [locate_append]
      exact List.mem_append_right _ List.mem_cons_self
    · simp only [extent, byteCount_append]
      omega
    · simp only [extent, byteCount_append, byteCount]
      omega

end Piece

/-! ## Places of tokens in a text -/

section Stands

variable {escapes : Bool} {text before here behind : String} {first more : List Located}
  {l : Located}

/-- A token of a text stands where it is scanned. -/
theorem exists_stands (h : lex escapes text = first ++ l :: more) : ∃ before here behind qs,
    l.Stands text before here behind ∧ Piece.Lexed escapes [] qs ∧
      qs.flatMap Piece.chars = behind.toList ∧ more = Piece.locate l.stop qs ∧
        ∃ c cs, here.toList = c :: cs ∧
          Token.scan escapes c (cs ++ behind.toList) = (l.token, cs.length) := by
  obtain ⟨ps, cs, qs, hpieces, hstart, hstop, hmore⟩ := Piece.exists_of_locate h
  have hlexed := @Piece.lexed_ofText escapes text.toList
  have htext := Piece.chars_ofText escapes text.toList
  rw [hpieces] at hlexed htext
  obtain ⟨⟨c, ds, rfl, -, hscan⟩, hqs⟩ := hlexed.right
  rw [List.append_nil] at hscan
  refine ⟨.ofList (ps.flatMap Piece.chars), .ofList (c :: ds), .ofList (qs.flatMap Piece.chars), qs,
    ⟨?_, ?_, ?_⟩, hqs, String.toList_ofList.symm, hmore, c, ds, String.toList_ofList, ?_⟩
  · rw [← String.toList_inj, ← htext, List.flatMap_append]
    simp [Piece.chars]
  · rw [← byteCount_toList, String.toList_ofList, hstart, Nat.zero_add]
    rfl
  · rw [← byteCount_toList, ← String.ofList_append, String.toList_ofList, hstop, hstart,
      byteCount_append, Nat.zero_add]
    rfl
  · rwa [String.toList_ofList]

/-- A token stands in one place only. -/
theorem Located.Stands.unique {before' here' behind' : String}
    (h : l.Stands text before here behind) (h' : l.Stands text before' here' behind') :
    here = here' ∧ behind = behind' := by
  have hstart := h.start_eq.symm.trans h'.start_eq
  have hstop := h.stop_eq.symm.trans h'.stop_eq
  have htext := h.text_eq.symm.trans h'.text_eq
  rw [← byteCount_toList, ← byteCount_toList] at hstart hstop
  rw [← String.toList_inj, String.toList_append, @String.toList_append (before' ++ here')] at htext
  obtain ⟨hfront, hbehind⟩ := Piece.eq_of_byteCount_eq htext hstop
  rw [String.toList_append, String.toList_append] at hfront
  obtain ⟨-, hhere⟩ := Piece.eq_of_byteCount_eq hfront hstart
  exact ⟨String.toList_inj.1 hhere, String.toList_inj.1 hbehind⟩

end Stands

section Text

variable (escapes : Bool) (text : String)

theorem isValid_lex {l : Located} (hl : l ∈ lex escapes text) :
    (String.Pos.Raw.mk l.start).IsValid text ∧ (String.Pos.Raw.mk l.stop).IsValid text := by
  obtain ⟨first, more, hsplit⟩ := List.append_of_mem hl
  obtain ⟨before, here, behind, -, hstands, -⟩ := exists_stands hsplit
  constructor
  · refine String.Pos.Raw.isValid_iff_exists_append.2 ⟨before, here ++ behind, ?_, ?_⟩
    · rw [hstands.text_eq, String.append_assoc]
    · rw [hstands.start_eq]
      rfl
  · refine String.Pos.Raw.isValid_iff_exists_append.2 ⟨before ++ here, behind, hstands.text_eq, ?_⟩
    rw [hstands.stop_eq]
    rfl

theorem covered_lex {before behind : String} {c : Char}
    (h : text = before ++ String.singleton c ++ behind) (hc : isBlank c = false) :
    ∃ l ∈ lex escapes text, l.start ≤ before.utf8ByteSize ∧
      (before ++ String.singleton c).utf8ByteSize ≤ l.stop := by
  have htext : (Piece.ofText escapes text.toList).flatMap Piece.chars =
      before.toList ++ c :: behind.toList := by
    rw [Piece.chars_ofText, h]
    simp
  obtain ⟨l, hl, hstart, hstop⟩ := @Piece.Lexed.covered escapes [] _ 0
    (Piece.lexed_ofText text.toList) before.toList behind.toList c hc htext
  refine ⟨l, hl, ?_, ?_⟩
  · rwa [Nat.zero_add, byteCount_toList] at hstart
  · rwa [Nat.zero_add, ← String.toList_singleton, ← String.toList_append, byteCount_toList] at hstop

theorem isBlank_of_outside {before gap behind : String} (h : text = before ++ gap ++ behind)
    (hgap : ∀ l ∈ lex escapes text,
      l.stop ≤ before.utf8ByteSize ∨ (before ++ gap).utf8ByteSize ≤ l.start)
    {c : Char} (hc : c ∈ gap.toList) : isBlank c = true := by
  by_contra hsolid
  obtain ⟨xs, ys, hxs⟩ := List.append_of_mem hc
  obtain rfl : gap = .ofList xs ++ String.singleton c ++ .ofList ys := by
    rw [← String.toList_inj, hxs]
    simp
  have htext : text = before ++ .ofList xs ++ String.singleton c ++ (.ofList ys ++ behind) := by
    simp only [h, String.append_assoc]
  obtain ⟨l, hl, hstart, hstop⟩ :=
    covered_lex escapes text htext (Bool.eq_false_of_not_eq_true hsolid)
  have hpos := c.utf8Size_pos
  have hapart := hgap l hl
  simp only [String.utf8ByteSize_append, String.utf8ByteSize_singleton] at hstart hstop hapart
  omega

/-- The text from where a token of it stands on starts with what is scanned for the token. -/
theorem eq_of_stands {first more : List Located} {l : Located}
    (h : lex escapes text = first ++ l :: more) {before here behind : String}
    (hstands : l.Stands text before here behind) : ∃ c cs,
      here.toList = c :: cs ∧ (here ++ behind).toList = c :: (cs ++ behind.toList) ∧
        Token.scan escapes c (cs ++ behind.toList) = (l.token, cs.length) ∧
          (behind = "" → more = []) := by
  obtain ⟨before', here', behind', qs, hstands', hqs, hchars, hmore, c, cs, hhere, hscan⟩ :=
    exists_stands h
  obtain ⟨rfl, rfl⟩ := hstands.unique hstands'
  refine ⟨c, cs, hhere, by rw [String.toList_append, hhere]; rfl, hscan, ?_⟩
  rintro rfl
  rw [hmore]
  exact hqs.locate_eq_nil hchars

theorem endless_lex {first more : List Located} {l : Located}
    (h : lex escapes text = first ++ l :: more) {before here behind : String}
    (hstands : l.Stands text before here behind)
    (hend : Token.Endless escapes (here ++ behind).toList) :
    more = [] ∧ l.stop = text.utf8ByteSize ∧ (l.token = .illegal ∨ l.token = .comment) := by
  obtain ⟨c, cs, -, hfrom, hscan, hmore⟩ := eq_of_stands escapes text h hstands
  rw [hfrom] at hend
  obtain ⟨hlen, htoken⟩ := Token.eq_length_of_endless hend hscan
  have hbehind : behind = "" := by
    rw [List.length_append] at hlen
    exact String.toList_eq_nil_iff.1 (List.length_eq_zero_iff.1 (by omega))
  refine ⟨hmore hbehind, ?_, htoken⟩
  rw [hstands.stop_eq, hstands.text_eq, hbehind, String.append_empty]

theorem complete_lex {l : Located} (hl : l ∈ lex escapes text) {before here behind : String}
    (hstands : l.Stands text before here behind)
    (hmarked : Token.Marked escapes (here ++ behind).toList)
    (hend : ¬Token.Endless escapes (here ++ behind).toList) :
    l.token ≠ .illegal ∧ Token.Complete escapes here.toList := by
  obtain ⟨first, more, hsplit⟩ := List.append_of_mem hl
  obtain ⟨c, cs, hhere, hfrom, hscan, -⟩ := eq_of_stands escapes text hsplit hstands
  rw [hfrom] at hmarked hend
  have hcomplete := Token.complete_of_scan hmarked hend hscan
  rwa [List.take_left, ← hhere] at hcomplete

/-- **The tokens of a text**, comments included, are what its lexing by an offset comes to, which
therefore ends. They are not empty, follow one another between characters and leave only blanks out,
and one that nothing closes is the last and reaches the end of the text. -/
theorem lex_lossless :
    Lexing.ofText escapes text = .some (lex escapes text) ∧
      Lossless escapes text (lex escapes text) where
  left := Lexing.ofText_eq escapes text
  right :=
    have hlexed := @Piece.lexed_ofText escapes text.toList
    { nonempty := fun _ hl => (hlexed.bounds hl).2.1
      apart := hlexed.pairwise
      boundaries := fun _ => isValid_lex escapes text
      covered := fun _ _ _ => covered_lex escapes text
      outside := fun _ _ _ h hgap _ => isBlank_of_outside escapes text h hgap
      endless := fun _ _ _ h _ _ _ => endless_lex escapes text h
      complete := fun _ hl _ _ _ => complete_lex escapes text hl }

/-- A mark that is escaped or written twice closes no string. -/
example : lex true "é = 'x\\'''" = [⟨.name "é", 0, 2⟩, ⟨.eq, 3, 4⟩, ⟨.illegal, 5, 11⟩] := by
  decide +kernel

end Text

end SqlFilter
