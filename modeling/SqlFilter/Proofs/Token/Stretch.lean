import SqlFilter.Proofs.Token.Source

/-!
# Stretches of words

A stretch of the words of a text is given by two places among them. The text of a stretch can be cut
out of the whole by offsets alone, from the start of its first token to the end of its last, less the
comments in between. All these offsets lie between characters and follow one another, and what is
cut out is the text of the words (`Scanned.source?_ofText`).
-/

namespace SqlFilter

open Text Piece

/-! ## Offsets in a text -/

/-- The first `n` bytes of a text. There are none if the offset is inside a character or behind the
end. -/
def takeBytes? (n : Nat) : List Char → Option (List Char)
  | [] => if n = 0 then some [] else none
  | c :: cs =>
    if n = 0 then some []
    else if c.utf8Size ≤ n then (takeBytes? (n - c.utf8Size) cs).map (c :: ·)
    else none

/-- The text from one offset up to another. There is none if an offset is not between characters or
the second one comes first. -/
def slice? (cs : List Char) (start stop : Nat) : Option (List Char) := do
  let before ← takeBytes? start cs
  let upTo ← takeBytes? stop cs
  if start ≤ stop then some (upTo.drop before.length) else none

theorem takeBytes?_append (xs ys : List Char) : takeBytes? (byteCount xs) (xs ++ ys) = some xs := by
  induction xs with
  | nil => cases ys <;> rfl
  | cons c xs ih =>
    have hpos := c.utf8Size_pos
    rw [List.cons_append, byteCount, takeBytes?, if_neg (by omega),
      if_pos (Nat.le_add_right _ _), Nat.add_sub_cancel_left, ih]
    rfl

theorem slice?_append (xs ys zs : List Char) :
    slice? (xs ++ (ys ++ zs)) (byteCount xs) (byteCount (xs ++ ys)) = some ys := by
  have hstop := takeBytes?_append (xs ++ ys) zs
  rw [List.append_assoc] at hstop
  have hle : byteCount xs ≤ byteCount (xs ++ ys) := by
    rw [byteCount_append]
    exact Nat.le_add_right _ _
  rw [slice?, takeBytes?_append, hstop]
  show (if byteCount xs ≤ byteCount (xs ++ ys) then some ((xs ++ ys).drop xs.length) else none) = _
  rw [if_pos hle, List.drop_left]

/-! ## Places of tokens -/

namespace Piece

/-- The size of the text of pieces. -/
def extent (ps : List Piece) : Nat := byteCount (ps.flatMap chars)

theorem extent_cons (p : Piece) (ps : List Piece) :
    extent (p :: ps) = byteCount p.chars + extent ps := by
  rw [extent, List.flatMap_cons, byteCount_append]
  rfl

theorem extent_append (ps qs : List Piece) : extent (ps ++ qs) = extent ps + extent qs := by
  rw [extent, List.flatMap_append, byteCount_append]
  rfl

theorem locate_append (offset : Nat) (ps qs : List Piece) :
    locate offset (ps ++ qs) = locate offset ps ++ locate (offset + extent ps) qs := by
  induction ps generalizing offset with
  | nil => rfl
  | cons p ps ih =>
    cases p with
    | blank cs =>
      rw [List.cons_append, locate, locate, ih, extent_cons, Nat.add_assoc]
      rfl
    | token t cs =>
      rw [List.cons_append, locate, locate, ih, extent_cons, Nat.add_assoc]
      rfl

/-- Tokens lie within the text of the pieces, and are not empty. -/
theorem Lexed.bounds {escapes : Bool} {after : List Char} {ps : List Piece}
    (h : Lexed escapes after ps) {offset : Nat} {l : Located} (hl : l ∈ locate offset ps) :
    offset ≤ l.start ∧ l.start < l.stop ∧ l.stop ≤ offset + extent ps := by
  induction ps generalizing offset with
  | nil => exact absurd hl List.not_mem_nil
  | cons p ps ih =>
    rw [extent_cons]
    cases p with
    | blank cs =>
      obtain ⟨hstart, hlt, hstop⟩ := ih h.2 hl
      show offset ≤ l.start ∧ l.start < l.stop ∧ l.stop ≤ offset + (byteCount cs + extent ps)
      omega
    | token t cs =>
      show offset ≤ l.start ∧ l.start < l.stop ∧ l.stop ≤ offset + (byteCount cs + extent ps)
      rcases List.mem_cons.1 hl with rfl | hl
      · obtain ⟨⟨c, ds, rfl, -⟩, -⟩ := h
        have hpos := c.utf8Size_pos
        rw [byteCount]
        dsimp only
        omega
      · obtain ⟨hstart, hlt, hstop⟩ := ih h.2 hl
        omega

/-- The comments among the pieces with their places. -/
def comments (offset : Nat) (ps : List Piece) : List Located :=
  (locate offset ps).filter (·.token = .comment)

/-- The other tokens with their places. -/
def solids (offset : Nat) (ps : List Piece) : List Located :=
  (locate offset ps).filter (·.token ≠ .comment)

theorem comments_append (offset : Nat) (ps qs : List Piece) :
    comments offset (ps ++ qs) = comments offset ps ++ comments (offset + extent ps) qs := by
  rw [comments, locate_append, List.filter_append]
  rfl

theorem solids_append (offset : Nat) (ps qs : List Piece) :
    solids offset (ps ++ qs) = solids offset ps ++ solids (offset + extent ps) qs := by
  rw [solids, locate_append, List.filter_append]
  rfl

theorem exists_of_isComment {p : Piece} (h : p.isComment = true) :
    ∃ cs, p = .token .comment cs := by
  unfold isComment at h
  split at h
  · exact ⟨_, rfl⟩
  · cases h

theorem comments_comment (offset : Nat) (cs : List Char) (ps : List Piece) :
    comments offset (.token .comment cs :: ps) =
      ⟨.comment, offset, offset + byteCount cs⟩ :: comments (offset + byteCount cs) ps := rfl

theorem comments_cons {p : Piece} (hp : p.isComment = false) (offset : Nat) (ps : List Piece) :
    comments offset (p :: ps) = comments (offset + byteCount p.chars) ps := by
  cases p with
  | blank cs => rfl
  | token t cs =>
    have ht : t ≠ .comment := by
      rintro rfl
      cases hp
    exact List.filter_cons_of_neg (by simpa using ht)

theorem solids_token {t : Token} (ht : t ≠ .comment) (offset : Nat) (cs : List Char)
    (ps : List Piece) : solids offset (.token t cs :: ps) =
      ⟨t, offset, offset + byteCount cs⟩ :: solids (offset + byteCount cs) ps :=
  List.filter_cons_of_pos (by simpa using ht)

theorem solids_layout {gap : List Piece} (h : Word.IsLayout gap) (offset : Nat) :
    solids offset gap = [] := by
  induction gap generalizing offset with
  | nil => rfl
  | cons p gap ih =>
    obtain ⟨hp, hgap⟩ := List.forall_mem_cons.1 h
    obtain ⟨cs, rfl, -⟩ | ⟨cs, rfl⟩ := hp
    · exact ih hgap _
    · exact ih hgap _

end Piece

/-! ## Stretches -/

/-- A stretch of words: those from place `lo` on, up to place `hi`. -/
structure Stretch where
  /-- The place of the first word. -/
  lo : Nat
  /-- The place behind the last word. -/
  hi : Nat
  deriving DecidableEq, Repr

namespace Stretch

variable {ws us vs : List Word} {r : Stretch} {lo hi : Nat}

/-- The words of the stretch. -/
def words (r : Stretch) (ws : List Word) : List Word := (ws.drop r.lo).take (r.hi - r.lo)

/-- The words `vs` are those of the stretch, which lies within the words `ws`. -/
def Covers (r : Stretch) (ws vs : List Word) : Prop :=
  ∃ before behind, ws = before ++ (vs ++ behind) ∧ r.lo = before.length ∧ r.hi = r.lo + vs.length

theorem covers_all (ws : List Word) : Covers ⟨0, ws.length⟩ ws ws :=
  ⟨[], [], (List.append_nil ws).symm, rfl, (Nat.zero_add _).symm⟩

theorem Covers.hi_eq (h : r.Covers ws vs) : r.hi = r.lo + vs.length := by
  obtain ⟨_, _, -, -, hhi⟩ := h
  exact hhi

theorem Covers.le (h : r.Covers ws vs) : r.lo ≤ r.hi ∧ r.hi ≤ ws.length := by
  obtain ⟨before, behind, rfl, hlo, hhi⟩ := h
  simp only [List.length_append]
  omega

theorem Covers.words_eq (h : r.Covers ws vs) : r.words ws = vs := by
  obtain ⟨before, behind, rfl, hlo, hhi⟩ := h
  rw [words, hhi, Nat.add_sub_cancel_left, hlo, List.drop_left, List.take_left]

theorem Covers.left (h : Covers ⟨lo, hi⟩ ws (us ++ vs)) : Covers ⟨lo, lo + us.length⟩ ws us := by
  obtain ⟨before, behind, rfl, hlo, -⟩ := h
  exact ⟨before, vs ++ behind, by rw [List.append_assoc], hlo, rfl⟩

theorem Covers.right (h : Covers ⟨lo, hi⟩ ws (us ++ vs)) : Covers ⟨lo + us.length, hi⟩ ws vs := by
  obtain ⟨before, behind, rfl, hlo, hhi⟩ := h
  refine ⟨before ++ us, behind, ?_, ?_, ?_⟩
  · rw [List.append_assoc, List.append_assoc]
  · rw [List.length_append]
    exact congrArg (· + us.length) hlo
  · rw [List.length_append, ← Nat.add_assoc] at hhi
    exact hhi

/-- The word at the first place. -/
theorem Covers.getElem?_lo {w : Word} (h : r.Covers ws (w :: vs)) : ws[r.lo]? = some w := by
  obtain ⟨before, behind, rfl, hlo, -⟩ := h
  rw [hlo, List.getElem?_append_right (Nat.le_refl _), Nat.sub_self]
  rfl

theorem Covers.lt {w : Word} (h : Covers ⟨lo, hi⟩ ws (w :: vs)) : lo < hi := by
  have hhi : hi = lo + (vs.length + 1) := h.hi_eq
  omega

theorem Covers.not_lt (h : Covers ⟨lo, hi⟩ ws []) : ¬lo < hi := Nat.not_lt.2 h.hi_eq.le

theorem Covers.tail {w : Word} (h : Covers ⟨lo, hi⟩ ws (w :: vs)) : Covers ⟨lo + 1, hi⟩ ws vs :=
  @Covers.right ws [w] vs lo hi h

theorem covers_words (hlo : r.lo ≤ r.hi)
    (hhi : r.hi ≤ ws.length) : r.Covers ws (r.words ws) := by
  refine ⟨ws.take r.lo, ws.drop r.hi, ?_, ?_, ?_⟩
  · have hdrop : (ws.drop r.lo).drop (r.hi - r.lo) = ws.drop r.hi := by
      rw [List.drop_drop, Nat.add_sub_cancel' hlo]
    rw [words, ← hdrop, List.take_append_drop, List.take_append_drop]
  · rw [List.length_take, Nat.min_eq_left (hlo.trans hhi)]
  · rw [words, List.length_take, List.length_drop]
    omega

theorem lt_of_words_ne (h : r.words ws ≠ []) :
    r.lo < r.hi := by
  by_contra hle
  rw [words, Nat.sub_eq_zero_of_le (Nat.not_lt.1 hle), List.take_zero] at h
  exact h rfl

end Stretch

/-! ## Text by offsets -/

/-- A text with its words, and the places of its tokens and comments. -/
structure Scanned where
  /-- The text. -/
  chars : List Char
  /-- The words. -/
  words : List Word
  /-- The places of the tokens other than comments. -/
  tokens : List Located
  /-- The places of the comments. -/
  comments : List Located

namespace Scanned

/-- Scans a text. -/
def ofText (escapes : Bool) (text : String) : Scanned where
  chars := text.toList
  words := Word.ofText escapes text
  tokens := (lex escapes text).filter (·.token ≠ .comment)
  comments := (lex escapes text).filter (·.token = .comment)

/-- The text from an offset up to the last one, less the comments. -/
def around? (s : Scanned) (stop : Nat) : (start : Nat) → List Located → Option (List Char)
  | start, [] => (slice? s.chars start stop).map trimStart
  | start, c :: cs => do
    let part ← slice? s.chars start c.start
    let rest ← s.around? stop c.stop cs
    some (trimEnd part ++ ' ' :: rest)

/-- The text between two offsets, less the comments. -/
def cutOut? (s : Scanned) (start stop : Nat) (comments : List Located) : Option (List Char) :=
  if comments = [] then slice? s.chars start stop else s.around? stop start comments

/-- The text of a stretch, cut out by the offsets of its first and last token and of the comments
between them. -/
def source? (s : Scanned) (r : Stretch) : Option String :=
  if r.hi ≤ r.lo then some ""
  else do
    let first ← s.tokens[r.lo]?
    let last ← s.tokens[r.hi - 1]?
    let inner := s.comments.filter fun c => first.start ≤ c.start ∧ c.stop ≤ last.stop
    (s.cutOut? first.start last.stop inner).map String.ofList

/-! ## The text of words -/

open Word

/-- The parts between comments with more text in front of the first one. -/
def prepend (cs : List Char) : List (List Char) → List (List Char)
  | [] => [cs]
  | part :: parts => (cs ++ part) :: parts

theorem prepend_betweenComments {p : Piece} (hp : p.isComment = false) (cs : List Char)
    (ps : List Piece) :
    prepend cs (betweenComments (p :: ps)) = prepend (cs ++ p.chars) (betweenComments ps) := by
  obtain ⟨part, parts, h⟩ := List.exists_cons_of_ne_nil (betweenComments_ne_nil ps)
  rw [betweenComments_cons hp h, h, prepend, prepend, List.append_assoc]

theorem prepend_nil (ps : List Piece) : prepend [] (betweenComments ps) = betweenComments ps := by
  obtain ⟨part, parts, h⟩ := List.exists_cons_of_ne_nil (betweenComments_ne_nil ps)
  rw [h]
  rfl

/-- The text between comments is cut out by their offsets. -/
theorem around?_eq {s : Scanned} {before part behind : List Char} {ps : List Piece}
    (h : s.chars = before ++ (part ++ (ps.flatMap Piece.chars ++ behind))) :
    s.around? (byteCount (before ++ part) + extent ps) (byteCount before)
        (Piece.comments (byteCount (before ++ part)) ps) =
      some (joinParts (prepend part (betweenComments ps))) := by
  induction ps generalizing before part with
  | nil =>
    show (slice? s.chars (byteCount before) (byteCount (before ++ part))).map trimStart = _
    rw [h, slice?_append, betweenComments, prepend, List.append_nil]
    rfl
  | cons p ps ih =>
    have hsize : ∀ cs, byteCount (before ++ part) + byteCount cs =
        byteCount (before ++ (part ++ cs)) := by
      intro cs
      rw [← List.append_assoc, byteCount_append (before ++ part)]
    rw [List.flatMap_cons, List.append_assoc] at h
    rw [extent_cons, ← Nat.add_assoc]
    cases hp : p.isComment with
    | true =>
      obtain ⟨cs, rfl⟩ := exists_of_isComment hp
      have hrest := @ih (before ++ (part ++ cs)) [] (by simpa [Piece.chars] using h)
      rw [List.append_nil, prepend_nil] at hrest
      obtain ⟨next, parts, hparts⟩ := List.exists_cons_of_ne_nil (betweenComments_ne_nil ps)
      rw [comments_comment, around?, h, slice?_append]
      show (s.around? (byteCount (before ++ part) + byteCount cs + extent ps)
        (byteCount (before ++ part) + byteCount cs)
        (Piece.comments (byteCount (before ++ part) + byteCount cs) ps)).bind
          (fun rest => some (trimEnd part ++ ' ' :: rest)) = _
      rw [hsize, hrest, betweenComments_comment, hparts, prepend, List.append_nil]
      rfl
    | false =>
      have hrest := @ih before (part ++ p.chars) (by rw [List.append_assoc]; exact h)
      rw [comments_cons hp, hsize, hrest, prepend_betweenComments hp]

theorem length_betweenComments (offset : Nat) (ps : List Piece) :
    (betweenComments ps).length = (Piece.comments offset ps).length + 1 := by
  induction ps generalizing offset with
  | nil => rfl
  | cons p ps ih =>
    cases hp : p.isComment with
    | true =>
      obtain ⟨cs, rfl⟩ := exists_of_isComment hp
      rw [betweenComments_comment, comments_comment, List.length_cons, List.length_cons, ih]
    | false =>
      obtain ⟨part, parts, h⟩ := List.exists_cons_of_ne_nil (betweenComments_ne_nil ps)
      rw [betweenComments_cons hp h, comments_cons hp, ← ih (offset + byteCount p.chars), h]
      rfl

theorem betweenComments_of_comments {offset : Nat} {ps : List Piece}
    (h : Piece.comments offset ps = []) : betweenComments ps = [ps.flatMap Piece.chars] := by
  induction ps generalizing offset with
  | nil => rfl
  | cons p ps ih =>
    cases hp : p.isComment with
    | true =>
      obtain ⟨cs, rfl⟩ := exists_of_isComment hp
      cases h
    | false =>
      rw [comments_cons hp] at h
      rw [betweenComments_cons hp (ih h), List.flatMap_cons]

/-- What is kept of pieces is cut out by the offsets of their ends and of the comments among
them. -/
theorem cutOut?_eq {s : Scanned} {before behind : List Char} {ps : List Piece}
    (h : s.chars = before ++ (ps.flatMap Piece.chars ++ behind)) :
    s.cutOut? (byteCount before) (byteCount before + extent ps)
      (Piece.comments (byteCount before) ps) = some (kept ps) := by
  unfold cutOut?
  split_ifs with hnone
  · rw [extent, ← byteCount_append, h, slice?_append, kept, betweenComments_of_comments hnone]
    rfl
  · have hlen := length_betweenComments (byteCount before) ps
    have haround := @around?_eq s before [] behind ps h
    rw [List.append_nil, prepend_nil] at haround
    rw [haround, kept]
    rcases hparts : betweenComments ps with _ | ⟨part, _ | ⟨next, parts⟩⟩
    · exact absurd hparts (betweenComments_ne_nil ps)
    · rw [hparts] at hlen
      exact absurd (List.length_eq_zero_iff.1 (Nat.succ.inj hlen).symm) hnone
    · rfl

section Places

variable {us vs : List Word}

theorem length_solids_spread (h : ∀ w ∈ us, w.token ≠ .comment ∧ IsLayout w.before)
    (offset : Nat) : (solids offset (spread us)).length = us.length := by
  induction us generalizing offset with
  | nil => rfl
  | cons w us ih =>
    obtain ⟨⟨hw, hgap⟩, hus⟩ := List.forall_mem_cons.1 h
    rw [spread_cons, pieces_cons, solids_append, solids_layout hgap, solids_token hw,
      List.nil_append, List.length_cons, List.length_cons, ih hus]

/-- The place of a word in its text. -/
theorem getElem?_solids {w : Word}
    (h : ∀ v ∈ us ++ w :: vs, v.token ≠ .comment ∧ IsLayout v.before) (tail : List Piece) :
    (solids 0 (spread (us ++ w :: vs) ++ tail))[us.length]? =
      some ⟨w.token, extent (spread us ++ w.before), extent (spread (us ++ [w]))⟩ := by
  obtain ⟨hus, hvs⟩ := List.forall_mem_append.1 h
  obtain ⟨⟨hw, hgap⟩, -⟩ := List.forall_mem_cons.1 hvs
  have hstop : extent (spread (us ++ [w])) = extent (spread us ++ w.before) + byteCount w.chars := by
    rw [spread_append, spread_cons, ← List.append_assoc, extent_append, pieces_cons, extent_cons]
    rfl
  rw [spread_append, spread_cons, pieces_cons, ← List.append_assoc, List.append_assoc,
    solids_append, solids_append 0 (spread us), solids_layout hgap, List.append_nil,
    List.getElem?_append_right (length_solids_spread hus 0).le, length_solids_spread hus,
    Nat.sub_self, List.cons_append, solids_token hw, hstop, Nat.zero_add]
  rfl

end Places

/-- The comments among pieces are those between the ends of the pieces. -/
theorem filter_comments {escapes : Bool} {after : List Char} {before mid behind : List Piece}
    (h : Lexed escapes after (before ++ (mid ++ behind))) :
    (Piece.comments 0 (before ++ (mid ++ behind))).filter
        (fun c => extent before ≤ c.start ∧ c.stop ≤ extent before + extent mid) =
      Piece.comments (extent before) mid := by
  rw [comments_append, comments_append, List.filter_append, List.filter_append, Nat.zero_add]
  have hbefore : (Piece.comments 0 before).filter
      (fun c => extent before ≤ c.start ∧ c.stop ≤ extent before + extent mid) = [] := by
    refine List.filter_eq_nil_iff.2 fun c hc => ?_
    obtain ⟨-, hlt, hstop⟩ := h.left.bounds (List.mem_of_mem_filter hc)
    rw [decide_eq_true_iff]
    omega
  have hmid : (Piece.comments (extent before) mid).filter
      (fun c => extent before ≤ c.start ∧ c.stop ≤ extent before + extent mid) =
        Piece.comments (extent before) mid := by
    refine List.filter_eq_self.2 fun c hc => ?_
    obtain ⟨hstart, -, hstop⟩ := h.right.left.bounds (List.mem_of_mem_filter hc)
    exact decide_eq_true ⟨hstart, hstop⟩
  have hbehind : (Piece.comments (extent before + extent mid) behind).filter
      (fun c => extent before ≤ c.start ∧ c.stop ≤ extent before + extent mid) = [] := by
    refine List.filter_eq_nil_iff.2 fun c hc => ?_
    obtain ⟨hstart, hlt, -⟩ := h.right.right.bounds (List.mem_of_mem_filter hc)
    rw [decide_eq_true_iff]
    omega
  rw [hbefore, hmid, hbehind, List.nil_append, List.append_nil]

section Text

variable {escapes : Bool} {text : String} {r : Stretch} {v : Word} {vs : List Word}

/-- A stretch is a run of pieces of the text, from the start of its first token to the end of its
last. -/
theorem exists_pieces (h : r.Covers (Word.ofText escapes text) (v :: vs)) :
    ∃ before behind first last,
      Piece.ofText escapes text.toList = before ++ (pieces (v :: vs) ++ behind) ∧
      (ofText escapes text).tokens[r.lo]? = some first ∧ first.start = extent before ∧
      (ofText escapes text).tokens[r.hi - 1]? = some last ∧
      last.stop = extent before + extent (pieces (v :: vs)) := by
  obtain ⟨us, rest, hws, hlo, hhi⟩ := h
  obtain ⟨⟨tail, -, htext⟩, hlay⟩ := exists_spread_ofText escapes text
  obtain ⟨init, l, hinit⟩ : ∃ init l, v :: vs = init ++ [l] :=
    (List.eq_nil_or_concat' (v :: vs)).resolve_left (List.cons_ne_nil v vs)
  have htokens : (ofText escapes text).tokens =
      solids 0 (spread (Word.ofText escapes text) ++ tail) := by
    rw [← htext]
    rfl
  have hlast : us ++ (v :: vs ++ rest) = (us ++ init) ++ l :: rest := by
    rw [hinit]
    simp only [List.append_assoc, List.singleton_append]
  have hplace : r.hi - 1 = (us ++ init).length := by
    rw [hhi, hlo, hinit, List.length_append, List.length_append, List.length_singleton]
    omega
  have hstop : extent (spread ((us ++ init) ++ [l])) =
      extent (spread us ++ v.before) + extent (pieces (v :: vs)) := by
    rw [List.append_assoc, ← hinit, spread_append, spread_cons, ← List.append_assoc, extent_append]
  refine ⟨spread us ++ v.before, spread rest ++ tail,
    ⟨v.token, extent (spread us ++ v.before), extent (spread (us ++ [v]))⟩,
    ⟨l.token, extent (spread (us ++ init) ++ l.before), extent (spread ((us ++ init) ++ [l]))⟩,
    ?_, ?_, rfl, ?_, hstop⟩
  · rw [htext, hws, spread_append, spread_append, spread_cons]
    simp only [List.append_assoc]
  · rw [hws] at hlay
    rw [htokens, hws, hlo]
    exact getElem?_solids hlay tail
  · rw [hws, hlast] at hlay
    rw [htokens, hws, hlast, hplace]
    exact getElem?_solids hlay tail

/-- The text of a stretch is cut out by offsets, all of which are places between characters. -/
theorem source?_ofText {vs : List Word} (h : r.Covers (Word.ofText escapes text) vs) :
    (ofText escapes text).source? r = some (source vs) := by
  cases vs with
  | nil => exact if_pos h.hi_eq.le
  | cons v vs =>
    obtain ⟨before, behind, first, last, hpieces, hfirst, hstart, hlast, hstop⟩ := exists_pieces h
    have hchars : (ofText escapes text).chars = before.flatMap Piece.chars ++
        ((pieces (v :: vs)).flatMap Piece.chars ++ behind.flatMap Piece.chars) := by
      rw [← List.flatMap_append, ← List.flatMap_append, ← hpieces, chars_ofText]
      rfl
    have hinner : (ofText escapes text).comments.filter
        (fun c => first.start ≤ c.start ∧ c.stop ≤ last.stop) =
          Piece.comments (extent before) (pieces (v :: vs)) := by
      have hlexed := @lexed_ofText escapes text.toList
      rw [hpieces] at hlexed
      rw [hstart, hstop, ← filter_comments hlexed, ← hpieces]
      rfl
    rw [source?, if_neg (Nat.not_le.2 h.lt), hfirst, hlast]
    show ((ofText escapes text).cutOut? first.start last.stop _).map String.ofList = _
    rw [hinner, hstart, hstop, extent, cutOut?_eq hchars, ← toList_source, Option.map_some,
      String.ofList_toList]

end Text

end Scanned

end SqlFilter
