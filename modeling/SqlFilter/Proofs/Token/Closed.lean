import SqlFilter.Proofs.Token.Context
import SqlFilter.Token.Word

/-!
# Closed text

Text is closed if the pieces it is cut into are the same in front of every delimiter. Written SQL is
put together from closed text with blanks, commas and parentheses in between, and so the pieces of
the whole are those of its parts.
-/

namespace SqlFilter

open Text

namespace Piece

variable {escapes : Bool}

/-! ## The pieces at the head of a text -/

theorem ofText_cons_of_scan {c : Char} {cs rest : List Char} {t : Token} (hc : isBlank c = false)
    (hs : Token.scan escapes c (cs ++ rest) = (t, cs.length)) :
    ofText escapes (c :: (cs ++ rest)) = token t (c :: cs) :: ofText escapes rest := by
  rw [ofText, if_neg (by rw [hc]; exact Bool.false_ne_true), hs]
  simp only [List.take_left, List.drop_left]

theorem takeWhile_append_of_head {α : Type} {p : α → Bool} {xs ys : List α}
    (hxs : ∀ x ∈ xs, p x = true) (hys : ∀ y, ys.head? = some y → p y = false) :
    (xs ++ ys).takeWhile p = xs := by
  rw [List.takeWhile_append_of_pos hxs]
  cases ys with
  | nil => rw [List.takeWhile_nil, List.append_nil]
  | cons y ys => rw [List.takeWhile_cons_of_neg (by rw [hys y rfl]; exact Bool.false_ne_true),
      List.append_nil]

theorem ofText_append_of_blank {gap rest : List Char} (hgap : gap ≠ [])
    (hb : ∀ c ∈ gap, isBlank c = true) (hr : ∀ c, rest.head? = some c → isBlank c = false) :
    ofText escapes (gap ++ rest) = blank gap :: ofText escapes rest := by
  cases gap with
  | nil => exact absurd rfl hgap
  | cons c gap =>
    rw [List.cons_append, ofText, if_pos (hb c List.mem_cons_self)]
    simp only [takeWhile_append_of_head (fun d hd => hb d (List.mem_cons_of_mem c hd)) hr,
      List.take_left, List.drop_left]

/-- A token of one character that nothing goes on with. -/
theorem ofText_cons_of_single {c : Char} {t : Token} (hc : isBlank c = false)
    (hs : ∀ cs, Token.scan escapes c cs = (t, 0)) (rest : List Char) :
    ofText escapes (c :: rest) = token t [c] :: ofText escapes rest :=
  @ofText_cons_of_scan escapes c [] rest t hc (hs rest)

theorem ofText_leftParen (rest : List Char) :
    ofText escapes ('(' :: rest) = token .leftParen ['('] :: ofText escapes rest :=
  ofText_cons_of_single (by decide) (fun _ => rfl) rest

theorem ofText_rightParen (rest : List Char) :
    ofText escapes (')' :: rest) = token .rightParen [')'] :: ofText escapes rest :=
  ofText_cons_of_single (by decide) (fun _ => rfl) rest

theorem ofText_comma (rest : List Char) :
    ofText escapes (',' :: rest) = token .comma [','] :: ofText escapes rest :=
  ofText_cons_of_single (by decide) (fun _ => rfl) rest

theorem ofText_space {rest : List Char} (hr : ∀ c, rest.head? = some c → isBlank c = false) :
    ofText escapes (' ' :: rest) = blank [' '] :: ofText escapes rest :=
  @ofText_append_of_blank escapes [' '] rest (List.cons_ne_nil _ _)
    (fun c hc => by rw [List.mem_singleton.1 hc]; decide) hr

/-! ## Closed text -/

/-- In front of every delimiter the text is cut into the same pieces. -/
def Closed (escapes : Bool) (cs : List Char) (ps : List Piece) : Prop :=
  ∀ rest, Delimited rest → ofText escapes (cs ++ rest) = ps ++ ofText escapes rest

/-- The text starts with a character that is not blank. -/
def Solid (cs : List Char) : Prop := ∃ c ds, cs = c :: ds ∧ isBlank c = false

theorem Solid.append {cs : List Char} (h : Solid cs) (ds : List Char) : Solid (cs ++ ds) := by
  obtain ⟨c, es, rfl, hc⟩ := h
  exact ⟨c, es ++ ds, rfl, hc⟩

theorem Solid.head {cs : List Char} (h : Solid cs) :
    ∀ c, cs.head? = some c → isBlank c = false := by
  obtain ⟨c, es, rfl, hc⟩ := h
  intro d hd
  rwa [← Option.some.inj hd]

/-- A text whose first piece is a token starts with no blank. -/
theorem solid_of_ofText {cs ds : List Char} {t : Token} {ps : List Piece}
    (h : ofText escapes cs = .token t ds :: ps) : Solid cs := by
  cases cs with
  | nil =>
    rw [ofText] at h
    exact absurd h (List.cons_ne_nil _ _).symm
  | cons c cs =>
    refine ⟨c, cs, rfl, ?_⟩
    by_contra hc
    rw [ofText, if_pos ((Bool.not_eq_false _).mp hc)] at h
    exact Piece.noConfusion (List.cons.inj h).1

namespace Closed

theorem ofText_eq {cs : List Char} {ps : List Piece} (h : Closed escapes cs ps) :
    ofText escapes cs = ps := by
  have := h [] delimited_nil
  rwa [List.append_nil, ofText, List.append_nil] at this

/-- A token on its own is closed, comments and open quotes excepted. -/
theorem of_scan {c : Char} {cs : List Char} {t : Token} (hc : isBlank c = false)
    (ht : t ≠ .comment) (ho : Token.isOpen t c = false)
    (hs : Token.scan escapes c cs = (t, cs.length)) :
    Closed escapes (c :: cs) [token t (c :: cs)] := by
  intro rest hr
  have hcut : Curtailed [] rest := .stop hr
  refine ofText_cons_of_scan hc (Token.scan_of_curtailed hcut ht ho ?_)
  rwa [List.append_nil]

theorem space {as bs : List Char} {ps qs : List Piece} (ha : Closed escapes as ps)
    (hb : Closed escapes bs qs) (hs : Solid bs) :
    Closed escapes (as ++ ' ' :: bs) (ps ++ blank [' '] :: qs) := by
  intro rest hr
  have hd : Delimited (' ' :: (bs ++ rest)) := delimited_cons.2 (by decide)
  rw [List.append_assoc, List.cons_append, ha _ hd, ofText_space (hs.append rest).head, hb rest hr,
    List.append_assoc, List.cons_append]

theorem comma {as bs : List Char} {ps qs : List Piece} (ha : Closed escapes as ps)
    (hb : Closed escapes bs qs) (hs : Solid bs) :
    Closed escapes (as ++ ',' :: ' ' :: bs)
      (ps ++ token .comma [','] :: blank [' '] :: qs) := by
  intro rest hr
  have hd : Delimited (',' :: ' ' :: (bs ++ rest)) := delimited_cons.2 (by decide)
  rw [List.append_assoc, List.cons_append, List.cons_append, ha _ hd, ofText_comma,
    ofText_space (hs.append rest).head, hb rest hr, List.append_assoc]
  rfl

theorem parenthesized {cs : List Char} {ps : List Piece} (h : Closed escapes cs ps) :
    Closed escapes ('(' :: cs ++ [')'])
      (token .leftParen ['('] :: ps ++ [token .rightParen [')']]) := by
  intro rest hr
  have hd : Delimited (')' :: rest) := delimited_cons.2 (by decide)
  rw [List.append_assoc, List.cons_append, ofText_leftParen, List.cons_append, List.nil_append,
    h _ hd, ofText_rightParen, List.cons_append, List.cons_append, List.append_assoc]
  rfl

end Closed

theorem solid_parenthesized (cs : List Char) : Solid ('(' :: cs ++ [')']) :=
  ⟨'(', cs ++ [')'], rfl, by decide⟩

/-! ## Tokens -/

/-- The tokens among the pieces, without comments. -/
def tokens : List Piece → List Token
  | [] => []
  | blank _ :: ps => tokens ps
  | token t _ :: ps => if t = .comment then tokens ps else t :: tokens ps

@[simp] theorem tokens_nil : tokens [] = [] := rfl

@[simp] theorem tokens_blank (cs : List Char) (ps : List Piece) :
    tokens (blank cs :: ps) = tokens ps := rfl

theorem tokens_token {t : Token} (ht : t ≠ .comment) (cs : List Char) (ps : List Piece) :
    tokens (token t cs :: ps) = t :: tokens ps := if_neg ht

@[simp] theorem tokens_append (ps qs : List Piece) :
    tokens (ps ++ qs) = tokens ps ++ tokens qs := by
  induction ps with
  | nil => rfl
  | cons p ps ih =>
    cases p with
    | blank cs => exact ih
    | token t cs =>
      simp only [List.cons_append, tokens, ih]
      split_ifs <;> rfl

/-- The tokens of the words are those of the pieces. -/
theorem map_token_ofPieces (gap ps : List Piece) :
    (Word.ofPieces gap ps).map Word.token = tokens ps := by
  induction ps generalizing gap with
  | nil => rfl
  | cons p ps ih =>
    cases p with
    | blank cs => exact ih _
    | token t cs =>
      simp only [Word.ofPieces, tokens]
      split_ifs with ht
      · exact ih _
      · rw [List.map_cons, ih]

end Piece

/-! ## Words -/

namespace Word

/-- The words with another layout before the first one. -/
def behind (gap : List Piece) : List Word → List Word
  | [] => []
  | w :: ws => { w with before := gap } :: ws

section Behind

variable (gap : List Piece) (ws : List Word)

@[simp] theorem map_token_behind : (behind gap ws).map token = ws.map token := by
  cases ws <;> rfl

@[simp] theorem pieces_behind : pieces (behind gap ws) = pieces ws := by
  cases ws <;> rfl

@[simp] theorem source_behind : source (behind gap ws) = source ws := by
  unfold source
  rw [pieces_behind]

@[simp] theorem behind_behind (gap' : List Piece) :
    behind gap (behind gap' ws) = behind gap ws := by
  cases ws <;> rfl

@[simp] theorem behind_eq_nil_iff : behind gap ws = [] ↔ ws = [] := by
  cases ws <;> simp [behind]

theorem behind_append (hne : ws ≠ []) (vs : List Word) :
    behind gap (ws ++ vs) = behind gap ws ++ vs := by
  cases ws with
  | nil => exact absurd rfl hne
  | cons w ws => rfl

end Behind

/-- None of the words is a comment, and nothing but blanks is between them. -/
def Plain (ws : List Word) : Prop :=
  ∀ w ∈ ws, w.token ≠ .comment ∧ ∀ p ∈ w.before, ∃ cs, p = .blank cs

theorem Plain.append {ws vs : List Word} (hw : Plain ws) (hv : Plain vs) : Plain (ws ++ vs) :=
  List.forall_mem_append.2 ⟨hw, hv⟩

theorem Plain.behind {gap : List Piece} (hgap : ∀ p ∈ gap, ∃ cs, p = .blank cs) {ws : List Word}
    (h : Plain ws) : Plain (behind gap ws) := by
  cases ws with
  | nil => exact h
  | cons w ws =>
    obtain ⟨hw, hws⟩ := List.forall_mem_cons.1 h
    exact List.forall_mem_cons.2 ⟨⟨hw.1, hgap⟩, hws⟩

theorem plain_singleton {t : Token} (ht : t ≠ .comment) (cs : List Char) : Plain [⟨t, cs, []⟩] := by
  intro w hw
  rw [List.mem_singleton.1 hw]
  exact ⟨ht, fun p hp => absurd hp List.not_mem_nil⟩

theorem pieces_append {ws vs : List Word} (hw : ws ≠ []) (hv : vs ≠ []) (gap : List Piece) :
    pieces (ws ++ Word.behind gap vs) = pieces ws ++ (gap ++ pieces vs) := by
  cases ws with
  | nil => exact absurd rfl hw
  | cons w ws =>
    cases vs with
    | nil => exact absurd rfl hv
    | cons v vs => simp [pieces, behind]

theorem ofPieces_blanks {gap before : List Piece} (h : ∀ p ∈ before, ∃ cs, p = .blank cs)
    (ps : List Piece) : ofPieces gap (before ++ ps) = ofPieces (gap ++ before) ps := by
  induction before generalizing gap with
  | nil => rw [List.nil_append, List.append_nil]
  | cons p before ih =>
    obtain ⟨⟨cs, rfl⟩, hbefore⟩ := List.forall_mem_cons.1 h
    rw [List.cons_append, ofPieces, ih hbefore, List.append_assoc]
    rfl

/-- Plain words are those of their pieces. -/
theorem ofPieces_pieces (gap : List Piece) {ws : List Word} (h : Plain ws) :
    ofPieces gap (pieces ws) = behind gap ws := by
  have htail : ∀ vs : List Word, Plain vs →
      ofPieces [] (vs.flatMap fun v => v.before ++ [.token v.token v.chars]) = vs := by
    intro vs hvs
    induction vs with
    | nil => rfl
    | cons v vs ih =>
      obtain ⟨⟨hv, hb⟩, hvs⟩ := List.forall_mem_cons.1 hvs
      rw [List.flatMap_cons, List.append_assoc, ofPieces_blanks hb, List.nil_append,
        List.singleton_append, ofPieces, if_neg hv, ih hvs]
  cases ws with
  | nil => rfl
  | cons w ws =>
    obtain ⟨⟨hw, -⟩, hws⟩ := List.forall_mem_cons.1 h
    rw [pieces, ofPieces, if_neg hw, htail ws hws]
    rfl

end Word

/-! ## Spelled words -/

/-- The words in written parentheses. -/
def Word.parenthesized (ws : List Word) : List Word :=
  ⟨.leftParen, ['('], []⟩ :: (ws ++ [⟨.rightParen, [')'], []⟩])

namespace Piece

variable {escapes : Bool}

/-- The text is closed and consists of the words, which are plain. -/
structure Written (escapes : Bool) (cs : List Char) (ws : List Word) : Prop where
  ne_nil : ws ≠ []
  behind_eq : Word.behind [] ws = ws
  plain : Word.Plain ws
  closed : Closed escapes cs (Word.pieces ws)

namespace Written

variable {as bs : List Char} {ws vs : List Word}

theorem ofText_eq {s : String} (h : Written escapes s.toList ws) : Word.ofText escapes s = ws := by
  rw [Word.ofText, h.closed.ofText_eq, Word.ofPieces_pieces [] h.plain, h.behind_eq]

theorem chars_eq (h : Written escapes as ws) : (Word.pieces ws).flatMap chars = as := by
  rw [← h.closed.ofText_eq, chars_ofText]

theorem solid (h : Written escapes as ws) : Solid as := by
  obtain ⟨hne, -, -, hclosed⟩ := h
  cases ws with
  | nil => exact absurd rfl hne
  | cons w ws => exact solid_of_ofText hclosed.ofText_eq

theorem of_scan {c : Char} {cs : List Char} {t : Token} (hc : isBlank c = false)
    (ht : t ≠ .comment) (ho : Token.isOpen t c = false)
    (hs : Token.scan escapes c cs = (t, cs.length)) :
    Written escapes (c :: cs) [⟨t, c :: cs, []⟩] :=
  ⟨List.cons_ne_nil _ _, rfl, Word.plain_singleton ht _, .of_scan hc ht ho hs⟩

theorem behind_append (h : Written escapes as ws) (vs : List Word) :
    Word.behind [] (ws ++ vs) = ws ++ vs := by
  rw [Word.behind_append [] ws h.ne_nil, h.behind_eq]

theorem space (ha : Written escapes as ws) (hb : Written escapes bs vs) :
    Written escapes (as ++ ' ' :: bs) (ws ++ Word.behind [.blank [' ']] vs) := by
  refine ⟨List.append_ne_nil_of_left_ne_nil ha.ne_nil _, ha.behind_append _,
    ha.plain.append (hb.plain.behind fun p hp => ⟨_, List.mem_singleton.1 hp⟩), ?_⟩
  rw [Word.pieces_append ha.ne_nil hb.ne_nil]
  exact ha.closed.space hb.closed hb.solid

theorem comma (ha : Written escapes as ws) (hb : Written escapes bs vs) :
    Written escapes (as ++ ',' :: ' ' :: bs)
      (ws ++ ⟨.comma, [','], []⟩ :: Word.behind [.blank [' ']] vs) := by
  have hcomma := Word.plain_singleton (by decide : Token.comma ≠ .comment) [',']
  refine ⟨List.append_ne_nil_of_left_ne_nil ha.ne_nil _, ha.behind_append _,
    ha.plain.append (hcomma.append
    (hb.plain.behind fun p hp => ⟨_, List.mem_singleton.1 hp⟩)), ?_⟩
  have hpieces : Word.pieces (ws ++ ⟨.comma, [','], []⟩ :: Word.behind [.blank [' ']] vs) =
      Word.pieces ws ++ token .comma [','] :: blank [' '] :: Word.pieces vs := by
    have := @Word.pieces_append [⟨.comma, [','], []⟩] vs (List.cons_ne_nil _ _) hb.ne_nil
      [.blank [' ']]
    have hws := @Word.pieces_append ws ([⟨.comma, [','], []⟩] ++ Word.behind [.blank [' ']] vs)
      ha.ne_nil (List.cons_ne_nil _ _) []
    rw [this] at hws
    exact hws
  rw [hpieces]
  exact ha.closed.comma hb.closed hb.solid

theorem parenthesized (h : Written escapes as ws) :
    Written escapes ('(' :: as ++ [')']) (Word.parenthesized ws) := by
  have hleft := Word.plain_singleton (by decide : Token.leftParen ≠ .comment) ['(']
  have hright := Word.plain_singleton (by decide : Token.rightParen ≠ .comment) [')']
  refine ⟨List.cons_ne_nil _ _, rfl, hleft.append (h.plain.append hright), ?_⟩
  have hpieces : Word.pieces (Word.parenthesized ws) =
      token .leftParen ['('] :: Word.pieces ws ++ [token .rightParen [')']] := by
    have hbody := @Word.pieces_append ws [⟨.rightParen, [')'], []⟩] h.ne_nil
      (List.cons_ne_nil _ _) []
    have := @Word.pieces_append [⟨.leftParen, ['('], []⟩] (ws ++ [⟨.rightParen, [')'], []⟩])
      (List.cons_ne_nil _ _) (List.append_ne_nil_of_left_ne_nil h.ne_nil _) []
    rw [h.behind_append] at this
    exact this.trans (congrArg (token .leftParen ['('] :: ·) hbody)
  rw [hpieces]
  exact h.closed.parenthesized

end Written

/-- The text is written with words that are these tokens. -/
def Spells (escapes : Bool) (cs : List Char) (ts : List Token) : Prop :=
  ∃ ws, Written escapes cs ws ∧ ws.map Word.token = ts

namespace Spells

variable {as bs : List Char} {ts us : List Token}

theorem of_scan {c : Char} {cs : List Char} {t : Token} (hc : isBlank c = false)
    (ht : t ≠ .comment) (ho : Token.isOpen t c = false)
    (hs : Token.scan escapes c cs = (t, cs.length)) : Spells escapes (c :: cs) [t] :=
  ⟨_, .of_scan hc ht ho hs, rfl⟩

/-- Closed text of one token. -/
theorem of_closed {t : Token} (ht : t ≠ .comment) (h : Closed escapes as [token t as]) :
    Spells escapes as [t] :=
  ⟨[⟨t, as, []⟩], ⟨List.cons_ne_nil _ _, rfl, Word.plain_singleton ht as, h⟩, rfl⟩

theorem solid (h : Spells escapes as ts) : Solid as := by
  obtain ⟨ws, hws, -⟩ := h
  exact hws.solid

theorem space (ha : Spells escapes as ts) (hb : Spells escapes bs us) :
    Spells escapes (as ++ ' ' :: bs) (ts ++ us) := by
  obtain ⟨ws, hws, rfl⟩ := ha
  obtain ⟨vs, hvs, rfl⟩ := hb
  exact ⟨_, hws.space hvs, by rw [List.map_append, Word.map_token_behind]⟩

theorem comma (ha : Spells escapes as ts) (hb : Spells escapes bs us) :
    Spells escapes (as ++ ',' :: ' ' :: bs) (ts ++ .comma :: us) := by
  obtain ⟨ws, hws, rfl⟩ := ha
  obtain ⟨vs, hvs, rfl⟩ := hb
  exact ⟨_, hws.comma hvs, by rw [List.map_append, List.map_cons, Word.map_token_behind]⟩

theorem parenthesized (h : Spells escapes as ts) :
    Spells escapes ('(' :: as ++ [')']) (.leftParen :: (ts ++ [.rightParen])) := by
  obtain ⟨ws, hws, rfl⟩ := h
  refine ⟨_, hws.parenthesized, ?_⟩
  rw [Word.parenthesized, List.map_cons, List.map_append]
  rfl

theorem tokens_eq {s : String} (h : Spells escapes s.toList ts) :
    (Word.ofText escapes s).map Word.token = ts := by
  obtain ⟨ws, hws, rfl⟩ := h
  rw [hws.ofText_eq]

end Spells

end Piece

end SqlFilter
