import SqlFilter.Proofs.Token.Source

/-!
# Text that ends where it ends

A literal that is never closed and a comment that nothing ends reach as far as the text does, so
that text written behind them is lost in them. Text whose last piece is neither is ended: in front
of a delimiter it is cut into the same words (`Piece.Ended.exists_words_append`).
-/

namespace SqlFilter

open Text

/-! ## Comments -/

namespace Token

/-- Whether the text behind the opening mark of a comment has its closing mark. -/
def closesComment : List Char → Bool
  | [] => false
  | [_] => false
  | c :: d :: cs => (c == '*' && d == '/') || closesComment (d :: cs)

/-- A comment without its closing mark reaches as far as the text does. -/
theorem commentSize_of_not_closes {cs : List Char} (h : closesComment cs = false) :
    commentSize cs = cs.length := by
  fun_induction closesComment cs with
  | case1 => rfl
  | case2 c => rfl
  | case3 c d cs ih =>
    obtain ⟨hmark, hrest⟩ := Bool.or_eq_false_iff.1 h
    rw [commentSize, if_neg (by rw [hmark]; exact Bool.false_ne_true), ih hrest]
    rfl

/-- A comment with its closing mark ends there, whatever follows. -/
theorem commentSize_append {cs : List Char} (h : closesComment cs = true) (more : List Char) :
    commentSize (cs ++ more) = commentSize cs := by
  fun_induction closesComment cs with
  | case1 => cases h
  | case2 c => cases h
  | case3 c d cs ih =>
    rw [List.cons_append, List.cons_append, commentSize, commentSize]
    by_cases hmark : (c == '*' && d == '/') = true
    · rw [if_pos hmark, if_pos hmark]
    · rw [if_neg hmark, if_neg hmark]
      rw [Bool.not_eq_true] at hmark
      rw [hmark, Bool.false_or] at h
      exact congrArg (· + 1) (ih h)

theorem commentSize_ne_zero {cs : List Char} (h : cs ≠ []) : commentSize cs ≠ 0 := by
  fun_cases commentSize cs with
  | case1 => exact absurd rfl h
  | case2 c => exact Nat.one_ne_zero
  | case3 c d cs => exact Nat.succ_ne_zero 1
  | case4 c d cs => exact Nat.succ_ne_zero _

/-- A comment that ends before the text does has its closing mark. -/
theorem closesComment_of_commentSize {cs more : List Char} (hmore : more ≠ [])
    (h : commentSize (cs ++ more) = cs.length) : closesComment cs = true := by
  fun_induction closesComment cs with
  | case1 => exact absurd h (commentSize_ne_zero hmore)
  | case2 c =>
    obtain ⟨d, more, rfl⟩ := List.exists_cons_of_ne_nil hmore
    rw [List.singleton_append, commentSize] at h
    split_ifs at h
    · cases h
    · exact absurd (Nat.succ.inj h) (commentSize_ne_zero hmore)
  | case3 c d cs ih =>
    rw [List.cons_append, List.cons_append, commentSize] at h
    by_cases hmark : (c == '*' && d == '/') = true
    · rw [hmark]
      rfl
    · rw [if_neg hmark] at h
      rw [ih (Nat.succ.inj h), Bool.or_true]

variable {escapes : Bool} {c : Char} {t : Token} {cs : List Char} {n : Nat}

/-- A comment starts with one of its two marks. -/
theorem eq_of_scan_comment (h : scan escapes c cs = (comment, n)) :
    c = '-' ∧ cs.head? = some '-' ∧ n = (cs.takeWhile (· ≠ '\n')).length ∨
      c = '/' ∧ cs.head? = some '*' ∧ n = 1 + commentSize cs.tail := by
  refine scan_cases (P := fun r => r = (comment, n) → _) escapes c cs
    ?single ?line ?block ?double ?quoted ?number ?name h
  case single => exact fun u hu heq => absurd (Prod.mk.inj heq).1 hu
  case line => exact fun hc hh heq => .inl ⟨hc, hh, (congrArg Prod.snd heq).symm⟩
  case block => exact fun hc hh heq => .inr ⟨hc, hh, (congrArg Prod.snd heq).symm⟩
  case double => exact fun d u _ _ hu heq => absurd (Prod.mk.inj heq).1 hu
  case quoted =>
    intro token e close _ _ htoken heq
    unfold scanQuoted at heq
    split at heq
    · exact absurd (Prod.mk.inj heq).1 (htoken _)
    · cases heq
  case number =>
    intro _ heq
    unfold scanNumber at heq
    dsimp only at heq
    split at heq <;> cases heq
  case name =>
    intro heq
    unfold scanName ofWord at heq
    dsimp only at heq
    split at heq <;> cases heq

end Token

/-! ## Ended text -/

namespace Piece

variable {escapes : Bool}

/-- Whether the token that starts with `c` is a literal that is never closed, a comment up to the
end of the line, or one without its closing mark. -/
def isOpenToken (t : Token) (c : Char) (cs : List Char) : Bool :=
  if t = .comment then c == '-' || !Token.closesComment cs.tail else Token.isOpen t c

/-- Whether the piece goes on if the text does. -/
def isOpen : Piece → Bool
  | blank _ => false
  | token _ [] => false
  | token t (c :: cs) => isOpenToken t c cs

/-- The text does not end with a literal or a comment that is open. -/
def Ended (escapes : Bool) (cs : List Char) : Prop :=
  ∀ p ∈ (ofText escapes cs).getLast?, p.isOpen = false

instance (escapes : Bool) (cs : List Char) : Decidable (Ended escapes cs) :=
  inferInstanceAs (Decidable (∀ p ∈ (ofText escapes cs).getLast?, p.isOpen = false))

/-- A blank in front of a text joins the blanks that the text starts with, or is a piece of its
own. -/
theorem exists_ofText_cons_blank {c : Char} (hc : isBlank c = true) (cs : List Char) :
    ∃ bs ps, ofText escapes (c :: cs) = .blank bs :: ps ∧
      (ofText escapes cs = ps ∨ ∃ bs', ofText escapes cs = .blank bs' :: ps) := by
  rw [ofText, if_pos hc]
  cases cs with
  | nil => exact ⟨_, _, rfl, .inl rfl⟩
  | cons d cs =>
    by_cases hd : isBlank d = true
    · refine ⟨_, _, rfl, .inr ⟨d :: cs.take (cs.takeWhile isBlank).length, ?_⟩⟩
      rw [ofText, if_pos hd, List.takeWhile_cons_of_pos hd]
      rfl
    · refine ⟨_, _, rfl, .inl ?_⟩
      rw [List.takeWhile_cons_of_neg hd]
      rfl

/-- A blank in front of a text does not change its tokens. -/
theorem tokens_ofText_cons_blank {c : Char} (hc : isBlank c = true) (cs : List Char) :
    tokens (ofText escapes (c :: cs)) = tokens (ofText escapes cs) := by
  obtain ⟨bs, ps, h, hcs | ⟨bs', hcs⟩⟩ := @exists_ofText_cons_blank escapes c hc cs
  · rw [h, hcs, tokens_blank]
  · rw [h, hcs, tokens_blank, tokens_blank]

theorem tokens_ofText_blanks {bs : List Char} (hb : ∀ c ∈ bs, isBlank c = true)
    (cs : List Char) : tokens (ofText escapes (bs ++ cs)) = tokens (ofText escapes cs) := by
  induction bs with
  | nil => rfl
  | cons b bs ih =>
    obtain ⟨hhead, htail⟩ := List.forall_mem_cons.1 hb
    rw [List.cons_append, tokens_ofText_cons_blank hhead, ih htail]

section Scan

variable {cs behind rest : List Char}

/-- A comment up to the end of its line has no end of a line in it and ends at one, if the text goes
on. -/
theorem line_of_scan (hs : Token.scan escapes '-' (cs ++ behind) = (.comment, cs.length)) :
    (∀ x ∈ cs, x ≠ '\n') ∧ cs.head? = some '-' ∧
      (behind ≠ [] → ∃ more, behind = '\n' :: more) := by
  obtain ⟨-, hhead, hn⟩ | ⟨hc, -⟩ := Token.eq_of_scan_comment hs
  · have hline : (cs ++ behind).takeWhile (· ≠ '\n') = cs := by
      rw [← Token.take_length_takeWhile, ← hn, List.take_left]
    have hcs : ∀ x ∈ cs, decide (x ≠ '\n') = true := fun x hx =>
      List.all_eq_true.1 List.all_takeWhile x (hline.symm ▸ hx)
    rw [List.takeWhile_append_of_pos hcs, List.append_right_eq_self] at hline
    have hbehind : ∀ b, behind.head? = some b → b = '\n' := by
      intro b hb
      obtain ⟨bs, rfl⟩ := List.head?_eq_some_iff.1 hb
      by_contra hb
      rw [List.takeWhile_cons, if_pos (decide_eq_true hb)] at hline
      cases hline
    refine ⟨fun x hx => of_decide_eq_true (hcs x hx), ?_, fun hne => ?_⟩
    · cases cs with
      | nil => exact absurd (hbehind '-' hhead) (by decide)
      | cons c cs => exact hhead
    · obtain ⟨b, bs, rfl⟩ := List.exists_cons_of_ne_nil hne
      exact ⟨bs, by rw [hbehind b rfl]⟩
  · exact absurd hc (by decide)

/-- A comment up to the end of its line is the same in front of every further line. -/
theorem scan_line (hcs : ∀ x ∈ cs, x ≠ '\n') (hhead : cs.head? = some '-') (more : List Char) :
    Token.scan escapes '-' (cs ++ '\n' :: more) = (.comment, cs.length) := by
  have hscan : ∀ ds, Token.scan escapes '-' ds = if ds.head? = some '-' then
      (.comment, (ds.takeWhile (· ≠ '\n')).length) else (.minus, 0) := fun _ => rfl
  have hhead' : (cs ++ '\n' :: more).head? = some '-' := by
    rw [List.head?_append, hhead]
    rfl
  have hline : (cs ++ '\n' :: more).takeWhile (· ≠ '\n') = cs :=
    takeWhile_append_of_head (fun x hx => decide_eq_true (hcs x hx)) fun y hy => by
      rw [← Option.some.inj hy]
      rfl
  rw [hscan, if_pos hhead', hline]

/-- A comment that ends before the text does has its closing mark. -/
theorem closesComment_of_scan (hne : behind ≠ [])
    (hs : Token.scan escapes '/' (cs ++ behind) = (.comment, cs.length)) :
    Token.closesComment cs.tail = true := by
  obtain ⟨hc, -⟩ | ⟨-, hhead, hn⟩ := Token.eq_of_scan_comment hs
  · exact absurd hc (by decide)
  · cases cs with
    | nil =>
      rw [List.length_nil] at hn
      omega
    | cons c cs =>
      rw [List.length_cons, Nat.add_comm] at hn
      exact Token.closesComment_of_commentSize hne (Nat.add_left_cancel hn).symm

/-- A comment with its closing mark is the same whatever follows. -/
theorem scan_block (hclosed : Token.closesComment cs.tail = true)
    (hs : Token.scan escapes '/' (cs ++ behind) = (.comment, cs.length)) (more : List Char) :
    Token.scan escapes '/' (cs ++ more) = (.comment, cs.length) := by
  have hscan : ∀ ds, Token.scan escapes '/' ds = if ds.head? = some '*' then
      (.comment, 1 + Token.commentSize ds.tail) else (.illegal, 0) := fun _ => rfl
  obtain ⟨hc, -⟩ | ⟨-, hhead, hn⟩ := Token.eq_of_scan_comment hs
  · exact absurd hc (by decide)
  · cases cs with
    | nil => cases hclosed
    | cons c cs =>
      obtain rfl : c = '*' := Option.some.inj hhead
      rw [List.tail_cons] at hclosed
      have hsize : Token.commentSize (cs ++ more) = Token.commentSize (cs ++ behind) := by
        rw [Token.commentSize_append hclosed, Token.commentSize_append hclosed]
      refine (hscan _).trans ((if_pos rfl).trans (Prod.ext rfl ?_))
      show 1 + Token.commentSize (cs ++ more) = cs.length + 1
      rw [hsize]
      exact hn.symm

/-- A token behind which the text goes on, or that is not open, stays the same in front of a
delimiter. -/
theorem scan_append {c : Char} {t : Token} (hr : Delimited rest)
    (hs : Token.scan escapes c (cs ++ behind) = (t, cs.length))
    (ho : behind = [] → isOpenToken t c cs = false) :
    Token.scan escapes c (cs ++ (behind ++ rest)) = (t, cs.length) := by
  by_cases ht : t = .comment
  · subst ht
    have hclosed : behind = [] → c ≠ '-' ∧ Token.closesComment cs.tail = true := by
      intro hb
      obtain ⟨hc, hcloses⟩ := Bool.or_eq_false_iff.1 (ho hb)
      exact ⟨beq_eq_false_iff_ne.1 hc, by simpa using hcloses⟩
    obtain ⟨rfl, -⟩ | ⟨rfl, -⟩ := Token.eq_of_scan_comment hs
    · obtain ⟨hcs, hhead, hmore⟩ := line_of_scan hs
      obtain ⟨more, rfl⟩ := hmore fun hb => (hclosed hb).1 rfl
      exact scan_line hcs hhead (more ++ rest)
    · refine scan_block ?_ hs (behind ++ rest)
      by_cases hb : behind = []
      · exact (hclosed hb).2
      · exact closesComment_of_scan hb hs
  · by_cases hquote : Token.isOpen t c = true
    · have hopen := ho (Token.eq_nil_of_isOpen hquote hs)
      rw [isOpenToken, if_neg ht, hquote] at hopen
      cases hopen
    · have hcut : Curtailed (behind ++ []) (behind ++ rest) := (Curtailed.stop hr).append behind
      rw [List.append_nil] at hcut
      exact Token.scan_of_curtailed hcut ht ((Bool.not_eq_true _).mp hquote) hs

end Scan

/-- What is behind the first piece of ended text is ended. -/
theorem isOpen_of_getLast?_cons {p : Piece} {ps : List Piece}
    (h : ∀ q ∈ (p :: ps).getLast?, q.isOpen = false) : ∀ q ∈ ps.getLast?, q.isOpen = false := by
  intro q hq
  refine h q ?_
  rw [List.getLast?_cons, Option.mem_def.1 hq]
  rfl

/-! ## The words of ended text -/

/-- Layout makes no difference to words but in front of the first one. -/
theorem exists_ofPieces_eq (gap gap' ps : List Piece) :
    ∃ g, Word.ofPieces gap ps = Word.behind g (Word.ofPieces gap' ps) := by
  induction ps generalizing gap gap' with
  | nil => exact ⟨[], rfl⟩
  | cons p ps ih =>
    cases p with
    | blank cs => exact ih _ _
    | token t cs =>
      rw [Word.ofPieces, Word.ofPieces]
      split_ifs
      · exact ih _ _
      · exact ⟨gap, rfl⟩

theorem exists_ofPieces_cons_blank {c : Char} (hc : isBlank c = true) (gap : List Piece)
    (cs : List Char) : ∃ g, Word.ofPieces gap (ofText escapes (c :: cs)) =
      Word.behind g (Word.ofPieces [] (ofText escapes cs)) := by
  obtain ⟨bs, ps, h, hcs | ⟨bs', hcs⟩⟩ := @exists_ofText_cons_blank escapes c hc cs
  · rw [h, hcs, Word.ofPieces]
    exact exists_ofPieces_eq _ _ _
  · rw [h, hcs, Word.ofPieces, Word.ofPieces]
    exact exists_ofPieces_eq _ _ _

theorem exists_ofPieces_blanks {bs : List Char} (hb : ∀ c ∈ bs, isBlank c = true)
    (gap : List Piece) (cs : List Char) : ∃ g, Word.ofPieces gap (ofText escapes (bs ++ cs)) =
      Word.behind g (Word.ofPieces [] (ofText escapes cs)) := by
  induction bs generalizing gap with
  | nil => exact exists_ofPieces_eq gap [] _
  | cons b bs ih =>
    obtain ⟨hhead, htail⟩ := List.forall_mem_cons.1 hb
    obtain ⟨g, hg⟩ := @exists_ofPieces_cons_blank escapes b hhead gap (bs ++ cs)
    obtain ⟨g', hg'⟩ := ih htail []
    exact ⟨g, by rw [List.cons_append, hg, hg', Word.behind_behind]⟩

theorem drop_length_takeWhile (p : Char → Bool) (xs : List Char) :
    xs.drop (xs.takeWhile p).length = xs.dropWhile p := by
  have htake := List.take_append_drop (xs.takeWhile p).length xs
  rw [Token.take_length_takeWhile] at htake
  exact List.append_cancel_left (htake.trans List.takeWhile_append_dropWhile.symm)

/-- Behind a run of blanks there is none. -/
theorem isBlank_of_head?_drop {cs rest : List Char} {d : Char}
    (hne : cs.drop (cs.takeWhile isBlank).length ≠ [])
    (h : (cs.drop (cs.takeWhile isBlank).length ++ rest).head? = some d) : isBlank d = false := by
  have hhead := List.head?_dropWhile_not isBlank cs
  rw [← drop_length_takeWhile] at hhead
  obtain ⟨e, es, he⟩ := List.exists_cons_of_ne_nil hne
  rw [he] at h hhead
  rwa [← Option.some.inj h]

/-- **Ended text** is cut into the same words in front of a delimiter, and so is what is behind it
up to the layout in between. -/
theorem Ended.exists_words_append {cs rest : List Char} (h : Ended escapes cs)
    (hr : Delimited rest) (gap : List Piece) :
    ∃ g, Word.ofPieces gap (ofText escapes (cs ++ rest)) =
      Word.ofPieces gap (ofText escapes cs) ++
        Word.behind g (Word.ofPieces [] (ofText escapes rest)) := by
  unfold Ended at h
  fun_induction ofText escapes cs generalizing gap with
  | case1 => exact exists_ofPieces_eq gap [] _
  | case2 c cs hb n ih =>
    have hblank : ∀ d ∈ c :: cs.take n, isBlank d = true :=
      List.forall_mem_cons.2 ⟨hb, fun d hd => isBlank_of_mem_take hd⟩
    have htext : c :: cs ++ rest = c :: cs.take n ++ (cs.drop n ++ rest) := by
      rw [List.cons_append, List.cons_append, ← List.append_assoc, List.take_append_drop]
    rw [htext]
    -- blanks at the end of the text run on into what is behind it
    by_cases hdrop : cs.drop n = []
    · rw [hdrop, ofText]
      exact exists_ofPieces_blanks hblank gap rest
    · have hnext : ∀ d, (cs.drop n ++ rest).head? = some d → isBlank d = false := by
        intro d hd
        exact isBlank_of_head?_drop hdrop hd
      obtain ⟨g, hg⟩ := ih (isOpen_of_getLast?_cons h) (gap ++ [.blank (c :: cs.take n)])
      exact ⟨g, by
        rw [ofText_append_of_blank (List.cons_ne_nil _ _) hblank hnext, Word.ofPieces, hg,
          Word.ofPieces]⟩
  | case3 c cs hb t n hscan ih =>
    have hlen : (cs.take n).length = n := List.length_take_of_le (Token.scan_le hscan)
    have htext : c :: cs ++ rest = c :: (cs.take n ++ (cs.drop n ++ rest)) := by
      rw [List.cons_append, ← List.append_assoc, List.take_append_drop]
    have hs : Token.scan escapes c (cs.take n ++ (cs.drop n ++ rest)) =
        (t, (cs.take n).length) := by
      refine scan_append hr ?_ fun hbehind => ?_
      · rw [List.take_append_drop, hscan, hlen]
      · rw [hbehind, ofText] at h
        exact h _ rfl
    rw [htext, ofText_cons_of_scan ((Bool.not_eq_true _).mp hb) hs, Word.ofPieces, Word.ofPieces]
    split_ifs
    · exact ih (isOpen_of_getLast?_cons h) _
    · obtain ⟨g, hg⟩ := ih (isOpen_of_getLast?_cons h) []
      exact ⟨g, by rw [hg, List.cons_append]⟩

/-- Ended text is cut into the same tokens in front of a delimiter. -/
theorem Ended.tokens_append {cs rest : List Char} (h : Ended escapes cs) (hr : Delimited rest) :
    tokens (ofText escapes (cs ++ rest)) =
      tokens (ofText escapes cs) ++ tokens (ofText escapes rest) := by
  obtain ⟨g, hg⟩ := h.exists_words_append hr []
  have := congrArg (List.map Word.token) hg
  rwa [List.map_append, Word.map_token_behind, map_token_ofPieces, map_token_ofPieces,
    map_token_ofPieces] at this

end Piece

end SqlFilter
