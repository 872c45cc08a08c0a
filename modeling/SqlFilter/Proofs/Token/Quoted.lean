import SqlFilter.Proofs.Token.Closed

/-!
# Quoted text is one token

What a dialect puts between quotes is read as one token with the same content
(`ofText_quoteName`, `ofText_quoteString`), whatever the content and the text behind it, as long as
that text does not start with the same mark.
-/

namespace SqlFilter

open Text

namespace Text

/-- The text with every occurrence of `mark` written twice, and every backslash too if it
escapes. -/
def escaped (escapes : Bool) (mark : Char) (cs : List Char) : List Char :=
  cs.flatMap fun c => if c = mark ∨ escapes ∧ c = '\\' then [c, c] else [c]

theorem escaped_cons (escapes : Bool) (mark c : Char) (cs : List Char) :
    escaped escapes mark (c :: cs) =
      (if c = mark ∨ escapes ∧ c = '\\' then [c, c] else [c]) ++ escaped escapes mark cs := rfl

theorem doubled_eq_escaped (mark : Char) (cs : List Char) :
    doubled mark cs = escaped false mark cs := by
  simp [doubled, escaped]

theorem doubled_doubled_eq_escaped {mark : Char} (hm : mark ≠ '\\') (cs : List Char) :
    doubled '\\' (doubled mark cs) = escaped true mark cs := by
  induction cs with
  | nil => rfl
  | cons c cs ih =>
    rw [doubled_cons, escaped_cons, ← ih]
    by_cases hc : c = mark
    · subst hc
      simp [hm]
    · by_cases hb : c = '\\' <;> simp [hc, hb, doubled, Ne.symm hm]

end Text

namespace Token

/-- Content between quotes is read back, up to the mark that closes it. -/
theorem content_escaped {escapes : Bool} {close : Char} (hb : close ≠ '\\') (cs : List Char)
    {rest : List Char} (hr : rest.head? ≠ some close) :
    content escapes close (escaped escapes close cs ++ close :: rest) =
      some (cs, (escaped escapes close cs).length + 1) := by
  induction cs with
  | nil =>
    refine content_eq_one_iff.2 ⟨?_, beq_self_eq_true close, hr, rfl⟩
    simp [hb]
  | cons c cs ih =>
    rw [escaped_cons]
    by_cases hc : c = close
    · subst hc
      simp [content, ih, hb]
    · by_cases he : escapes = true ∧ c = '\\'
      · obtain ⟨rfl, rfl⟩ := he
        simp [content, ih, unescape]
      · obtain ⟨d, ds, hd⟩ : ∃ d ds, escaped escapes close cs ++ close :: rest = d :: ds := by
          cases hx : escaped escapes close cs with
          | nil => exact ⟨_, _, rfl⟩
          | cons d ds => exact ⟨_, _, rfl⟩
        have he' : ¬(escapes && c == '\\') = true := by simpa using he
        have hc' : ¬(c == close) = true := by simpa using hc
        rw [if_neg (by simp [hc, he]), List.cons_append, List.nil_append, List.cons_append, hd,
          content, if_neg he', if_neg hc', ← hd, ih]
        rfl

theorem scan_nameMark (d : Dialect) (escapes : Bool) (cs : List Char) :
    scan escapes d.nameMark cs = scanQuoted quotedName false d.nameMark cs := by
  unfold Dialect.nameMark
  split_ifs <;> rfl

theorem nameMark_ne_backslash (d : Dialect) : d.nameMark ≠ '\\' := by
  cases d <;> decide

theorem isBlank_nameMark (d : Dialect) : isBlank d.nameMark = false := by
  cases d <;> decide

end Token

namespace Dialect

theorem toList_quoteName (d : Dialect) (s : String) :
    (d.quoteName s).toList =
      d.nameMark :: (escaped false d.nameMark s.toList ++ [d.nameMark]) := by
  rw [quoteName, String.toList_ofList, quoted, doubled_eq_escaped, List.cons_append]

theorem toList_quoteString (d : Dialect) (s : String) :
    (d.quoteString s).toList =
      '\'' :: (escaped d.backslashEscapes '\'' s.toList ++ ['\'']) := by
  simp only [quoteString, String.toList_ofList, List.cons_append]
  split_ifs with he
  · rw [doubled_doubled_eq_escaped (by decide), he]
  · rw [doubled_eq_escaped, (Bool.not_eq_true _).mp he]

/-- **Names in quotes** are read as one token. -/
theorem ofText_quoteName (d : Dialect) (escapes : Bool) (s : String) {rest : List Char}
    (hr : rest.head? ≠ some d.nameMark) :
    Piece.ofText escapes ((d.quoteName s).toList ++ rest) =
      .token (.quotedName s) (d.quoteName s).toList :: Piece.ofText escapes rest := by
  rw [toList_quoteName, List.cons_append]
  refine Piece.ofText_cons_of_scan (Token.isBlank_nameMark d) ?_
  rw [Token.scan_nameMark, Token.scanQuoted, List.append_assoc, List.cons_append, List.nil_append,
    Token.content_escaped (Token.nameMark_ne_backslash d) s.toList hr]
  simp only [String.ofList_toList, List.length_append, List.length_cons, List.length_nil]

/-- **Strings in quotes** are read as one token. -/
theorem ofText_quoteString (d : Dialect) (s : String) {rest : List Char}
    (hr : rest.head? ≠ some '\'') :
    Piece.ofText d.backslashEscapes ((d.quoteString s).toList ++ rest) =
      .token (.string s) (d.quoteString s).toList :: Piece.ofText d.backslashEscapes rest := by
  rw [toList_quoteString, List.cons_append]
  refine Piece.ofText_cons_of_scan (by decide) ?_
  have hs : ∀ cs, Token.scan d.backslashEscapes '\'' cs =
      Token.scanQuoted .string d.backslashEscapes '\'' cs := fun _ => rfl
  rw [hs, Token.scanQuoted, List.append_assoc, List.cons_append, List.nil_append,
    Token.content_escaped (by decide) s.toList hr]
  simp only [String.ofList_toList, List.length_append, List.length_cons, List.length_nil]

end Dialect

end SqlFilter
