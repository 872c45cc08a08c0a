import SqlFilter.Proofs.Token.Quoted

/-!
# Places of tokens

The places of tokens count the bytes of the text, so that text in front moves them on by its size
(`Piece.locate_add`). A name or a string in quotes therefore takes up its own text, whatever it
holds, and the tokens behind it are those of the text behind it, moved on (`Dialect.lex_quoted`).
-/

namespace SqlFilter

/-- The size of a text is the number of its bytes. -/
theorem byteCount_toList (s : String) : byteCount s.toList = s.utf8ByteSize := by
  have hcount : ∀ cs : List Char, byteCount cs = cs.utf8Encode.size := by
    intro cs
    induction cs with
    | nil => rfl
    | cons c cs ih =>
      rw [byteCount, ih, List.utf8Encode_cons, ByteArray.size_append, List.utf8Encode_singleton]
      simp
  rw [hcount, ← String.toByteArray_ofList, String.ofList_toList, String.size_toByteArray]

/-- The token `n` bytes further on. -/
def Located.moved (n : Nat) (l : Located) : Located := ⟨l.token, l.start + n, l.stop + n⟩

/-- Pieces that start further on have their tokens further on. -/
theorem Piece.locate_add (offset n : Nat) (ps : List Piece) :
    locate (offset + n) ps = (locate offset ps).map (Located.moved n) := by
  induction ps generalizing offset with
  | nil => rfl
  | cons p ps ih =>
    cases p with
    | blank cs => rw [locate, locate, Nat.add_right_comm, ih]
    | token t cs =>
      rw [locate, locate, List.map_cons, Nat.add_right_comm, ih]
      rfl

/-- A token at the head of a text takes up its characters. -/
theorem lex_append {escapes : Bool} {s rest : String} {t : Token}
    (h : Piece.ofText escapes (s.toList ++ rest.toList) =
      .token t s.toList :: Piece.ofText escapes rest.toList) :
    lex escapes (s ++ rest) =
      ⟨t, 0, s.utf8ByteSize⟩ :: (lex escapes rest).map (Located.moved s.utf8ByteSize) := by
  rw [lex, String.toList_append, h, Piece.locate, byteCount_toList, Piece.locate_add,
    Nat.zero_add]
  rfl

namespace Dialect

/-- **What stands in quotes** is the first token of a text that starts with it, with the content
that was put in quotes, and takes up the quoted text. The tokens behind it are those of the text
behind it, moved on; that text must not start with the mark that closes the quotes. -/
theorem lex_quoted (d : Dialect) (s rest : String) :
    (rest.toList.head? ≠ some d.nameMark → ∀ escapes,
      lex escapes (d.quoteName s ++ rest) =
        ⟨.quotedName s, 0, (d.quoteName s).utf8ByteSize⟩ ::
          (lex escapes rest).map (Located.moved (d.quoteName s).utf8ByteSize)) ∧
    (rest.toList.head? ≠ some '\'' →
      lex d.backslashEscapes (d.quoteString s ++ rest) =
        ⟨.string s, 0, (d.quoteString s).utf8ByteSize⟩ ::
          (lex d.backslashEscapes rest).map (Located.moved (d.quoteString s).utf8ByteSize)) := by
  constructor
  · intro hrest escapes
    exact lex_append (d.ofText_quoteName escapes s hrest)
  · intro hrest
    exact lex_append (d.ofText_quoteString s hrest)

/-- Marks and backslashes at the end of the content do not close the quotes early. -/
theorem lex_quoted_marks :
    " = 1".toList.head? ≠ some mysql.nameMark ∧ " OR x".toList.head? ≠ some '\'' ∧
      (lex true (mysql.quoteName "a\\" ++ " = 1")).head? = some ⟨.quotedName "a\\", 0, 4⟩ ∧
      (lex mysql.backslashEscapes (mysql.quoteString "a'\\" ++ " OR x")).head? =
        some ⟨.string "a'\\", 0, 7⟩ := by
  have hname : " = 1".toList.head? ≠ some mysql.nameMark := by decide
  have hstring : " OR x".toList.head? ≠ some '\'' := by decide
  refine ⟨hname, hstring, ?_, ?_⟩
  · rw [(lex_quoted mysql "a\\" " = 1").1 hname true]
    decide
  · rw [(lex_quoted mysql "a'\\" " OR x").2 hstring]
    decide

end Dialect

end SqlFilter
