import SqlFilter.Text.Size
import SqlFilter.Token.Scan

/-!
# Pieces of a text

A text is cut into pieces, runs of blanks and tokens, whose characters together are the text
(`Piece.chars_ofText`). The places of the tokens count the bytes of the text in UTF-8.
-/

namespace SqlFilter

/-- A run of blanks, or a token with the characters it is written with. -/
inductive Piece where
  | blank (chars : List Char)
  | token (token : Token) (chars : List Char)
  deriving DecidableEq, Repr

namespace Piece

def chars : Piece → List Char
  | blank cs => cs
  | token _ cs => cs

def isComment : Piece → Bool
  | token .comment _ => true
  | _ => false

/-- The pieces of a text, with or without backslash escapes in strings. -/
def ofText (escapes : Bool) : List Char → List Piece
  | [] => []
  | c :: cs =>
    if Text.isBlank c then
      let n := (cs.takeWhile Text.isBlank).length
      blank (c :: cs.take n) :: ofText escapes (cs.drop n)
    else
      let (t, n) := Token.scan escapes c cs
      token t (c :: cs.take n) :: ofText escapes (cs.drop n)
termination_by cs => cs.length
decreasing_by all_goals simp only [List.length_cons, List.length_drop]; omega

theorem chars_ofText (escapes : Bool) (cs : List Char) :
    (ofText escapes cs).flatMap chars = cs := by
  fun_induction ofText escapes cs with
  | case1 => rfl
  | case2 c cs hb n ih => simp [chars, ih]
  | case3 c cs hb t n hs ih => simp [chars, ih]

end Piece

/-- A token and the bytes of the text it occupies. -/
structure Located where
  token : Token
  start : Nat
  /-- The offset behind its last byte. -/
  stop : Nat
  deriving DecidableEq, Repr

/-- The tokens among the pieces with their places, the first piece starting at `offset`. -/
def Piece.locate (offset : Nat) : List Piece → List Located
  | [] => []
  | .blank cs :: ps => locate (offset + byteCount cs) ps
  | .token t cs :: ps =>
    ⟨t, offset, offset + byteCount cs⟩ :: locate (offset + byteCount cs) ps

def lex (escapes : Bool) (text : String) : List Located :=
  Piece.locate 0 (Piece.ofText escapes text.toList)

end SqlFilter
