import SqlFilter.Token.Piece

/-!
# Words

A word is a token other than a comment, together with the blanks and comments before it. Words are
what filter text is parsed from; their layout serves to give back the text of a part that is not
understood, less its comments.
-/

namespace SqlFilter

/-- A token other than a comment, with its characters and the layout before it. -/
structure Word where
  token : Token
  chars : List Char
  /-- The blanks and comments between the word before and this one. -/
  before : List Piece
  deriving DecidableEq, Repr

namespace Word

/-- The words among the pieces; `gap` is the layout since the last word. Layout behind the last word
is dropped. -/
def ofPieces (gap : List Piece) : List Piece → List Word
  | [] => []
  | .blank cs :: ps => ofPieces (gap ++ [.blank cs]) ps
  | .token t cs :: ps =>
    if t = .comment then ofPieces (gap ++ [.token t cs]) ps
    else ⟨t, cs, gap⟩ :: ofPieces [] ps

def ofText (escapes : Bool) (text : String) : List Word :=
  ofPieces [] (Piece.ofText escapes text.toList)

/-- The pieces of the words, without the layout before the first one. -/
def pieces : List Word → List Piece
  | [] => []
  | w :: ws => .token w.token w.chars :: ws.flatMap fun v => v.before ++ [.token v.token v.chars]

/-- The text between the comments among the pieces: one part more than there are comments. -/
def betweenComments : List Piece → List (List Char)
  | [] => [[]]
  | p :: ps =>
    if p.isComment then [] :: betweenComments ps
    else match betweenComments ps with
      | part :: parts => (p.chars ++ part) :: parts
      | [] => [p.chars]

/-- Joins the parts around comments: a comment and the blanks before it become one blank, and the
blanks behind the last comment are dropped. -/
def joinParts : List (List Char) → List Char
  | [] => []
  | [last] => Text.trimStart last
  | part :: parts => Text.trimEnd part ++ ' ' :: joinParts parts

/-- The text of consecutive words without its comments. Where it has none it is the text as it
stands. -/
def source (ws : List Word) : String :=
  String.ofList <| match betweenComments (pieces ws) with
    | [only] => only
    | parts => joinParts parts

end Word

end SqlFilter
