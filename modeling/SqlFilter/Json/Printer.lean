import SqlFilter.Decimal.Layout
import SqlFilter.Json

/-!
# JSON as text

A value is written on one line, or with every item on a line of its own, indented by its depth.
Numbers that are not finite have no form in JSON and are written as null.
-/

namespace SqlFilter.Json

/-- The layout of numbers in JSON: a point between `0.00001` and `10 ^ 16`, an exponent with its
sign outside. -/
def layout : Decimal.Layout := ⟨-5, 15, .even, true⟩

/-- The hexadecimal digits of a character below 256, two of them. -/
def hexPair (n : Nat) : List Char := [Nat.digitChar (n / 16), Nat.digitChar (n % 16)]

def escaped (c : Char) : List Char :=
  if c = '"' then ['\\', '"']
  else if c = '\\' then ['\\', '\\']
  else if c = '\n' then ['\\', 'n']
  else if c = '\r' then ['\\', 'r']
  else if c = '\t' then ['\\', 't']
  else if c = Char.ofNat 8 then ['\\', 'b']
  else if c = Char.ofNat 12 then ['\\', 'f']
  else if c.toNat < 0x20 then '\\' :: 'u' :: '0' :: '0' :: hexPair c.toNat
  else [c]

def quoted (s : String) : String := String.ofList ('"' :: s.toList.flatMap escaped ++ ['"'])

def floatText (x : Binary64) : String := if x.isFinite then x.text layout else "null"

def openBrace : String := "\x7b"

def closeBrace : String := "\x7d"

/-- How the parts of arrays and objects are set apart. -/
structure Style where
  /-- What stands before each part and, one level further out, behind the last one. -/
  newline : Nat → String
  colon : String

def Style.compact : Style := ⟨fun _ => "", ":"⟩

/-- Every part on a line of its own, indented by two blanks for each level. -/
def Style.pretty : Style :=
  ⟨fun depth => "\n" ++ String.ofList (List.replicate (2 * depth) ' '), ": "⟩

/-- Brackets around parts, `depth` levels deep. -/
def Style.bracketed (style : Style) (depth : Nat) (left right : String) (parts : List String) :
    String :=
  if parts.isEmpty then left ++ right
  else
    let separator := "," ++ style.newline (depth + 1)
    left ++ style.newline (depth + 1) ++ String.intercalate separator parts ++ style.newline depth
      ++ right

mutual

def write (style : Style) (depth : Nat) : Json → String
  | null => "null"
  | boolean b => if b then "true" else "false"
  | integer n => toString n
  | float x => floatText x
  | string s => quoted s
  | array js => style.bracketed depth "[" "]" (writeItems style (depth + 1) js)
  | object ms => style.bracketed depth openBrace closeBrace (writeMembers style (depth + 1) ms)

def writeItems (style : Style) (depth : Nat) : List Json → List String
  | [] => []
  | j :: js => write style depth j :: writeItems style depth js

def writeMembers (style : Style) (depth : Nat) : List (String × Json) → List String
  | [] => []
  | m :: ms => writeMember style depth m :: writeMembers style depth ms

def writeMember (style : Style) (depth : Nat) : String × Json → String
  | (name, j) => quoted name ++ style.colon ++ write style depth j

end

def compact (j : Json) : String := j.write .compact 0

def pretty (j : Json) : String := j.write .pretty 0

end SqlFilter.Json
