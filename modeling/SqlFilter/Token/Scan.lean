import SqlFilter.Dialect
import SqlFilter.Text.Letter
import SqlFilter.Text.Numeral
import SqlFilter.Token

/-!
# The token at the head of a text

A text that starts with no blank starts with a token. `Token.scan` gives that token and the number
of characters it has beyond its first, so that the text splits into the token and the rest by
construction.
-/

namespace SqlFilter.Token

def isNamePart (c : Char) : Bool :=
  Text.isLetter c || Text.isNumeral c || c == '_' || c == '$'

def isNameStart (c : Char) : Bool := Text.isLetter c || c == '_'

def unescape (c : Char) : Char :=
  if c = 'n' then '\n' else if c = 't' then '\t' else if c = 'r' then '\r'
  else if c = '0' then Char.ofNat 0 else c

/-- Reads on behind an opening mark: the content up to the closing mark, and the number of
characters read with that mark. A closing mark written twice stands for itself. Nothing is read if
the text ends before it closes. -/
def content (escapes : Bool) (close : Char) : List Char → Option (List Char × Nat)
  | [] => none
  | [c] => if (escapes && c == '\\') || c != close then none else some ([], 1)
  | c :: d :: cs =>
    if escapes && c == '\\' then
      (content escapes close cs).map fun (s, n) => (unescape d :: s, n + 2)
    else if c == close then
      if d == close then (content escapes close cs).map fun (s, n) => (close :: s, n + 2)
      else some ([], 1)
    else (content escapes close (d :: cs)).map fun (s, n) => (c :: s, n + 1)

/-- The number of characters of a comment behind its opening mark, the closing mark included. It
extends to the end of the text if it is never closed. -/
def commentSize : List Char → Nat
  | [] => 0
  | [_] => 1
  | c :: d :: cs => if c == '*' && d == '/' then 2 else commentSize (d :: cs) + 1

def fractionSize : List Char → Nat
  | '.' :: cs => match (cs.takeWhile Char.isDigit).length with
    | 0 => 0
    | n => n + 1
  | _ => 0

def exponentSize : List Char → Nat
  | e :: cs =>
    if e == 'e' || e == 'E' then
      let sign := match cs with
        | s :: _ => if s == '+' || s == '-' then 1 else 0
        | [] => 0
      match ((cs.drop sign).takeWhile Char.isDigit).length with
      | 0 => 0
      | n => n + sign + 1
    else 0
  | [] => 0

/-- The number of characters of a numeral behind its first digit. -/
def numeralSize (cs : List Char) : Nat :=
  let whole := (cs.takeWhile Char.isDigit).length
  let fraction := fractionSize (cs.drop whole)
  whole + fraction + exponentSize (cs.drop (whole + fraction))

/-- A token that starts with the digit `c`. A numeral that runs into an identifier is illegal as a
whole. -/
def scanNumber (c : Char) (cs : List Char) : Token × Nat :=
  let n := numeralSize cs
  match ((cs.drop n).takeWhile isNamePart).length with
  | 0 => (number (String.ofList (c :: cs.take n)), n)
  | m => (illegal, n + m)

/-- The keyword that the text is, in any case, or the identifier. -/
def ofWord (s : String) : Token :=
  match Keyword.spellings.lookup (Text.lower s) with
  | some k => keyword k
  | none => name s

def scanName (c : Char) (cs : List Char) : Token × Nat :=
  let more := cs.takeWhile isNamePart
  (ofWord (String.ofList (c :: more)), more.length)

/-- A token between quotes. One that is never closed is illegal and reaches the end of the text. -/
def scanQuoted (token : String → Token) (escapes : Bool) (close : Char) (cs : List Char) :
    Token × Nat :=
  match content escapes close cs with
  | some (s, n) => (token (String.ofList s), n)
  | none => (illegal, cs.length)

/-- A token of one or two characters: `short`, or `long` if the second character is `c`. -/
def scanPair (short : Token) (c : Char) (long : Token) (cs : List Char) : Token × Nat :=
  if cs.head? = some c then (long, 1) else (short, 0)

/-- The token that starts with the character `c`, which is not blank, and the number of characters
of the text `cs` behind it that belong to it. -/
def scan (escapes : Bool) (c : Char) (cs : List Char) : Token × Nat :=
  if c = '(' then (leftParen, 0)
  else if c = ')' then (rightParen, 0)
  else if c = ',' then (comma, 0)
  else if c = '.' then (dot, 0)
  else if c = '=' then (eq, 0)
  else if c = '-' then
    if cs.head? = some '-' then (comment, (cs.takeWhile (· ≠ '\n')).length) else (minus, 0)
  else if c = '/' then
    if cs.head? = some '*' then (comment, 1 + commentSize cs.tail) else (illegal, 0)
  else if c = '<' then if cs.head? = some '=' then (le, 1) else scanPair lt '>' ne cs
  else if c = '>' then scanPair gt '=' ge cs
  else if c = '!' then scanPair illegal '=' ne cs
  else if c = '\'' then scanQuoted string escapes '\'' cs
  else if c = '"' then scanQuoted quotedName false '"' cs
  else if c = Dialect.backtick then scanQuoted quotedName false Dialect.backtick cs
  else if c = '[' then scanQuoted quotedName false ']' cs
  else if c.isDigit then scanNumber c cs
  else if isNameStart c then scanName c cs
  else (illegal, 0)

end SqlFilter.Token
