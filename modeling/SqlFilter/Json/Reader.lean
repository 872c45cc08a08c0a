import SqlFilter.Decimal.Numeral
import SqlFilter.Json

/-!
# JSON from text

A strict reader: one value with nothing but blanks around it, no comments, no commas at the end.
An integer without fraction and exponent stays an integer of any size, except that a zero with a
minus is a float. An escape for half of a surrogate pair stands for the replacement character; it is
not accepted in the names of the outermost object.
-/

namespace SqlFilter.Json

def isBlank (c : Char) : Bool := c == ' ' || c == '\n' || c == '\t' || c == '\r'

def skipBlanks (cs : List Char) : List Char := cs.dropWhile isBlank

def hexValue? (c : Char) : Option Nat :=
  if c.isDigit then some (c.toNat - '0'.toNat)
  else if 'a' ≤ c ∧ c ≤ 'f' then some (c.toNat - 'a'.toNat + 10)
  else if 'A' ≤ c ∧ c ≤ 'F' then some (c.toNat - 'A'.toNat + 10)
  else none

def hexUnit? (a b c d : Char) : Option Nat := do
  let a ← hexValue? a
  let b ← hexValue? b
  let c ← hexValue? c
  let d ← hexValue? d
  return ((a * 16 + b) * 16 + c) * 16 + d

def shortEscape? (c : Char) : Option Char :=
  [('"', '"'), ('\\', '\\'), ('/', '/'), ('b', Char.ofNat 8), ('f', Char.ofNat 12), ('n', '\n'),
    ('r', '\r'), ('t', '\t')].lookup c

/-- A code unit of UTF-16 or a character of a string. -/
inductive Unit16 where
  | char (c : Char)
  | high (n : Nat)
  | low (n : Nat)

def Unit16.ofNat (n : Nat) : Unit16 :=
  if 0xD800 ≤ n ∧ n < 0xDC00 then high (n - 0xD800)
  else if 0xDC00 ≤ n ∧ n < 0xE000 then low (n - 0xDC00)
  else char (Char.ofNat n)

/-- Joins surrogate pairs; `none` stands for half of a pair. -/
def joinPairs : List Unit16 → List (Option Char)
  | .high h :: .low l :: us => some (Char.ofNat (0x10000 + h * 0x400 + l)) :: joinPairs us
  | .char c :: us => some c :: joinPairs us
  | _ :: us => none :: joinPairs us
  | [] => []

/-- Reads a string behind its opening quote, and the text behind the closing one. -/
def units? : List Char → Option (List Unit16 × List Char)
  | [] => none
  | '"' :: cs => some ([], cs)
  | '\\' :: 'u' :: a :: b :: c :: d :: cs => do
    let n ← hexUnit? a b c d
    let (us, rest) ← units? cs
    return (Unit16.ofNat n :: us, rest)
  | '\\' :: e :: cs => do
    let c ← shortEscape? e
    let (us, rest) ← units? cs
    return (.char c :: us, rest)
  | c :: cs =>
    if c.toNat < 0x20 then none
    else do
      let (us, rest) ← units? cs
      return (.char c :: us, rest)

def text? (cs : List Char) : Option (String × List Char) := do
  let (us, rest) ← units? cs
  return (String.ofList ((joinPairs us).map fun c => c.getD (Char.ofNat 0xFFFD)), rest)

/-- Reads a string of whole characters behind its opening quote. -/
def wholeText? (cs : List Char) : Option (String × List Char) := do
  let (us, rest) ← units? cs
  let chars ← (joinPairs us).mapM id
  return (String.ofList chars, rest)

/-- Reads the name of a member, of the outermost object or of another, behind its opening quote. -/
def name? (outermost : Bool) (cs : List Char) : Option (String × List Char) :=
  if outermost then wholeText? cs else text? cs

def exponentPart? : List Char → Option (List Char × List Char)
  | e :: cs =>
    if e = 'e' ∨ e = 'E' then
      let sign := match cs with
        | s :: _ => if s = '+' ∨ s = '-' then 1 else 0
        | [] => 0
      let ds := (cs.drop sign).takeWhile Char.isDigit
      if ds = [] then none else some (e :: cs.take sign ++ ds, (cs.drop sign).drop ds.length)
    else some ([], e :: cs)
  | [] => some ([], [])

def fractionPart? : List Char → Option (List Char × List Char)
  | '.' :: cs =>
    let ds := cs.takeWhile Char.isDigit
    if ds = [] then none else some ('.' :: ds, cs.drop ds.length)
  | cs => some ([], cs)

/-- Reads a number behind its sign. -/
def number? (negative : Bool) (cs : List Char) : Option (Json × List Char) := do
  let whole := cs.takeWhile Char.isDigit
  if whole = [] ∨ (whole.head? = some '0' ∧ whole.length ≠ 1) then none
  else
    let (fraction, rest) ← fractionPart? (cs.drop whole.length)
    let (exponent, rest) ← exponentPart? rest
    let n := Decimal.ofDigits whole
    if fraction = [] ∧ exponent = [] ∧ ¬(negative ∧ n = 0) then
      return (integer (if negative then -n else n), rest)
    else
      let d ← Decimal.ofChars? (whole ++ fraction ++ exponent)
      return (float (d.toBinary64 negative), rest)

def word? (w : String) (j : Json) (cs : List Char) : Option (Json × List Char) :=
  if w.toList.isPrefixOf cs then some (j, cs.drop w.toList.length) else none

mutual

/-- Reads a value, the outermost one or another, at the head of the text; `fuel` bounds the steps,
of which two go with a character at most. -/
def value? (outermost : Bool) (fuel : Nat) (cs : List Char) : Option (Json × List Char) :=
  match fuel with
  | 0 => none
  | fuel + 1 =>
    match skipBlanks cs with
    | [] => none
    | c :: cs =>
      if c = '"' then (text? cs).map fun (s, rest) => (string s, rest)
      else if c = '[' then
        match skipBlanks cs with
        | ']' :: rest => some (array [], rest)
        | cs => (elements? fuel cs).map fun (js, rest) => (array js, rest)
      else if c = '\x7b' then
        match skipBlanks cs with
        | '\x7d' :: rest => some (object [], rest)
        | cs => (members? outermost fuel cs).map fun (ms, rest) => (object ms, rest)
      else if c = '-' then number? true cs
      else if c.isDigit then number? false (c :: cs)
      else if c = 't' then word? "true" (boolean true) (c :: cs)
      else if c = 'f' then word? "false" (boolean false) (c :: cs)
      else word? "null" null (c :: cs)

/-- Reads the items of an array, one at least, and its closing bracket. -/
def elements? (fuel : Nat) (cs : List Char) : Option (List Json × List Char) :=
  match fuel with
  | 0 => none
  | fuel + 1 =>
    match value? false fuel cs with
    | none => none
    | some (j, rest) =>
      match skipBlanks rest with
      | ',' :: rest => (elements? fuel rest).map fun (js, rest) => (j :: js, rest)
      | ']' :: rest => some ([j], rest)
      | _ => none

/-- Reads the members of an object, the outermost one or another, and its closing brace. There is
one member at least. -/
def members? (outermost : Bool) (fuel : Nat) (cs : List Char) :
    Option (List (String × Json) × List Char) :=
  match fuel with
  | 0 => none
  | fuel + 1 =>
    match skipBlanks cs with
    | '"' :: cs =>
      match name? outermost cs with
      | none => none
      | some (name, rest) =>
        match skipBlanks rest with
        | ':' :: rest =>
          match value? false fuel rest with
          | none => none
          | some (j, rest) =>
            match skipBlanks rest with
            | ',' :: rest =>
              (members? outermost fuel rest).map fun (ms, rest) => ((name, j) :: ms, rest)
            | '\x7d' :: rest => some ([(name, j)], rest)
            | _ => none
        | _ => none
    | _ => none

end

/-- Reads a text that is one value. -/
def ofText? (s : String) : Option Json :=
  let cs := s.toList
  match value? true (2 * cs.length + 2) cs with
  | some (j, rest) => if skipBlanks rest = [] then some j else none
  | none => none

end SqlFilter.Json
