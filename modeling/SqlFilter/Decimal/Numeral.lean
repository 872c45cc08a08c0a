import SqlFilter.Decimal.Binary64

/-!
# Numerals

An unsigned numeral is a run of decimal digits with an optional fraction and an optional exponent.
It denotes a decimal number exactly; `Decimal.toBinary64` rounds that number to the nearest
binary64 number.
-/

namespace SqlFilter

/-- The decimal number `digits * 10 ^ exponent`. -/
structure Decimal where
  digits : Nat
  exponent : Int
  deriving DecidableEq, Repr

namespace Decimal

def ofDigits (cs : List Char) : Nat := Nat.ofDigitChars 10 cs 0

/-- The fraction digits at the head of the text and the text after them. -/
def fraction : List Char → List Char × List Char
  | '.' :: rest => (rest.takeWhile Char.isDigit, rest.dropWhile Char.isDigit)
  | rest => ([], rest)

/-- The exponent written by the text: nothing, or `e` or `E`, a sign or none, and digits. -/
def exponent? : List Char → Option Int
  | [] => some 0
  | e :: rest =>
    if e = 'e' ∨ e = 'E' then
      match rest with
      | '-' :: ds => digits? ds |>.map fun n => -n
      | '+' :: ds => digits? ds
      | ds => digits? ds
    else none
where
  digits? (ds : List Char) : Option Int :=
    if ds ≠ [] ∧ ds.all Char.isDigit then some (ofDigits ds) else none

def ofChars? (cs : List Char) : Option Decimal :=
  let whole := cs.takeWhile Char.isDigit
  let (part, rest) := fraction (cs.dropWhile Char.isDigit)
  if whole = [] then none
  else (exponent? rest).map fun e => ⟨ofDigits (whole ++ part), e - part.length⟩

/-- The power of ten just above the number: it is below `10 ^ d.reach` and, unless it is zero, at
least a tenth of that. -/
def reach (d : Decimal) : Int := (Nat.toDigits 10 d.digits).length + d.exponent

/-- The nearest binary64 number, with the given sign. Numbers from `10 ^ 310` on are infinite and
numbers below `10 ^ -330` are zero, which leaves powers of ten of a moderate size to compute. -/
def toBinary64 (d : Decimal) (negative : Bool) : Binary64 :=
  if d.digits = 0 ∨ d.reach < -330 then .zero negative
  else if 311 ≤ d.reach then .infinity negative
  else
    .ofRatio negative (d.digits * Nat.pow 10 d.exponent.toNat) (Nat.pow 10 (-d.exponent).toNat)

end Decimal

end SqlFilter
