/-!
# Binary floating-point numbers

A number of the binary64 format is a sign and a *code*, the rank of its magnitude: the codes of the
finite magnitudes follow their order, infinity comes next, and all further codes are not numbers.
Magnitudes are exact here. They are counted in units of the least positive one, `2 ^ -1074`, so that
every finite magnitude is a natural number of units and rounding needs no other arithmetic.
-/

namespace SqlFilter

/-- A binary64 number, signed zeros, infinities and not-a-number included. -/
structure Binary64 where
  negative : Bool
  /-- The rank of the magnitude, below `2 ^ 63`. -/
  code : Fin 0x8000000000000000
  deriving DecidableEq, Repr

namespace Binary64

def fractionBits : Nat := 52

/-- The number of fractions, which is that of magnitudes in a binade. -/
def fractions : Nat := Nat.pow 2 fractionBits

/-- How many units of `2 ^ -1074` make one. -/
def unit : Nat := Nat.pow 2 1074

/-- The code of infinity, above the codes of all finite magnitudes. -/
def infinityCode : Nat := 2047 * fractions

/-- The magnitude of a code, in units of `2 ^ -1074`. The first two binades have the same spacing;
from there on each is twice as wide as the one before. -/
def units (code : Nat) : Nat :=
  let binade := code / fractions
  let fraction := code % fractions
  if binade = 0 then fraction else (fractions + fraction) * Nat.pow 2 (binade - 1)

/-- The greatest code whose magnitude is at most `n` units. -/
def codeBelow (n : Nat) : Nat :=
  let shift := n.log2 - fractionBits
  shift * fractions + n / Nat.pow 2 shift

/-- The code nearest to the magnitude `p / d`, the even one of two that are equally near. From the
middle between the greatest finite magnitude and the next power of two on, it is infinity. -/
def nearestCode (p d : Nat) : Nat :=
  let low := codeBelow (p * unit / d)
  if infinityCode ≤ low then infinityCode
  else
    let middle := (units low + units (low + 1)) * d
    if 2 * (p * unit) < middle ∨ 2 * (p * unit) = middle ∧ low % 2 = 0 then low
    else low + 1

/-- The code as a rank below `2 ^ 63`; larger numbers do not occur. -/
def ofCode (negative : Bool) (code : Nat) : Binary64 :=
  ⟨negative, Fin.ofNat 0x8000000000000000 code⟩

/-- The number nearest to `p / d`, with the given sign. -/
def ofRatio (negative : Bool) (p d : Nat) : Binary64 := ofCode negative (nearestCode p d)

def infinity (negative : Bool) : Binary64 := ofCode negative infinityCode

def zero (negative : Bool) : Binary64 := ofCode negative 0

def nan : Binary64 := ofCode false (infinityCode + fractions / 2)

def isFinite (x : Binary64) : Bool := x.code.val < infinityCode

def isNaN (x : Binary64) : Bool := infinityCode < x.code.val

end Binary64

end SqlFilter
