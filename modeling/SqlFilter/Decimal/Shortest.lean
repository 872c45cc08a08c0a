import SqlFilter.Decimal.Numeral

/-!
# Shortest decimals

The shortest decimal of a finite binary64 number is the one with the fewest digits among those that
round to the number, and the nearest of these. The reals that round to a magnitude form an interval
around it, its ends included when the code is even. A grid of decimals with so many digits meets the
interval exactly if one of the two grid points around the magnitude lies in it, so it is enough to
look at those two.
-/

namespace SqlFilter.Decimal

/-- Which of two equally near decimals is taken. -/
inductive Tie where
  /-- The one of greater magnitude. -/
  | away
  /-- The one whose last digit is even. -/
  | even
  deriving DecidableEq, Repr

/-- A magnitude `p / d` with the interval of reals that round to it, all over the denominator
`2 * d`. -/
structure Target where
  low : Nat
  /-- Twice the numerator of the magnitude. -/
  value : Nat
  high : Nat
  /-- Whether the ends belong to the interval. -/
  closed : Bool

/-- The magnitude of a positive finite code, in units of `2 ^ -1074`. -/
def Target.ofCode (code : Nat) : Target :=
  { low := Binary64.units (code - 1) + Binary64.units code
    value := 2 * Binary64.units code
    high := Binary64.units code + Binary64.units (code + 1)
    closed := code % 2 = 0 }

/-- Whether `n / d` lies in the interval, over the same denominator. -/
def Target.contains (t : Target) (n d : Nat) : Bool :=
  if t.closed then t.low * d ≤ n && n ≤ t.high * d else t.low * d < n && n < t.high * d

/-- The point of the grid of multiples of `10 ^ k` that is nearest to the magnitude, of those of the
two around it that lie in the interval. -/
def Target.onGrid (t : Target) (tie : Tie) (k : Int) : Option Nat :=
  let step := 2 * Binary64.unit * Nat.pow 10 k.toNat
  let d := Nat.pow 10 (-k).toNat
  let below := t.value * d / step
  let above := below + 1
  match t.contains (below * step) d, t.contains (above * step) d with
  | true, false => some below
  | false, true => some above
  | false, false => none
  | true, true =>
    let fromBelow := t.value * d - below * step
    let toAbove := above * step - t.value * d
    if fromBelow < toAbove then some below
    else if toAbove < fromBelow then some above
    else match tie with
      | .away => some above
      | .even => some (if below % 2 = 0 then below else above)

/-- The power of ten of the first digit of a positive magnitude given in units of `2 ^ -1074`. -/
def leadingPower (units : Nat) : Int :=
  if Binary64.unit ≤ units then (Nat.toDigits 10 (units / Binary64.unit)).length - 1
  else
    match (List.range 330).find? fun j => Binary64.unit ≤ units * Nat.pow 10 j with
    | some j => -j
    | none => 0

/-- Moves the zeros at the end of the digits into the exponent, at most `fuel` of them. -/
def stripZeros : Nat → Decimal → Decimal
  | 0, d => d
  | fuel + 1, d =>
    if d.digits ≠ 0 ∧ d.digits % 10 = 0 then stripZeros fuel ⟨d.digits / 10, d.exponent + 1⟩ else d

/-- The shortest decimal of the magnitude of a finite code. Seventeen digits always suffice. -/
def shortest (tie : Tie) (code : Nat) : Decimal :=
  if code = 0 then ⟨0, 0⟩
  else
    let target := Target.ofCode code
    let power := leadingPower (Binary64.units code)
    let candidates := (List.range 17).filterMap fun (n : Nat) =>
      let k : Int := power - n
      (target.onGrid tie k).map fun digits => stripZeros 20 ⟨digits, k⟩
    candidates.headD ⟨0, 0⟩

end SqlFilter.Decimal
