import SqlFilter.Decimal.Shortest

/-!
# Layout of decimals

How a finite binary64 number is written: its shortest digits, with a point between them for numbers
of a moderate size and with an exponent for all others. A number written with a point always has a
digit on either side of it; an exponent has no padding.
-/

namespace SqlFilter.Decimal

/-- The decisions of a decimal notation. -/
structure Layout where
  /-- The least power of ten of the first digit that is written with a point. -/
  least : Int
  /-- The greatest power of ten of the first digit that is written with a point. -/
  greatest : Int
  tie : Tie
  /-- Whether an exponent that is not negative has a plus. -/
  plus : Bool
  deriving DecidableEq, Repr

def zeros (n : Nat) : List Char := List.replicate n '0'

/-- Digits with a point, for the power of ten `power` of the first digit. -/
def pointed (ds : List Char) (power : Int) : List Char :=
  let point := power + 1
  if point ≤ 0 then '0' :: '.' :: (zeros (-point).toNat ++ ds)
  else if point < ds.length then ds.take point.toNat ++ '.' :: ds.drop point.toNat
  else ds ++ zeros (point.toNat - ds.length) ++ ['.', '0']

/-- Digits with an exponent, with or without a plus; the first digit stands before the point. -/
def scientific (plus : Bool) (ds : List Char) (power : Int) : List Char :=
  let mantissa := match ds with
    | d :: rest@(_ :: _) => d :: '.' :: rest
    | _ => ds
  let sign := if plus ∧ 0 ≤ power then ['+'] else []
  mantissa ++ 'e' :: sign ++ (toString power).toList

def Layout.text (layout : Layout) (d : Decimal) : List Char :=
  let ds := Nat.toDigits 10 d.digits
  let power := d.reach - 1
  if d.digits = 0 then ['0', '.', '0']
  else if layout.least ≤ power ∧ power ≤ layout.greatest then pointed ds power
  else scientific layout.plus ds power

end SqlFilter.Decimal

namespace SqlFilter

def Binary64.text (layout : Decimal.Layout) (x : Binary64) : String :=
  let magnitude := layout.text (Decimal.shortest layout.tie x.code.val)
  String.ofList (if x.negative then '-' :: magnitude else magnitude)

end SqlFilter
