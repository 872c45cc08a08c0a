import SqlFilter.Decimal.Numeral
import SqlFilter.Text.Blank

/-!
# Moments

Dates and times of day as people write them, in two notations. The lenient one allows blanks before
each number, one digit where two are usual, and years with a sign and any number of digits. The
strict one, of timestamps with an offset, has fixed widths and allows fractions of a second.
-/

namespace SqlFilter.Moment

/-- A reader of something at the head of a text. -/
abbrev Read (α : Type) := List Char → Option (α × List Char)

def mark (c : Char) : Read Unit
  | d :: cs => if d = c then some ((), cs) else none
  | [] => none

/-- Reads a number of at least `least` digits, taking `most` digits at most. -/
def number (least most : Nat) : Read Nat := fun cs =>
  let ds := (cs.take most).takeWhile Char.isDigit
  if ds.length < least then none else some (Decimal.ofDigits ds, cs.drop ds.length)

structure Date where
  /-- The year of the proleptic Gregorian calendar. -/
  year : Int
  month : Nat
  day : Nat
  deriving DecidableEq, Repr

def daysIn (year : Int) (month : Nat) : Nat :=
  if month = 2 then
    if year % 4 = 0 ∧ (year % 100 ≠ 0 ∨ year % 400 = 0) then 29 else 28
  else if month ∈ [4, 6, 9, 11] then 30
  else 31

/-- Whether the date exists, in the years that the calendar covers. -/
def Date.Valid (d : Date) : Prop :=
  -262143 ≤ d.year ∧ d.year ≤ 262142 ∧ 1 ≤ d.month ∧ d.month ≤ 12 ∧ 1 ≤ d.day ∧
    d.day ≤ daysIn d.year d.month

instance (d : Date) : Decidable d.Valid := by unfold Date.Valid; infer_instance

structure Clock where
  hour : Nat
  minute : Nat
  second : Nat
  deriving DecidableEq, Repr

/-- Whether the time exists; a minute may have a leap second. -/
def Clock.Valid (t : Clock) : Prop := t.hour ≤ 23 ∧ t.minute ≤ 59 ∧ t.second ≤ 60

instance (t : Clock) : Decidable t.Valid := by unfold Clock.Valid; infer_instance

/-! ## The lenient notation -/

/-- Reads one or two digits, with blanks before them. -/
def field : Read Nat := fun cs => number 1 2 (Text.trimStart cs)

/-- Reads a year, with blanks before it: up to four digits, or a sign and any number of digits. -/
def year : Read Int := fun cs =>
  match Text.trimStart cs with
  | '-' :: ds => (number 1 ds.length ds).map fun (n, rest) => (-n, rest)
  | '+' :: ds => (number 1 ds.length ds).map fun (n, rest) => (n, rest)
  | ds => (number 1 4 ds).map fun (n, rest) => (n, rest)

def date : Read Date := fun cs => do
  let (y, cs) ← year cs
  let (_, cs) ← mark '-' cs
  let (m, cs) ← field cs
  let (_, cs) ← mark '-' cs
  let (d, cs) ← field cs
  if Date.Valid ⟨y, m, d⟩ then some (⟨y, m, d⟩, cs) else none

def clock : Read Clock := fun cs => do
  let (h, cs) ← field cs
  let (_, cs) ← mark ':' cs
  let (m, cs) ← field cs
  let (_, cs) ← mark ':' cs
  let (s, cs) ← field cs
  if Clock.Valid ⟨h, m, s⟩ then some (⟨h, m, s⟩, cs) else none

/-- Reads a date and a time of day, with blanks or nothing between them. -/
def spaced : Read (Date × Clock) := fun cs => do
  let (d, cs) ← date cs
  let (t, cs) ← clock (Text.trimStart cs)
  some ((d, t), cs)

/-- Reads a date and a time of day with a `T` between them. -/
def joined : Read (Date × Clock) := fun cs => do
  let (d, cs) ← date cs
  let (_, cs) ← mark 'T' cs
  let (t, cs) ← clock cs
  some ((d, t), cs)

/-! ## The strict notation -/

/-- Reads a fraction of a second, if there is a point. -/
def fraction : Read Unit
  | '.' :: cs => (number 1 cs.length cs).map fun (_, rest) => ((), rest)
  | cs => some ((), cs)

/-- Reads the offset of a time zone: `Z`, or a sign, hours and minutes. The sign may be U+2212. -/
def offset : Read Unit
  | [] => none
  | c :: cs =>
    if c = 'Z' ∨ c = 'z' then some ((), cs)
    else if c = '+' ∨ c = '-' ∨ c = Char.ofNat 0x2212 then do
      let (h, cs) ← number 2 2 cs
      let (_, cs) ← mark ':' cs
      let (m, cs) ← number 2 2 cs
      if h ≤ 23 ∧ m ≤ 59 then some ((), cs) else none
    else none

def separator : Read Unit
  | c :: cs => if c = 'T' ∨ c = 't' ∨ c = ' ' then some ((), cs) else none
  | [] => none

def timestamp : Read (Date × Clock) := fun cs => do
  let (y, cs) ← number 4 4 cs
  let (_, cs) ← mark '-' cs
  let (mo, cs) ← number 2 2 cs
  let (_, cs) ← mark '-' cs
  let (d, cs) ← number 2 2 cs
  let (_, cs) ← separator cs
  let (h, cs) ← number 2 2 cs
  let (_, cs) ← mark ':' cs
  let (mi, cs) ← number 2 2 cs
  let (_, cs) ← mark ':' cs
  let (s, cs) ← number 2 2 cs
  let (_, cs) ← fraction cs
  let (_, cs) ← offset cs
  if Date.Valid ⟨y, mo, d⟩ ∧ Clock.Valid ⟨h, mi, s⟩ then some ((⟨y, mo, d⟩, ⟨h, mi, s⟩), cs)
  else none

/-- Whether a reader reads the whole text. -/
def reads {α : Type} (r : Read α) (cs : List Char) : Bool :=
  match r cs with
  | some (_, []) => true
  | _ => false

/-- Whether the text, less the blanks around it, is a date, a time of day or both. -/
def isMoment (s : String) : Bool :=
  let cs := (Text.trim s).toList
  reads date cs || reads spaced cs || reads joined cs || reads clock cs || reads timestamp cs

end SqlFilter.Moment
