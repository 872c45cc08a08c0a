import SqlFilter.Condition
import SqlFilter.Token

/-!
# Conditions from tokens

A condition is read from the head of a list of tokens. Each reader returns what it has read, if the
tokens have the right form, and the tokens that it has not looked at; how many it has consumed
counts also when it fails.
-/

namespace SqlFilter

/-- What a reader has read, and the tokens behind it. -/
abbrev Token.Read (α : Type) := Option α × List Token

namespace Literal

/-- The literal that a numeral denotes: an integer if it has neither fraction nor exponent and needs
64 bits at most, otherwise the nearest float. -/
def ofNumeral (negative : Bool) (text : String) : Option Literal :=
  let cs := text.toList
  let n : Int := Decimal.ofDigits cs
  let signed := if negative then -n else n
  let i := Int64.ofInt signed
  if cs ≠ [] ∧ cs.all Char.isDigit ∧ i.toInt = signed then some (integer i)
  else (Decimal.ofChars? cs).map fun d => float (d.toBinary64 negative)

/-- Reads a literal. Only a numeral may have a sign. -/
def read : List Token → Token.Read Literal
  | .minus :: .number s :: ts => (ofNumeral true s, ts)
  | .minus :: _ :: ts => (none, ts)
  | .number s :: ts => (ofNumeral false s, ts)
  | .string s :: ts => (some (string s), ts)
  | .keyword .true :: ts => (some (boolean true), ts)
  | .keyword .false :: ts => (some (boolean false), ts)
  | _ :: ts => (none, ts)
  | [] => (none, [])

/-- Fewer tokens are left unless there were none. -/
theorem length_read_lt {ts : List Token} {l : Literal} (h : (read ts).1 = some l) :
    (read ts).2.length < ts.length := by
  unfold read at h ⊢
  split <;> simp_all only [List.length_cons, reduceCtorEq] <;> omega

/-- Reads literals between commas up to a closing parenthesis. -/
def readItems (ts : List Token) : Token.Read (List Literal) :=
  match h : read ts with
  | (none, rest) => (none, rest)
  | (some l, .rightParen :: rest) => (some [l], rest)
  | (some l, .comma :: rest) =>
    have : rest.length < ts.length := by
      have := length_read_lt (show (read ts).1 = some l by rw [h])
      rw [h] at this
      simp only [List.length_cons] at this
      omega
    let (more, rest) := readItems rest
    (more.map (l :: ·), rest)
  | (some _, rest) => (none, rest)
termination_by ts.length

def readList : List Token → Token.Read (List Literal)
  | .leftParen :: ts => readItems ts
  | ts => (none, ts)

end Literal

namespace Condition

def readPath : List Token → Token.Read (List String)
  | [] => (none, [])
  | t :: ts =>
    match t.identifier?, ts with
    | none, _ => (none, ts)
    | some s, .dot :: rest =>
      let (more, rest) := readPath rest
      (more.map (s :: ·), rest)
    | some s, _ => (some [s], ts)

def readOperator : List Token → Token.Read Operator
  | .eq :: ts => (some .eq, ts)
  | .ne :: ts => (some .ne, ts)
  | .gt :: ts => (some .gt, ts)
  | .lt :: ts => (some .lt, ts)
  | .ge :: ts => (some .ge, ts)
  | .le :: ts => (some .le, ts)
  | .keyword .like :: ts => (some .like, ts)
  | .keyword .ilike :: ts => (some .ilike, ts)
  | .keyword .within :: ts => (some .isIn, ts)
  | .keyword .not :: .keyword .within :: ts => (some .notIn, ts)
  | .keyword .between :: ts => (some .between, ts)
  | .keyword .is :: .keyword .null :: ts => (some .isNull, ts)
  | .keyword .is :: .keyword .not :: .keyword .null :: ts => (some .isNotNull, ts)
  | .keyword .is :: .keyword .not :: ts => (none, ts)
  | _ :: ts => (none, ts)
  | [] => (none, [])

/-- Reads the bounds of a range, the keyword between them included. -/
def readBounds (ts : List Token) : Token.Read (Literal × Literal) :=
  match Literal.read ts with
  | (some low, .keyword .and :: rest) =>
    let (high, rest) := Literal.read rest
    (high.map (low, ·), rest)
  | (_, rest) => (none, rest)

/-- Reads what an operator needs on its right: the value and the upper bound. -/
def readOperand (op : Operator) (ts : List Token) : Token.Read (Option Operand × Option Literal) :=
  match op.shape with
  | .nullCheck => (some (none, none), ts)
  | .list =>
    let (vs, rest) := Literal.readList ts
    (vs.map fun vs => (some (.list vs), none), rest)
  | .bounds =>
    let (bounds, rest) := readBounds ts
    (bounds.map fun (low, high) => (some (.single low), some high), rest)
  | .single =>
    let (v, rest) := Literal.read ts
    (v.map fun v => (some (.single v), none), rest)

def readComparison (table column : String) (ts : List Token) : Token.Read Condition :=
  match readOperator ts with
  | (none, rest) => (none, rest)
  | (some op, rest) =>
    let (operand, rest) := readOperand op rest
    (operand.map fun (value, upper) => ⟨table, column, op, value, upper, .atWhere⟩, rest)

/-- Reads a condition. Its column may be qualified by a table, and by nothing else. -/
def read (ts : List Token) : Token.Read Condition :=
  match readPath ts with
  | (some [column], rest) => readComparison "" column rest
  | (some [table, column], rest) => readComparison table column rest
  | (_, rest) => (none, rest)

/-- The condition that the tokens form as a whole, if they form one, and the number of tokens looked
at. -/
def ofTokens (ts : List Token) : Option Condition × Nat :=
  let (c, rest) := read ts
  (if rest = [] then c else none, ts.length - rest.length)

end Condition

end SqlFilter
