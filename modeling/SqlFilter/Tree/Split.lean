import SqlFilter.Token.Word
import SqlFilter.Tree

/-!
# One level of filter text

A level of filter text is what stands between two parentheses, or the whole text. Its top-level
connectives, those in no further parentheses, cut it into parts. The `AND` that belongs to a
`BETWEEN` is no connective.
-/

namespace SqlFilter

namespace Word

/-- Whether the parentheses match, `depth` of them being open. -/
def balanced (depth : Nat) : List Word → Bool
  | [] => depth = 0
  | w :: ws =>
    if w.token = .leftParen then balanced (depth + 1) ws
    else if w.token = .rightParen then depth ≠ 0 && balanced (depth - 1) ws
    else balanced depth ws

/-- The words up to the parenthesis that closes the level, if that is the last word; `depth` further
ones are open. -/
def enclosed? (depth : Nat) : List Word → Option (List Word)
  | [] => none
  | w :: ws =>
    if w.token = .leftParen then (enclosed? (depth + 1) ws).map (w :: ·)
    else if w.token = .rightParen then
      if depth ≠ 0 then (enclosed? (depth - 1) ws).map (w :: ·)
      else if ws = [] then some []
      else none
    else (enclosed? depth ws).map (w :: ·)

/-- What the words enclose, if the first and the last one are a pair of parentheses. -/
def unwrap? : List Word → Option (List Word)
  | [] => none
  | w :: ws => if w.token = .leftParen then enclosed? 0 ws else none

/-- The connective that a word is, where `depth` parentheses are open and `pending` tells whether a
`BETWEEN` waits for its `AND`. -/
def connective? (depth : Nat) (pending : Bool) (w : Word) : Option Logic :=
  if depth ≠ 0 then none
  else if w.token = .keyword .and then if pending then none else some .and
  else if w.token = .keyword .or then some .or
  else none

/-- How many parentheses are open behind a word. -/
def depthAfter (depth : Nat) (w : Word) : Nat :=
  if w.token = .leftParen then depth + 1
  else if w.token = .rightParen then depth - 1
  else depth

/-- Whether a `BETWEEN` waits for its `AND` behind a word that is no connective. -/
def pendingAfter (depth : Nat) (pending : Bool) (w : Word) : Bool :=
  if depth ≠ 0 then pending
  else if w.token = .keyword .between then true
  else if w.token = .keyword .and then false
  else pending

/-- Cuts words at their top-level connectives: the words before the first one, and each connective
with the words up to the next one. -/
def cut (depth : Nat) (pending : Bool) : List Word → List Word × List (Logic × List Word)
  | [] => ([], [])
  | w :: ws =>
    match connective? depth pending w with
    | some k =>
      let (part, more) := cut depth false ws
      ([], (k, part) :: more)
    | none =>
      let (part, more) := cut (depthAfter depth w) (pendingAfter depth pending w) ws
      (w :: part, more)

end Word

/-- What a level is cut into. -/
inductive Split where
  /-- Parts joined by one connective; a single part or none goes with `AND`. -/
  | parts (logic : Logic) (parts : List (List Word))
  | ambiguous
  /-- A part is empty. -/
  | malformed
  deriving DecidableEq, Repr

namespace Split

/-- Checks the parts in order: `seen` is the connective so far, `part` the words since the last one.
Also counts the words looked at before the outcome is settled. -/
def check (seen : Option Logic) (part : List Word) : List (Logic × List Word) → Split × Nat
  | [] =>
    if part = [] then (malformed, 0) else (parts (seen.getD .and) [part], part.length)
  | (k, next) :: more =>
    if seen.any (· ≠ k) then (ambiguous, part.length + 1)
    else if part = [] then (malformed, 1)
    else
      let (rest, n) := check (some k) next more
      let outcome := match rest with
        | parts k ps => parts k (part :: ps)
        | other => other
      (outcome, part.length + 1 + n)

/-- Cuts a level, and counts the words looked at. A level without words has no parts. -/
def ofWords (ws : List Word) : Split × Nat :=
  if ws = [] then (parts .and [], 0)
  else
    let (part, more) := Word.cut 0 false ws
    check none part more

end Split

end SqlFilter
