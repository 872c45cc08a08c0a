import SqlFilter.Condition.Reader
import SqlFilter.Error
import SqlFilter.Tree.Split

/-!
# Filter trees from text

Filter text is read level by level. What cannot be understood is kept as raw SQL and reported by a
warning, so that only groups nested too deeply make a text unreadable. The reader counts its steps,
one for each word looked at in a level and one for each token taken into a condition; a text that
needs more of them than allowed is kept as raw SQL as a whole.
-/

namespace SqlFilter

/-- A part of a text that is kept as raw SQL, and why. -/
inductive Warning where
  /-- `AND` and `OR` on one level. -/
  | ambiguous (fragment : String)
  | unrecognized (fragment : String)
  | unbalanced
  | timeout (steps : Nat)
  deriving DecidableEq, Repr

def Warning.message : Warning → String
  | ambiguous s => "AND and OR are mixed without parentheses in '" ++ s ++ "'; kept as raw SQL"
  | unrecognized s => "could not interpret '" ++ s ++ "'; kept as raw SQL"
  | unbalanced => "unbalanced parentheses; kept as raw SQL"
  | timeout n => "parsing stopped after " ++ toString n ++ " steps; kept as raw SQL"

structure Limits where
  dialect : Dialect := .duckdb
  maxDepth : Nat := 5
  stepBudget : Nat := 100000
  /-- Whether the time for reading is over from the start. -/
  expired : Bool := false

namespace Limits

/-- How many steps there are between two looks at the clock. -/
def clockInterval : Nat := 64

/-- The greatest number of steps that does not stop the reader: the clock stops it at its first look
if the time is over. -/
def steps (l : Limits) : Nat :=
  if l.expired then min l.stepBudget (clockInterval - 1) else l.stepBudget

end Limits

/-- The outcome of a part of the reader, with the steps it took and its warnings. It is `none` where
groups are nested too deeply. -/
structure Attempt (α : Type) where
  steps : Nat
  result : Option (α × List Warning)

/-- What a level is understood as. -/
structure Level where
  logic : Logic
  children : List (Node Unit)

namespace Attempt

/-- One attempt after the other. None is made behind one that fails. -/
def collect : List (Attempt (Option (Node Unit))) → Attempt (List (Node Unit))
  | [] => ⟨0, some ([], [])⟩
  | a :: as =>
    match a.result with
    | none => ⟨a.steps, none⟩
    | some (n, warnings) =>
      let rest := collect as
      ⟨a.steps + rest.steps, rest.result.map fun (ns, more) => (n.toList ++ ns, warnings ++ more)⟩

end Attempt

/-- Reads a part of a level, with `inner` to read what stands in parentheses. Empty parentheses are
left out. -/
def readPart (inner : List Word → Attempt (Option Level)) (ws : List Word) :
    Attempt (Option (Node Unit)) :=
  match Word.unwrap? ws with
  | some body =>
    let level := inner body
    ⟨level.steps, level.result.map fun (l, warnings) =>
      (match l with
        | none => some (.raw () (Word.source body))
        | some ⟨_, []⟩ => none
        | some ⟨k, cs⟩ => some (.group () k cs), warnings)⟩
  | none =>
    match Condition.ofTokens (ws.map Word.token) with
    | (some c, n) => ⟨n, some (some (.condition () c), [])⟩
    | (none, n) =>
      let s := Word.source ws
      ⟨n, some (some (.raw () s), [.unrecognized s])⟩

/-- Reads a level, where groups may be nested `room` levels deep from here on. There is no
understanding of a level that is ambiguous or malformed. -/
def readLevel : (room : Nat) → List Word → Attempt (Option Level)
  | 0, _ => ⟨0, none⟩
  | room + 1, ws =>
    match Split.ofWords ws with
    | (.ambiguous, n) => ⟨n, some (none, [.ambiguous (Word.source ws)])⟩
    | (.malformed, n) => ⟨n, some (none, [.unrecognized (Word.source ws)])⟩
    | (.parts k ps, n) =>
      let children := Attempt.collect (ps.map (readPart (readLevel room)))
      ⟨n + children.steps, children.result.map fun (cs, warnings) => (some ⟨k, cs⟩, warnings)⟩

structure Reading where
  /-- A group, or raw SQL if the text as a whole is not understood. -/
  node : Node Unit
  /-- What is kept as raw SQL, in document order. -/
  warnings : List Warning

namespace Reading

/-- The reading as a tree: raw SQL becomes the only child of a root. -/
def root (r : Reading) : Tree Unit :=
  match r.node with
  | .group _ k cs => ⟨(), k, cs⟩
  | n => ⟨(), .and, [n]⟩

def ofWords (limits : Limits) (ws : List Word) : Except Error Reading :=
  let raw (warnings : List Warning) : Reading := ⟨.raw () (Word.source ws), warnings⟩
  if ws = [] then .ok ⟨.group () .and [], []⟩
  else if Word.balanced 0 ws = false then .ok (raw [.unbalanced])
  else
    let level := readLevel limits.maxDepth ((Word.unwrap? ws).getD ws)
    if limits.steps < level.steps then .ok (raw [.timeout (limits.steps + 1)])
    else match level.result with
      | none => .error (.nestingTooDeep (limits.maxDepth + 1) limits.maxDepth)
      | some (none, warnings) => .ok (raw warnings)
      | some (some l, warnings) => .ok ⟨.group () l.logic l.children, warnings⟩

def ofText (limits : Limits) (text : String) : Except Error Reading :=
  ofWords limits (Word.ofText limits.dialect.backslashEscapes text)

end Reading

end SqlFilter
