import SqlFilter.Tree.Reader

/-!
# Reading with a meter

Filter text can be read with a meter that runs along. Every word that the cut of a level looks at
and every token that is taken into a condition is counted when it is its turn, warnings are noted as
they come up, and levels are counted on the way down. The reading stops in the middle of what it is
doing where the steps run out, where the clock is looked at and the time is over, and at a level too
many.
-/

namespace SqlFilter

open Word

theorem le_of_checkDepth {depth max d : Nat} (h : checkDepth depth max = .ok d) : depth ≤ max := by
  rw [checkDepth] at h
  split at h
  · cases h
  · exact Nat.not_lt.1 ‹_›

/-! ## Computations with a meter -/

/-- What is noted while a text is read. -/
structure Meter where
  /-- The number of steps so far. -/
  steps : Nat := 0
  /-- The warnings so far. -/
  warnings : List Warning := []

/-- Why a reading stops before its end. -/
inductive Stop where
  /-- There are no steps or there is no time left. -/
  | timeout
  | failed (error : Error)

/-- A computation that runs with a meter, and may stop before its end. -/
def Metered (α : Type) : Type := Meter → Except Stop α × Meter

/-- The reading stops at a step: it is one too many, or the clock is looked at and the time is
over. -/
def Limits.StopsAt (l : Limits) (n : Nat) : Prop :=
  l.stepBudget < n ∨ n % clockInterval = 0 ∧ l.expired = true

instance (l : Limits) (n : Nat) : Decidable (l.StopsAt n) :=
  inferInstanceAs (Decidable (_ ∨ _))

namespace Metered

instance : Monad Metered where
  pure a m := (.ok a, m)
  bind x f m := match x m with
    | (.ok a, m) => f a m
    | (.error s, m) => (.error s, m)

section Bind

variable {α β : Type} {x : Metered α} {m m' : Meter}

theorem bind_of_ok {a : α} (h : x m = (.ok a, m')) (f : α → Metered β) :
    (x >>= f) m = f a m' := by
  simp only [bind, h]

theorem bind_of_error {s : Stop} (h : x m = (.error s, m')) (f : α → Metered β) :
    (x >>= f) m = (.error s, m') := by
  simp only [bind, h]

end Bind

/-- Stops. -/
def stop {α : Type} (s : Stop) : Metered α := fun m => (.error s, m)

/-- Notes a warning. -/
def warn (w : Warning) : Metered Unit := fun m =>
  (.ok (), { m with warnings := m.warnings ++ [w] })

section Reader

variable (limits : Limits)

/-- Counts a step. -/
def tick : Metered Unit := fun m =>
  let n := m.steps + 1
  (if limits.StopsAt n then .error .timeout else .ok (), { m with steps := n })

/-! ## Conditions -/

/-- Takes the next token. -/
def next : List Token → Metered (Option Token × List Token)
  | [] => pure (none, [])
  | t :: ts => do
    tick limits
    pure (some t, ts)

/-- Takes the next token if it is the expected one. -/
def eat (expected : Token) : List Token → Metered (Bool × List Token)
  | [] => pure (false, [])
  | t :: ts =>
    if t = expected then do
      tick limits
      pure (true, ts)
    else pure (false, t :: ts)

/-- The literal that a token is, behind a minus or not. -/
def literalOf (negative : Bool) : Option Token → Option Literal
  | some (.number s) => Literal.ofNumeral negative s
  | some (.string s) => if negative then none else some (.string s)
  | some (.keyword .true) => if negative then none else some (.boolean true)
  | some (.keyword .false) => if negative then none else some (.boolean false)
  | _ => none

/-- Reads a literal. -/
def literal (ts : List Token) : Metered (Token.Read Literal) := do
  let (negative, ts) ← eat limits .minus ts
  let (t, ts) ← next limits ts
  pure (literalOf negative t, ts)

/-- Reads literals between commas up to a closing parenthesis, so many of them at most. -/
def items : Nat → List Token → Metered (Token.Read (List Literal))
  | 0, ts => pure (none, ts)
  | bound + 1, ts => do
    let (l, ts) ← literal limits ts
    match l with
    | none => pure (none, ts)
    | some l =>
      let (closed, ts) ← eat limits .rightParen ts
      if closed then pure (some [l], ts)
      else do
        let (more, ts) ← eat limits .comma ts
        if more then do
          let (ls, ts) ← items bound ts
          pure (ls.map (l :: ·), ts)
        else pure (none, ts)

/-- Reads a list of literals in parentheses. -/
def list (ts : List Token) : Metered (Token.Read (List Literal)) := do
  let (opened, ts) ← eat limits .leftParen ts
  if opened then items limits ts.length ts else pure (none, ts)

/-- Reads identifiers between points, so many of them at most. -/
def path : Nat → List Token → Metered (Token.Read (List String))
  | 0, ts => pure (none, ts)
  | bound + 1, ts => do
    let (t, ts) ← next limits ts
    match t.bind Token.identifier? with
    | none => pure (none, ts)
    | some s =>
      let (more, ts) ← eat limits .dot ts
      if more then do
        let (names, ts) ← path bound ts
        pure (names.map (s :: ·), ts)
      else pure (some [s], ts)

/-- The operator that a token is by itself. -/
def operatorOf : Token → Option Operator
  | .eq => some .eq
  | .ne => some .ne
  | .gt => some .gt
  | .lt => some .lt
  | .ge => some .ge
  | .le => some .le
  | .keyword .like => some .like
  | .keyword .ilike => some .ilike
  | .keyword .within => some .isIn
  | .keyword .between => some .between
  | _ => none

/-- Reads an operator. -/
def operator (ts : List Token) : Metered (Token.Read Operator) := do
  let (t, ts) ← next limits ts
  match t with
  | some (.keyword .not) =>
    let (within, ts) ← eat limits (.keyword .within) ts
    pure (if within then some .notIn else none, ts)
  | some (.keyword .is) =>
    let (negated, ts) ← eat limits (.keyword .not) ts
    let (null, ts) ← eat limits (.keyword .null) ts
    pure (if null then some (if negated then .isNotNull else .isNull) else none, ts)
  | t => pure (t.bind operatorOf, ts)

/-- Reads the bounds of a range, the keyword between them included. -/
def bounds (ts : List Token) : Metered (Token.Read (Literal × Literal)) := do
  let (low, ts) ← literal limits ts
  match low with
  | none => pure (none, ts)
  | some low =>
    let (more, ts) ← eat limits (.keyword .and) ts
    if more then do
      let (high, ts) ← literal limits ts
      pure (high.map (low, ·), ts)
    else pure (none, ts)

/-- Reads what an operator needs on its right. -/
def operand (op : Operator) (ts : List Token) :
    Metered (Token.Read (Option Operand × Option Literal)) :=
  match op.shape with
  | .nullCheck => pure (some (none, none), ts)
  | .list => do
    let (vs, ts) ← list limits ts
    pure (vs.map fun vs => (some (.list vs), none), ts)
  | .bounds => do
    let (bs, ts) ← bounds limits ts
    pure (bs.map fun (low, high) => (some (.single low), some high), ts)
  | .single => do
    let (v, ts) ← literal limits ts
    pure (v.map fun v => (some (.single v), none), ts)

/-- Reads the operator and what it needs, for a column that has been read. -/
def comparison (table column : String) (ts : List Token) : Metered (Token.Read Condition) := do
  let (op, ts) ← operator limits ts
  match op with
  | none => pure (none, ts)
  | some op =>
    let (vs, ts) ← operand limits op ts
    pure (vs.map fun (value, upper) => ⟨table, column, op, value, upper, .atWhere⟩, ts)

/-- Reads a condition. -/
def condition (ts : List Token) : Metered (Token.Read Condition) := do
  let (names, ts) ← path limits ts.length ts
  match names with
  | some [column] => comparison limits "" column ts
  | some [table, column] => comparison limits table column ts
  | _ => pure (none, ts)

/-! ## Levels -/

/-- Cuts a level word by word. The parts in front of the last connective are `done`, that connective
is `seen`, and `part` is what stands behind it so far. -/
def cutFrom (depth : Nat) (pending : Bool) (seen : Option Logic) (done : List (List Word))
    (part : List Word) : List Word → Metered Split
  | [] => pure (if part = [] then .malformed else .parts (seen.getD .and) (done ++ [part]))
  | w :: ws => do
    tick limits
    match connective? depth pending w with
    | none =>
      cutFrom (depthAfter depth w) (pendingAfter depth pending w) seen done (part ++ [w]) ws
    | some k =>
      if seen.any (· ≠ k) then pure .ambiguous
      else if part = [] then pure .malformed
      else cutFrom depth false (some k) (done ++ [part]) [] ws

/-- Cuts a level. -/
def split (ws : List Word) : Metered Split :=
  if ws = [] then pure (.parts .and []) else cutFrom limits 0 false none [] [] ws

/-- Reads a part of a level, with `inner` to read what stands in parentheses. -/
def part (inner : List Word → Metered (Option Level)) (ws : List Word) :
    Metered (Option (Node Unit)) :=
  match unwrap? ws with
  | some body => do
    match ← inner body with
    | none => pure (some (.raw () (source body)))
    | some ⟨_, []⟩ => pure none
    | some ⟨k, cs⟩ => pure (some (.group () k cs))
  | none => do
    let (c, rest) ← condition limits (ws.map token)
    match if rest = [] then c else none with
    | some c => pure (some (.condition () c))
    | none =>
      warn (.unrecognized (source ws))
      pure (some (.raw () (source ws)))

/-- One part after the other. -/
def members : List (Metered (Option (Node Unit))) → Metered (List (Node Unit))
  | [] => pure []
  | x :: xs => do
    let n ← x
    let ns ← members xs
    pure (n.toList ++ ns)

/-- Reads a level, the number `depth` from the top. -/
def level (depth : Nat) (ws : List Word) : Metered (Option Level) :=
  match h : checkDepth depth limits.maxDepth with
  | .error e => stop (.failed e)
  | .ok _ =>
    have := le_of_checkDepth h
    do
      match ← split limits ws with
      | .ambiguous =>
        warn (.ambiguous (source ws))
        pure none
      | .malformed =>
        warn (.unrecognized (source ws))
        pure none
      | .parts k ps =>
        let ns ← members (ps.map (part limits (level (depth + 1))))
        pure (some ⟨k, ns⟩)
termination_by limits.maxDepth + 1 - depth

end Reader

end Metered

/-! ## Whole texts -/

namespace Reading

/-- What comes of reading a text with a meter. -/
structure Run where
  /-- The reading, or the error. -/
  outcome : Except Error Reading
  /-- The number of steps that were made. -/
  steps : Nat

/-- Reads words with a meter. The depth of what is read is checked once more at the end. -/
def meterWords (limits : Limits) (ws : List Word) : Run :=
  if ws = [] then ⟨.ok ⟨.group () .and [], []⟩, 0⟩
  else if balanced 0 ws = false then ⟨.ok ⟨.raw () (source ws), [.unbalanced]⟩, 0⟩
  else
    match Metered.level limits 1 ((unwrap? ws).getD ws) {} with
    | (.ok (some l), m) =>
      ⟨(checkDepth (1 + Node.maxDepth l.children) limits.maxDepth).map fun _ =>
        ⟨.group () l.logic l.children, m.warnings⟩, m.steps⟩
    | (.ok none, m) => ⟨.ok ⟨.raw () (source ws), m.warnings⟩, m.steps⟩
    | (.error .timeout, m) => ⟨.ok ⟨.raw () (source ws), [.timeout m.steps]⟩, m.steps⟩
    | (.error (.failed e), m) => ⟨.error e, m.steps⟩

/-- Reads filter text with a meter. -/
def meter (limits : Limits) (text : String) : Run :=
  meterWords limits (Word.ofText limits.dialect.backslashEscapes text)

end Reading

end SqlFilter
