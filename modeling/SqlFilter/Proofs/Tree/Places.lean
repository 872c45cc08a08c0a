import SqlFilter.Proofs.Token.Stretch
import SqlFilter.Tree.Reader

/-!
# Reading by places

Filter text can be read with places in the words of the whole text instead of lists of words. Such a
reading fails where a place is out of range, where the number of open parentheses falls below zero,
and where an offset in the text is not between characters. It keeps a record of the stretches that it
visits.

The limit on the number of steps is looked at behind the levels, so that all stretches are visited
that some limit lets the reader come to.
-/

namespace SqlFilter

open Word

/-! ## Visits -/

/-- What a stretch is cut into. -/
inductive Division where
  /-- Parts joined by one connective. -/
  | parts (logic : Logic) (parts : List Stretch)
  | ambiguous
  | malformed
  deriving DecidableEq, Repr

/-- What the reader does with a stretch. -/
inductive Visit where
  /-- Reads it as a level. -/
  | level (r : Stretch)
  /-- Cuts it at its connectives. -/
  | split (r : Stretch) (outcome : Division)
  /-- Looks for a pair of parentheses around it. -/
  | wraps (r : Stretch)
  /-- Reads it as a condition. -/
  | condition (r : Stretch)
  /-- Takes its text. -/
  | source (r : Stretch)
  deriving DecidableEq, Repr

/-- A computation that reads words by their places: the visits that it makes, and its result. There
is none if it fails. -/
structure Watched (α : Type) where
  /-- The visits in order. -/
  visits : List Visit
  /-- The result. -/
  result : Option α

namespace Watched

instance : Monad Watched where
  pure a := ⟨[], some a⟩
  bind x f := match x.result with
    | none => ⟨x.visits, none⟩
    | some a => ⟨x.visits ++ (f a).visits, (f a).result⟩

/-- Makes a visit. -/
def visit (v : Visit) : Watched Unit := ⟨[v], some ()⟩

/-- Fails without a value. -/
def ofOption {α : Type} (o : Option α) : Watched α := ⟨[], o⟩

/-- One less. Fails below zero. -/
def pred (n : Nat) : Watched Nat := ofOption (if n = 0 then none else some (n - 1))

/-- How many parentheses are open behind a word. -/
def depthAfter (depth : Nat) (w : Word) : Watched Nat :=
  if w.token = .leftParen then pure (depth + 1)
  else if w.token = .rightParen then pred depth
  else pure depth

/-- The computation succeeds with the value, and its visits have the property. -/
structure Yields {α : Type} (P : Visit → Prop) (x : Watched α) (a : α) : Prop where
  result_eq : x.result = some a
  visits : ∀ v ∈ x.visits, P v

section Yields

variable {α β : Type} {P : Visit → Prop}

theorem Yields.pure (a : α) : Yields P (Pure.pure a) a :=
  ⟨rfl, fun _ hv => absurd hv List.not_mem_nil⟩

theorem Yields.bind {x : Watched α} {a : α} (hx : Yields P x a) {f : α → Watched β} {b : β}
    (hf : Yields P (f a) b) : Yields P (x >>= f) b := by
  obtain ⟨vs, o⟩ := x
  obtain ⟨rfl, hvs⟩ := hx
  exact ⟨hf.result_eq, List.forall_mem_append.2 ⟨hvs, hf.visits⟩⟩

theorem Yields.visit {v : Visit} (h : P v) : Yields P (visit v) () :=
  ⟨rfl, List.forall_mem_singleton.2 h⟩

theorem Yields.ofOption {o : Option α} {a : α} (h : o = some a) : Yields P (ofOption o) a :=
  ⟨h, fun _ hv => absurd hv List.not_mem_nil⟩

theorem Yields.pred {n : Nat} (h : n ≠ 0) : Yields P (pred n) (n - 1) :=
  .ofOption (if_neg h)

theorem Yields.depthAfter {depth : Nat} {w : Word} (h : w.token = .rightParen → depth ≠ 0) :
    Yields P (depthAfter depth w) (Word.depthAfter depth w) := by
  unfold Watched.depthAfter Word.depthAfter
  split_ifs with hl hr
  · exact .pure _
  · exact .pred (h hr)
  · exact .pure _

end Yields

/-- One computation after the other. None is made behind one that comes to a failed attempt. -/
def collect : List (Watched (Attempt (Option (Node Unit)))) → Watched (Attempt (List (Node Unit)))
  | [] => pure ⟨0, some ([], [])⟩
  | x :: xs => do
    let a ← x
    match a.result with
    | none => pure ⟨a.steps, none⟩
    | some (n, warnings) =>
      let rest ← collect xs
      pure ⟨a.steps + rest.steps,
        rest.result.map fun (ns, more) => (n.toList ++ ns, warnings ++ more)⟩

theorem Yields.collect {P : Visit → Prop} {xs : List (Watched (Attempt (Option (Node Unit))))}
    {as : List (Attempt (Option (Node Unit)))} (h : List.Forall₂ (Yields P) xs as) :
    Yields P (collect xs) (Attempt.collect as) := by
  induction h with
  | nil => exact .pure _
  | cons hx hxs ih =>
    refine hx.bind ?_
    rw [Attempt.collect]
    cases hresult : Attempt.result _ with
    | none => exact .pure _
    | some x => exact ih.bind (.pure _)

end Watched

/-! ## The reader -/

namespace Scanned

variable (s : Scanned)

/-- The word at a place. -/
def wordAt (i : Nat) : Watched Word := .ofOption s.words[i]?

/-- The words from place `i` up to place `hi`. -/
def wordsAt (hi i : Nat) : Watched (List Word) :=
  if i < hi then do
    let w ← s.wordAt i
    let ws ← wordsAt hi (i + 1)
    pure (w :: ws)
  else pure []
termination_by hi - i

/-- The text of a stretch. -/
def sourceAt (r : Stretch) : Watched String := do
  .visit (.source r)
  .ofOption (s.source? r)

/-- Reads a stretch as a condition. -/
def conditionAt (r : Stretch) : Watched (Option Condition × Nat) := do
  .visit (.condition r)
  let ws ← s.wordsAt r.hi r.lo
  pure (Condition.ofTokens (ws.map token))

/-- Whether the parenthesis that brings the depth back to zero stands in front of place `hi`, with
`depth` parentheses open in front of place `i`. -/
def closesAt (hi i depth : Nat) : Watched Bool :=
  if i < hi then do
    let w ← s.wordAt i
    let depth ← Watched.depthAfter depth w
    if w.token = .rightParen ∧ depth = 0 then pure (i + 1 = hi)
    else closesAt hi (i + 1) depth
  else pure false
termination_by hi - i

/-- Whether the first and the last word are a pair of parentheses. -/
def wrapsAt (r : Stretch) : Watched Bool := do
  .visit (.wraps r)
  if r.hi < r.lo + 2 then pure false
  else do
    let first ← s.wordAt r.lo
    let last ← s.wordAt (r.hi - 1)
    if first.token = .leftParen ∧ last.token = .rightParen then s.closesAt r.hi r.lo 0
    else pure false

/-- The stretch without its first and last word. -/
def insideOf (r : Stretch) : Watched Stretch := do
  let hi ← Watched.pred r.hi
  pure ⟨r.lo + 1, hi⟩

/-- Cuts the stretch from `lo` up to `hi`, with `i` as the next place. The last connective so far is
`seen`, the parts in front of it are `done`, and the words behind it begin at place `start`. Counts
the words looked at. -/
def splitFrom (lo hi i depth : Nat) (pending : Bool) (seen : Option Logic) (start : Nat)
    (done : List Stretch) : Watched (Division × Nat) :=
  if i < hi then do
    let w ← s.wordAt i
    let behind ← Watched.depthAfter depth w
    match connective? depth pending w with
    | none => splitFrom lo hi (i + 1) behind (pendingAfter depth pending w) seen start done
    | some k =>
      if seen.any (· ≠ k) then pure (.ambiguous, i + 1 - lo)
      else if start = i then pure (.malformed, i + 1 - lo)
      else splitFrom lo hi (i + 1) behind false (some k) (i + 1) (done ++ [⟨start, i⟩])
  else if start = hi then
    pure (if done = [] ∧ lo = hi then .parts .and [] else .malformed, hi - lo)
  else pure (.parts (seen.getD .and) (done ++ [⟨start, hi⟩]), hi - lo)
termination_by hi - i

/-- Cuts a stretch at its connectives. -/
def splitAt (r : Stretch) : Watched (Division × Nat) := do
  let outcome ← s.splitFrom r.lo r.hi r.lo 0 false none r.lo []
  .visit (.split r outcome.1)
  pure outcome

/-- Reads a part of a level, with `inner` to read what stands in parentheses. -/
def partAt (inner : Stretch → Watched (Attempt (Option Level))) (r : Stretch) :
    Watched (Attempt (Option (Node Unit))) := do
  if ← s.wrapsAt r then
    let body ← insideOf r
    let level ← inner body
    match level.result with
    | none => pure ⟨level.steps, none⟩
    | some (none, warnings) =>
      let text ← s.sourceAt body
      pure ⟨level.steps, some (some (.raw () text), warnings)⟩
    | some (some ⟨_, []⟩, warnings) => pure ⟨level.steps, some (none, warnings)⟩
    | some (some ⟨k, cs⟩, warnings) => pure ⟨level.steps, some (some (.group () k cs), warnings)⟩
  else
    match ← s.conditionAt r with
    | (some c, n) => pure ⟨n, some (some (.condition () c), [])⟩
    | (none, n) =>
      let text ← s.sourceAt r
      pure ⟨n, some (some (.raw () text), [.unrecognized text])⟩

/-- Reads a level, where groups may be nested `room` levels deep from here on. -/
def levelAt : (room : Nat) → Stretch → Watched (Attempt (Option Level))
  | 0, r => do
    .visit (.level r)
    pure ⟨0, none⟩
  | room + 1, r => do
    .visit (.level r)
    match ← s.splitAt r with
    | (.ambiguous, n) =>
      let text ← s.sourceAt r
      pure ⟨n, some (none, [.ambiguous text])⟩
    | (.malformed, n) =>
      let text ← s.sourceAt r
      pure ⟨n, some (none, [.unrecognized text])⟩
    | (.parts k rs, n) =>
      let children ← Watched.collect (rs.map (s.partAt (levelAt room)))
      pure ⟨n + children.steps, children.result.map fun (cs, warnings) => (some ⟨k, cs⟩, warnings)⟩

/-- The stretch without a pair of parentheses around it. -/
def strippedAt (r : Stretch) : Watched Stretch := do
  if ← s.wrapsAt r then insideOf r else pure r

/-- Reads all the words. -/
def readingAt (limits : Limits) : Watched (Except Error Reading) :=
  if s.words = [] then pure (.ok ⟨.group () .and [], []⟩)
  else do
    let text ← s.sourceAt ⟨0, s.words.length⟩
    if balanced 0 s.words = false then pure (.ok ⟨.raw () text, [.unbalanced]⟩)
    else do
      let r ← s.strippedAt ⟨0, s.words.length⟩
      let level ← s.levelAt limits.maxDepth r
      if limits.steps < level.steps then
        pure (.ok ⟨.raw () text, [.timeout (limits.steps + 1)]⟩)
      else match level.result with
        | none => pure (.error (.nestingTooDeep (limits.maxDepth + 1) limits.maxDepth))
        | some (none, warnings) => pure (.ok ⟨.raw () text, warnings⟩)
        | some (some l, warnings) => pure (.ok ⟨.group () l.logic l.children, warnings⟩)

end Scanned

/-- Reads filter text by places. -/
def Reading.watch (limits : Limits) (text : String) : Watched (Except Error Reading) :=
  (Scanned.ofText limits.dialect.backslashEscapes text).readingAt limits

end SqlFilter
