import SqlFilter.Proofs.Token.Ended
import SqlFilter.Proofs.Token.Stretch

/-!
# Lexing by an offset

A text can be lexed with an offset that moves over its bytes, one character at a time and sometimes
back. Such a lexing comes to nothing where it looks at the text from an offset that is inside a
character or behind the end, and where it goes on for ever.

Neither happens. From an offset between two characters, each of the readers moves on by the
characters that belong to what it reads (`Lexing.Reads`), and so the offset is between two
characters again: the tokens come out with the places that they have in the text
(`Lexing.ofText_eq`).
-/

namespace SqlFilter

open Text

/-- The text from an offset on. There is none if the offset is inside a character or behind the
end. -/
def dropBytes? (n : Nat) (cs : List Char) : Option (List Char) :=
  (takeBytes? n cs).map fun before => cs.drop before.length

theorem dropBytes?_append (xs ys : List Char) : dropBytes? (byteCount xs) (xs ++ ys) = some ys := by
  rw [dropBytes?, takeBytes?_append, Option.map_some, List.drop_left]

/-- A computation that moves an offset through a text. It has no result if it fails or does not
end. -/
abbrev Lexing (α : Type) : Type := StateT Nat Part α

namespace Lexing

/-- The value, if there is one. -/
def ofOption {α : Type} (o : Option α) : Lexing α := StateT.lift (Part.ofOption o)

/-- A turn of a loop: a result, or what the next turn starts with, each with the offset. -/
def turned {α σ : Type} (turn : σ → Lexing (α ⊕ σ)) : σ × Nat →. α × Nat ⊕ σ × Nat := fun s =>
  ((turn s.1).run s.2).map fun r => r.1.map (·, r.2) (·, r.2)

/-- Takes turns until one gives a result. -/
def loop {α σ : Type} (turn : σ → Lexing (α ⊕ σ)) (start : σ) : Lexing α := fun offset =>
  (turned turn).fix (start, offset)

/-! ## The readers -/

section Readers

variable (text : List Char)

/-- The text from the offset on. -/
def ahead : Lexing (List Char) := do
  ofOption (dropBytes? (← get) text)

/-- The next character. -/
def peek : Lexing (Option Char) := do
  return (← ahead text).head?

/-- The character behind the next one. -/
def peekNext : Lexing (Option Char) := do
  return (← ahead text)[1]?

/-- Moves over the next character. -/
def bump : Lexing (Option Char) := do
  match ← peek text with
  | none => return none
  | some c =>
    modify (· + c.utf8Size)
    return some c

/-- The text from `start` up to the offset. -/
def cut (start : Nat) : Lexing (List Char) := do
  ofOption (slice? text start (← get))

/-- Moves on as long as the next character has the property. -/
def skipWhile (p : Char → Bool) : Lexing Unit :=
  loop (fun _ => do
    if (← peek text).any p then
      let _ ← bump text
      return .inr ()
    else return .inl ()) ()

/-- Moves over a point with a digit behind it and the digits that follow. -/
def skipFraction : Lexing Unit := do
  if (← peek text) = some '.' then
    if (← peekNext text).any Char.isDigit then
      let _ ← bump text
      skipWhile text Char.isDigit

/-- Moves over a sign. -/
def skipSign : Lexing Unit := do
  if (← peek text).any fun c => c == '+' || c == '-' then
    let _ ← bump text

/-- Moves over an exponent. Goes back to where it began if no digit comes. -/
def skipExponent : Lexing Unit := do
  if (← peek text).any fun c => c == 'e' || c == 'E' then
    let mark ← get
    let _ ← bump text
    skipSign text
    if (← peek text).any Char.isDigit then skipWhile text Char.isDigit
    else set mark

/-- Moves over the rest of a numeral, behind its first digit. -/
def skipNumeral : Lexing Unit := do
  skipWhile text Char.isDigit
  skipFraction text
  skipExponent text

/-- Reads a token that starts with a digit, behind that digit. -/
def readNumber (start : Nat) : Lexing Token := do
  skipNumeral text
  if (← peek text).any Token.isNamePart then
    skipWhile text Token.isNamePart
    return .illegal
  else
    return .number (String.ofList (← cut text start))

/-- Reads an identifier or a keyword, behind its first character. -/
def readName (start : Nat) : Lexing Token := do
  skipWhile text Token.isNamePart
  return Token.ofWord (String.ofList (← cut text start))

/-- What has been collected, or the text as it stands if nothing has. -/
def collected (start stop : Nat) : Option (List Char) → Lexing (List Char)
  | some cs => pure cs
  | none => ofOption (slice? text start stop)

/-- Reads on behind the character `c` at `stop` in quotes: the content up to there if it ends, or
what is collected of it. It is collected from the first character on that is not written as it is
meant. -/
def readPast (escapes : Bool) (close : Char) (start stop : Nat) (owned : Option (List Char))
    (c : Char) : Lexing (Option (List Char) ⊕ Option (List Char)) := do
  if escapes && c == '\\' then
    match ← bump text with
    | none => return .inl none
    | some d =>
      let cs ← collected text start stop owned
      return .inr (some (cs ++ [Token.unescape d]))
  else if c == close then
    if (← peek text) = some close then
      let _ ← bump text
      let cs ← collected text start stop owned
      return .inr (some (cs ++ [close]))
    else
      return .inl (some (← collected text start stop owned))
  else return .inr (owned.map (· ++ [c]))

/-- Reads one character on in quotes. -/
def readWithin (escapes : Bool) (close : Char) (start : Nat) (owned : Option (List Char)) :
    Lexing (Option (List Char) ⊕ Option (List Char)) := do
  let stop ← get
  match ← bump text with
  | none => return .inl none
  | some c => readPast text escapes close start stop owned c

/-- Reads on behind an opening mark at `start`: the content up to the closing mark. -/
def readContent (escapes : Bool) (close : Char) (start : Nat) :
    (owned : Option (List Char)) → Lexing (Option (List Char)) :=
  loop (readWithin text escapes close start)

/-- Reads a token between quotes, behind its opening mark. -/
def readQuoted (token : String → Token) (escapes : Bool) (close : Char) : Lexing Token := do
  match ← readContent text escapes close (← get) none with
  | some s => return token (String.ofList s)
  | none => return .illegal

/-- Moves behind the closing mark of a comment, or to the end of the text if there is none. -/
def skipComment : Lexing Unit :=
  loop (fun _ => do
    match ← bump text with
    | none => return .inl ()
    | some c =>
      if c = '*' ∧ (← peek text) = some '/' then
        let _ ← bump text
        return .inl ()
      else return .inr ()) ()

/-- Reads a token of one or two characters, behind the first one. -/
def readPair (short : Token) (c : Char) (long : Token) : Lexing Token := do
  if (← peek text) = some c then
    let _ ← bump text
    return long
  else return short

/-- Reads the token that starts with the character `c` at `start`, behind that character. -/
def readToken (escapes : Bool) (start : Nat) (c : Char) : Lexing Token :=
  if c = '(' then pure .leftParen
  else if c = ')' then pure .rightParen
  else if c = ',' then pure .comma
  else if c = '.' then pure .dot
  else if c = '=' then pure .eq
  else if c = '-' then do
    if (← peek text) = some '-' then
      skipWhile text (· ≠ '\n')
      return .comment
    else return .minus
  else if c = '/' then do
    if (← peek text) = some '*' then
      let _ ← bump text
      skipComment text
      return .comment
    else return .illegal
  else if c = '<' then do
    if (← peek text) = some '=' then
      let _ ← bump text
      return .le
    else readPair text .lt '>' .ne
  else if c = '>' then readPair text .gt '=' .ge
  else if c = '!' then readPair text .illegal '=' .ne
  else if c = '\'' then readQuoted text .string escapes '\''
  else if c = '"' then readQuoted text .quotedName false '"'
  else if c = Dialect.backtick then readQuoted text .quotedName false Dialect.backtick
  else if c = '[' then readQuoted text .quotedName false ']'
  else if c.isDigit then readNumber text start
  else if Token.isNameStart c then readName text start
  else pure .illegal

/-- The next token with its place. -/
def next (escapes : Bool) : Lexing (Option Located) := do
  skipWhile text isBlank
  let start ← get
  match ← bump text with
  | none => return none
  | some c =>
    let t ← readToken text escapes start c
    return some ⟨t, start, ← get⟩

/-- The tokens `ls` and those that follow up to the end of the text. -/
def collect (escapes : Bool) : (ls : List Located) → Lexing (List Located) :=
  loop fun ls => do
    match ← next text escapes with
    | none => return .inl ls
    | some l => return .inr (ls ++ [l])

end Readers

/-- Lexes a text by an offset. -/
def ofText (escapes : Bool) (text : String) : Part (List Located) :=
  ((collect text.toList escapes []).run 0).map Prod.fst

/-! ## Moving on -/

/-- From the end of `before`, with `cs` ahead, the computation gives a value and moves on by a
number of characters. -/
def Reads {α : Type} (x : Lexing α) (before cs : List Char) (r : α × Nat) : Prop :=
  x.run (byteCount before) = .some (r.1, byteCount (before ++ cs.take r.2))

section Reads

variable {α β : Type} {x : Lexing α} {f : α → Lexing β} {before cs : List Char}

theorem run_bind_of_eq {s s' : Nat} {a : α} (h : x.run s = .some (a, s')) :
    (x >>= f).run s = (f a).run s' := by
  rw [StateT.run_bind, h]
  exact Part.bind_some _ _

theorem Reads.pure (a : α) : Reads (Pure.pure a) before cs (a, 0) := by
  rw [Reads, List.take_zero, List.append_nil]
  rfl

theorem Reads.get : Reads MonadState.get before cs (byteCount before, 0) := by
  rw [Reads, List.take_zero, List.append_nil]
  rfl

theorem Reads.ofOption {o : Option α} {a : α} (h : o = some a) :
    Reads (ofOption o) before cs (a, 0) := by
  rw [Reads, List.take_zero, List.append_nil, h]
  exact Part.bind_some a fun a => Part.some (a, byteCount before)

theorem Reads.bind {a : α} {b : β} {n m : Nat} (hx : Reads x before cs (a, n))
    (hf : Reads (f a) (before ++ cs.take n) (cs.drop n) (b, m)) :
    Reads (x >>= f) before cs (b, n + m) := by
  rw [Reads, run_bind_of_eq hx, hf, List.append_assoc, ← List.take_add]

/-- What comes behind a look ahead starts from the same place. -/
theorem Reads.look {a : α} {r : β × Nat} (hx : Reads x before cs (a, 0))
    (hf : Reads (f a) before cs r) : Reads (x >>= f) before cs r := by
  have hbind : Reads (x >>= f) before cs (r.1, 0 + r.2) :=
    hx.bind (by rwa [List.take_zero, List.append_nil, List.drop_zero])
  rwa [Nat.zero_add] at hbind

/-- What comes of a value by itself takes up no more of the text. -/
theorem Reads.done {a : α} {b : β} {n : Nat} (hx : Reads x before cs (a, n))
    (hf : f a = Pure.pure b) : Reads (x >>= f) before cs (b, n) := by
  have hpure : Reads (f a) (before ++ cs.take n) (cs.drop n) (b, 0) := by
    rw [hf]
    exact .pure b
  exact hx.bind hpure

theorem Reads.ite {p : Prop} [Decidable p] {y : Lexing α} {r s : α × Nat}
    (hx : p → Reads x before cs r) (hy : ¬p → Reads y before cs s) :
    Reads (if p then x else y) before cs (if p then r else s) := by
  split_ifs with hp
  · exact hx hp
  · exact hy hp

end Reads

section Loop

variable {α σ : Type} {turn : σ → Lexing (α ⊕ σ)} {s s' : σ} {before cs : List Char}

theorem turned_of_reads {r : α ⊕ σ} {n : Nat} (h : Reads (turn s) before cs (r, n)) :
    r.map (·, byteCount (before ++ cs.take n)) (·, byteCount (before ++ cs.take n)) ∈
      turned turn (s, byteCount before) := by
  rw [turned, h, Part.map_some]
  exact Part.mem_some _

theorem Reads.stop {a : α} {n : Nat} (h : Reads (turn s) before cs (.inl a, n)) :
    Reads (loop turn s) before cs (a, n) :=
  Part.eq_some_iff.2 (PFun.fix_stop (turned_of_reads h))

theorem Reads.again {a : α} {n m : Nat} (h : Reads (turn s) before cs (.inr s', n))
    (hmore : Reads (loop turn s') (before ++ cs.take n) (cs.drop n) (a, m)) :
    Reads (loop turn s) before cs (a, n + m) := by
  have hnext : (loop turn s).run (byteCount before) =
      (loop turn s').run (byteCount (before ++ cs.take n)) :=
    PFun.fix_fwd_eq (turned_of_reads h)
  rw [Reads, hnext, hmore, List.append_assoc, ← List.take_add]

/-- A loop goes the same way from where its first turn does. -/
theorem run_loop_congr {n n' : Nat} (h : (turn s).run n = (turn s').run n') :
    (loop turn s).run n = (loop turn s').run n' := by
  have hturn : turned turn (s, n) = turned turn (s', n') := by rw [turned, turned, h]
  refine Part.ext fun a => ?_
  show a ∈ (turned turn).fix (s, n) ↔ a ∈ (turned turn).fix (s', n')
  rw [PFun.mem_fix_iff, PFun.mem_fix_iff, hturn]

end Loop

/-! ## What the readers read -/

theorem any_head?_iff {p : Char → Bool} {cs : List Char} :
    cs.head?.any p = true ↔ cs.takeWhile p ≠ [] := by
  cases cs with
  | nil => exact iff_of_false Bool.false_ne_true fun h => h rfl
  | cons c cs =>
    by_cases hc : p c = true
    · rw [List.takeWhile_cons_of_pos hc]
      exact iff_of_true hc (List.cons_ne_nil _ _)
    · rw [List.takeWhile_cons_of_neg hc]
      exact iff_of_false hc fun h => h rfl

theorem fractionSize_of_digits {cs : List Char} (h : cs.takeWhile Char.isDigit ≠ []) :
    Token.fractionSize ('.' :: cs) = 1 + (cs.takeWhile Char.isDigit).length := by
  rw [Token.fractionSize]
  split
  · next hnil => exact absurd (List.length_eq_zero_iff.1 hnil) h
  · exact Nat.add_comm _ 1

theorem exponentSize_of_digits {c : Char} {cs : List Char} (hc : (c == 'e' || c == 'E') = true)
    (h : Token.signedDigits cs ≠ []) : Token.exponentSize (c :: cs) =
      1 + (Token.signSize cs + (Token.signedDigits cs).length) := by
  rw [Token.exponentSize_cons, if_pos hc]
  split
  · next hnil => exact absurd (List.length_eq_zero_iff.1 hnil) h
  · rw [Nat.add_comm (Token.signSize cs), Nat.add_comm 1]

section Readers

variable {text before cs : List Char}

theorem split_cons {c : Char} (h : text = before ++ c :: cs) : text = before ++ [c] ++ cs := by
  rw [h, List.append_assoc]
  rfl

section Steps

variable (h : text = before ++ cs)

include h

theorem split_take (n : Nat) : text = before ++ cs.take n ++ cs.drop n := by
  rw [List.append_assoc, List.take_append_drop, h]

theorem reads_ahead : Reads (ahead text) before cs (cs, 0) := by
  refine Reads.get.look (.ofOption ?_)
  rw [h, dropBytes?_append]

theorem reads_peek : Reads (peek text) before cs (cs.head?, 0) :=
  (reads_ahead h).look (.pure _)

theorem reads_peekNext : Reads (peekNext text) before cs (cs[1]?, 0) :=
  (reads_ahead h).look (.pure _)

theorem reads_bump : Reads (bump text) before cs (cs.head?, 1) := by
  have hpeek := reads_peek h
  cases cs with
  | nil =>
    rw [bump, Reads, run_bind_of_eq hpeek]
    rfl
  | cons c cs =>
    have hmove : (modify (· + c.utf8Size) : Lexing Unit).run (byteCount before) =
        .some ((), byteCount before + c.utf8Size) := rfl
    rw [bump, Reads, run_bind_of_eq hpeek, List.take_zero, List.append_nil, byteCount_append]
    exact run_bind_of_eq hmove

theorem reads_bump_nil (hnil : cs = []) : Reads (bump text) before cs (none, 0) := by
  subst hnil
  exact reads_bump h

theorem reads_cut {pre here : List Char} (hbefore : before = pre ++ here) :
    Reads (cut text (byteCount pre)) before cs (here, 0) := by
  refine Reads.get.look (.ofOption ?_)
  rw [h, hbefore, List.append_assoc, slice?_append]

theorem reads_skipWhile (p : Char → Bool) :
    Reads (skipWhile text p) before cs ((), (cs.takeWhile p).length) := by
  induction cs generalizing before with
  | nil =>
    rw [skipWhile]
    exact .stop ((reads_peek h).look (.pure _))
  | cons c cs ih =>
    by_cases hc : p c = true
    · have hmore := @ih (before ++ [c]) (split_cons h)
      rw [List.takeWhile_cons_of_pos hc, List.length_cons, Nat.add_comm]
      refine .again ((reads_peek h).look ?_) hmore
      rw [List.head?_cons, Option.any_some, if_pos hc]
      exact (reads_bump h).done rfl
    · rw [List.takeWhile_cons_of_neg hc, skipWhile]
      refine .stop ((reads_peek h).look ?_)
      rw [List.head?_cons, Option.any_some, if_neg hc]
      exact .pure _

theorem reads_skipFraction :
    Reads (skipFraction text) before cs ((), Token.fractionSize cs) := by
  refine (reads_peek h).look ?_
  by_cases hpoint : cs.head? = some '.'
  · obtain ⟨ds, rfl⟩ := List.head?_eq_some_iff.1 hpoint
    have hds := split_cons h
    rw [if_pos hpoint]
    refine (reads_peekNext h).look ?_
    rw [List.getElem?_cons_succ, ← List.head?_eq_getElem?]
    by_cases hd : ds.head?.any Char.isDigit = true
    · rw [if_pos hd, fractionSize_of_digits (any_head?_iff.1 hd)]
      exact (reads_bump h).bind (reads_skipWhile hds _)
    · rw [if_neg hd, Token.fractionSize, Decidable.not_not.1 (mt any_head?_iff.2 hd)]
      exact .pure ()
  · rw [if_neg hpoint]
    cases cs with
    | nil => exact .pure ()
    | cons c cs =>
      rw [Token.fractionSize_of_ne fun hc => hpoint (by rw [hc]; rfl)]
      exact .pure ()

theorem reads_skipSign : Reads (skipSign text) before cs ((), Token.signSize cs) := by
  refine (reads_peek h).look ?_
  cases cs with
  | nil => exact .pure ()
  | cons c cs =>
    rw [List.head?_cons, Option.any_some, Token.signSize]
    by_cases hc : (c == '+' || c == '-') = true
    · rw [if_pos hc, if_pos hc]
      exact (reads_bump h).done rfl
    · rw [if_neg hc, if_neg hc]
      exact .pure ()

theorem reads_skipExponent :
    Reads (skipExponent text) before cs ((), Token.exponentSize cs) := by
  refine (reads_peek h).look ?_
  cases cs with
  | nil => exact .pure ()
  | cons c cs =>
    rw [List.head?_cons, Option.any_some]
    by_cases hc : (c == 'e' || c == 'E') = true
    · have hsign := split_cons h
      have hdigits : text = before ++ [c] ++ cs.take (Token.signSize cs) ++
          cs.drop (Token.signSize cs) := by
        rw [List.append_assoc _ _ (cs.drop _), List.take_append_drop, hsign]
      rw [if_pos hc]
      refine Reads.get.look ?_
      by_cases hd : (cs.drop (Token.signSize cs)).head?.any Char.isDigit = true
      · rw [exponentSize_of_digits hc (any_head?_iff.1 hd)]
        refine (reads_bump h).bind ((reads_skipSign hsign).bind ((reads_peek hdigits).look ?_))
        rw [if_pos hd]
        exact reads_skipWhile hdigits _
      · have hnone : Token.signedDigits cs = [] := Decidable.not_not.1 (mt any_head?_iff.2 hd)
        have hsize : Token.exponentSize (c :: cs) = 0 := by
          rw [Token.exponentSize_cons, if_pos hc, hnone]
          rfl
        -- the offset goes back to the mark, so this is not put together from what is read
        rw [hsize, Reads, run_bind_of_eq (reads_bump h)]
        show StateT.run _ (byteCount (before ++ [c])) = _
        rw [run_bind_of_eq (reads_skipSign hsign), run_bind_of_eq (reads_peek hdigits), if_neg hd]
        show Part.some ((), byteCount before) = Part.some ((), byteCount (before ++ []))
        rw [List.append_nil]
    · rw [if_neg hc, Token.exponentSize_cons, if_neg hc]
      exact .pure ()

theorem reads_skipNumeral : Reads (skipNumeral text) before cs ((), Token.numeralSize cs) := by
  have hwhole := split_take h (cs.takeWhile Char.isDigit).length
  have hfraction := split_take hwhole
    (Token.fractionSize (cs.drop (cs.takeWhile Char.isDigit).length))
  rw [Token.numeralSize, Nat.add_assoc, ← List.drop_drop]
  exact (reads_skipWhile h _).bind
    ((reads_skipFraction hwhole).bind (reads_skipExponent hfraction))

theorem reads_readPair (short : Token) (c : Char) (long : Token) :
    Reads (readPair text short c long) before cs (Token.scanPair short c long cs) := by
  refine (reads_peek h).look (.ite (fun hc => ?_) fun _ => .pure short)
  exact (reads_bump h).done rfl

theorem reads_skipComment_nil (hnil : cs = []) : Reads (skipComment text) before cs ((), 0) := by
  rw [skipComment]
  exact .stop ((reads_bump_nil h hnil).done rfl)

theorem reads_skipComment :
    Reads (skipComment text) before cs ((), Token.commentSize cs) := by
  fun_induction Token.commentSize cs generalizing before with
  | case1 => exact reads_skipComment_nil h rfl
  | case2 c =>
    have hend : text = before ++ [c] ++ [] := by rw [h, List.append_nil]
    show Reads _ before [c] ((), 1 + 0)
    refine .again ?_ (reads_skipComment_nil hend rfl)
    show Reads _ before [c] (_, 1 + 0)
    refine (reads_bump h).bind ((reads_peek hend).look ?_)
    rw [if_neg fun hmark => absurd hmark.2 (by decide)]
    exact .pure _
  | case3 c d cs hmark =>
    have hnext := split_cons h
    simp only [Bool.and_eq_true, beq_iff_eq] at hmark
    rw [skipComment]
    show Reads _ before (c :: d :: cs) ((), 1 + 1)
    refine .stop ((reads_bump h).bind ((reads_peek hnext).look ?_))
    rw [if_pos ⟨hmark.1, congrArg some hmark.2⟩]
    exact (reads_bump hnext).done rfl
  | case4 c d cs hmark ih =>
    have hnext := split_cons h
    simp only [Bool.and_eq_true, beq_iff_eq] at hmark
    rw [Nat.add_comm]
    refine .again ?_ (ih hnext)
    show Reads _ before (c :: d :: cs) (_, 1 + 0)
    refine (reads_bump h).bind ((reads_peek hnext).look ?_)
    rw [if_neg fun hm => hmark ⟨hm.1, Option.some.inj hm.2⟩]
    exact .pure _

end Steps

/-! ### Tokens -/

section Tokens

variable {pre : List Char} {c : Char} (h : text = pre ++ c :: cs)

include h

theorem reads_readName :
    Reads (readName text (byteCount pre)) (pre ++ [c]) cs (Token.scanName c cs) := by
  have hmore := split_take (split_cons h) (cs.takeWhile Token.isNamePart).length
  show Reads _ _ cs (_, (cs.takeWhile Token.isNamePart).length + 0)
  refine (reads_skipWhile (split_cons h) _).bind ?_
  refine (reads_cut hmore (List.append_assoc _ _ _)).done ?_
  rw [Token.take_length_takeWhile]
  rfl

theorem reads_readNumber :
    Reads (readNumber text (byteCount pre)) (pre ++ [c]) cs (Token.scanNumber c cs) := by
  have hmore := split_take (split_cons h) (Token.numeralSize cs)
  by_cases hname : (cs.drop (Token.numeralSize cs)).head?.any Token.isNamePart = true
  · have hscan : Token.scanNumber c cs = (.illegal, Token.numeralSize cs +
        ((cs.drop (Token.numeralSize cs)).takeWhile Token.isNamePart).length) := by
      rw [Token.scanNumber]
      split
      · next hnil => exact absurd (List.length_eq_zero_iff.1 hnil) (any_head?_iff.1 hname)
      · rfl
    rw [hscan]
    refine (reads_skipNumeral (split_cons h)).bind ((reads_peek hmore).look ?_)
    rw [if_pos hname]
    exact (reads_skipWhile hmore _).done rfl
  · have hscan : Token.scanNumber c cs =
        (.number (String.ofList (c :: cs.take (Token.numeralSize cs))),
          Token.numeralSize cs + 0) := by
      rw [Token.scanNumber, Decidable.not_not.1 (mt any_head?_iff.2 hname)]
      rfl
    rw [hscan]
    refine (reads_skipNumeral (split_cons h)).bind ((reads_peek hmore).look ?_)
    rw [if_neg hname]
    exact (reads_cut hmore (List.append_assoc _ _ _)).done rfl

end Tokens

/-! ### Quotes -/

/-- What comes of reading the content of quotes, with `sofar` in front and `n` characters up to the
end of the text. -/
def outcome (sofar : List Char) (n : Nat) (o : Option (List Char × Nat)) :
    Option (List Char) × Nat :=
  (o.map (sofar ++ ·.1), (o.map Prod.snd).getD n)

theorem outcome_map (sofar : List Char) (n k : Nat) (x : Char) (o : Option (List Char × Nat)) :
    outcome sofar (n + k) (o.map fun (s, m) => (x :: s, m + k)) =
      ((outcome (sofar ++ [x]) n o).1, k + (outcome (sofar ++ [x]) n o).2) := by
  cases o with
  | none => exact Prod.ext rfl (Nat.add_comm n k)
  | some r =>
    refine Prod.ext ?_ (Nat.add_comm r.2 k)
    show some (sofar ++ x :: r.1) = some (sofar ++ [x] ++ r.1)
    rw [List.append_assoc]
    rfl

section Quotes

variable {pre done : List Char} {owned : Option (List Char)} (h : text = pre ++ done ++ cs)

include h

theorem reads_collected (here ahead : List Char) :
    Reads (collected text (byteCount pre) (byteCount (pre ++ done)) owned) here ahead
      (owned.getD done, 0) := by
  cases owned with
  | some cs => exact .pure cs
  | none =>
    refine .ofOption ?_
    rw [h, List.append_assoc, slice?_append]
    rfl

theorem reads_readContent_nil (escapes : Bool) (close : Char) (hnil : cs = []) :
    Reads (readContent text escapes close (byteCount pre) owned) (pre ++ done) cs (none, 0) :=
  .stop (Reads.get.look ((reads_bump_nil h hnil).done rfl))

theorem reads_readWithin {escapes : Bool} {close c : Char} {ds : List Char} (hcs : cs = c :: ds)
    {r : Option (List Char) ⊕ Option (List Char)} {n : Nat}
    (hc : Reads (readPast text escapes close (byteCount pre) (byteCount (pre ++ done)) owned c)
      (pre ++ (done ++ [c])) ds (r, n)) :
    Reads (readWithin text escapes close (byteCount pre) owned) (pre ++ done) cs (r, n + 1) := by
  subst hcs
  rw [← List.append_assoc] at hc
  rw [Nat.add_comm]
  exact Reads.get.look ((reads_bump h).bind hc)

theorem split_next {c : Char} {ds : List Char} (hcs : cs = c :: ds) :
    text = pre ++ (done ++ [c]) ++ ds := by
  simp only [h, hcs, List.append_assoc, List.cons_append, List.nil_append]

/-- A closing mark that is not doubled ends the content. -/
theorem reads_readContent_end {escapes : Bool} {close c : Char} {ds : List Char}
    (hcs : cs = c :: ds) (he : ¬(escapes && c == '\\') = true) (hc : (c == close) = true)
    (hd : ds.head? ≠ some close) :
    Reads (readContent text escapes close (byteCount pre) owned) (pre ++ done) cs
      (some (owned.getD done ++ []), 1) := by
  refine .stop (reads_readWithin h hcs ?_)
  rw [readPast, if_neg he, if_pos hc, List.append_nil]
  refine (reads_peek (split_next h hcs)).look ?_
  rw [if_neg hd]
  exact (reads_collected h _ _).done rfl

/-- Where two characters stand for one, what is collected with it is read on behind them. -/
theorem reads_readContent_pair {escapes : Bool} {close c d x : Char} {ds : List Char}
    (hcs : cs = c :: d :: ds) {o : Option (List Char × Nat)}
    (hpast : Reads (readPast text escapes close (byteCount pre) (byteCount (pre ++ done)) owned c)
      (pre ++ (done ++ [c])) (d :: ds) (.inr (some (owned.getD done ++ [x])), 1))
    (hmore : Reads (readContent text escapes close (byteCount pre)
      (some (owned.getD done ++ [x]))) (pre ++ (done ++ [c] ++ [d])) ds
        (outcome (owned.getD done ++ [x]) ds.length o)) :
    Reads (readContent text escapes close (byteCount pre) owned) (pre ++ done) cs
      (outcome (owned.getD done) (ds.length + 2) (o.map fun (s, m) => (x :: s, m + 2))) := by
  rw [List.append_assoc done, ← List.append_assoc pre] at hmore
  rw [outcome_map]
  refine .again (reads_readWithin h hcs hpast) ?_
  rw [hcs]
  exact hmore

end Quotes

/-- The content of quotes is read on, where `done` is the text of it so far. -/
theorem reads_readContent (escapes : Bool) (close : Char) {pre done : List Char}
    {owned : Option (List Char)} (h : text = pre ++ done ++ cs) :
    Reads (readContent text escapes close (byteCount pre) owned) (pre ++ done) cs
      (outcome (owned.getD done) cs.length (Token.content escapes close cs)) := by
  fun_induction Token.content escapes close cs generalizing done owned with
  | case1 => exact reads_readContent_nil h escapes close rfl
  | case2 c hc =>
    have hend := split_next h rfl
    by_cases he : (escapes && c == '\\') = true
    · show Reads _ _ [c] (none, 0 + 1)
      refine .stop (reads_readWithin h rfl ?_)
      rw [readPast, if_pos he]
      exact (reads_bump_nil hend rfl).done rfl
    · have hmore := @reads_readContent_nil text [] pre (done ++ [c]) (owned.map (· ++ [c])) hend
        escapes close rfl
      rw [Bool.eq_false_of_not_eq_true he, Bool.false_or, bne, Bool.not_eq_true'] at hc
      rw [← List.append_assoc] at hmore
      show Reads _ _ [c] (none, 1 + 0)
      refine .again (reads_readWithin h rfl ?_) hmore
      rw [readPast, if_neg he, hc, if_neg Bool.false_ne_true]
      exact .pure _
  | case3 c hc =>
    rw [Bool.or_eq_true, not_or, bne, Bool.not_eq_true', Bool.not_eq_false] at hc
    exact reads_readContent_end h rfl hc.1 hc.2 (by rintro ⟨⟩)
  | case4 c d cs he ih =>
    have hnext := split_next h rfl
    refine reads_readContent_pair h rfl ?_ (ih (split_next hnext rfl))
    rw [readPast, if_pos he]
    show Reads _ _ _ (_, 1 + 0)
    exact (reads_bump hnext).bind ((reads_collected h _ _).done rfl)
  | case5 c d cs he hc hd ih =>
    have hnext := split_next h rfl
    refine reads_readContent_pair h rfl ?_ (ih (split_next hnext rfl))
    rw [readPast, if_neg he, if_pos hc]
    refine (reads_peek hnext).look ?_
    rw [List.head?_cons, if_pos (congrArg some (beq_iff_eq.1 hd))]
    show Reads _ _ _ (_, 1 + 0)
    exact (reads_bump hnext).bind ((reads_collected h _ _).done rfl)
  | case6 c d cs he hc hd =>
    exact reads_readContent_end h rfl he hc fun hdc => hd (beq_iff_eq.2 (Option.some.inj hdc))
  | case7 c d cs he hc ih =>
    have hmore := @ih (done ++ [c]) (owned.map (· ++ [c])) (split_next h rfl)
    have howned : (owned.map (· ++ [c])).getD (done ++ [c]) = owned.getD done ++ [c] := by
      cases owned <;> rfl
    rw [howned, ← List.append_assoc] at hmore
    show Reads _ _ _ (outcome _ ((d :: cs).length + 1) _)
    rw [outcome_map]
    refine .again (reads_readWithin h rfl ?_) hmore
    rw [readPast, if_neg he, if_neg hc]
    exact .pure _

theorem reads_readQuoted (token : String → Token) (escapes : Bool) (close : Char)
    {before : List Char} (h : text = before ++ cs) :
    Reads (readQuoted text token escapes close) before cs
      (Token.scanQuoted token escapes close cs) := by
  have hstart : text = before ++ [] ++ cs := by rw [h, List.append_nil]
  have hcontent := @reads_readContent text cs escapes close before [] none hstart
  rw [List.append_nil] at hcontent
  refine Reads.get.look ?_
  rw [Token.scanQuoted]
  cases hc : Token.content escapes close cs with
  | none =>
    rw [hc] at hcontent
    exact hcontent.done rfl
  | some r =>
    rw [hc] at hcontent
    exact hcontent.done rfl

/-! ### Tokens with their places -/

section Tokens

variable {pre : List Char} {c : Char} (h : text = pre ++ c :: cs)

include h

/-- A token is read as it is scanned. -/
theorem reads_readToken (escapes : Bool) :
    Reads (readToken text escapes (byteCount pre) c) (pre ++ [c]) cs
      (Token.scan escapes c cs) := by
  have hfirst := split_cons h
  unfold readToken Token.scan
  refine .ite (fun _ => .pure _) fun _ => ?_
  refine .ite (fun _ => .pure _) fun _ => ?_
  refine .ite (fun _ => .pure _) fun _ => ?_
  refine .ite (fun _ => .pure _) fun _ => ?_
  refine .ite (fun _ => .pure _) fun _ => ?_
  refine .ite (fun _ => (reads_peek hfirst).look (.ite (fun _ => ?_) fun _ => .pure _)) fun _ => ?_
  · exact (reads_skipWhile hfirst _).done rfl
  refine .ite (fun _ => (reads_peek hfirst).look (.ite (fun hc => ?_) fun _ => .pure _)) fun _ => ?_
  · obtain ⟨ds, rfl⟩ := List.head?_eq_some_iff.1 hc
    exact (reads_bump hfirst).bind ((reads_skipComment (split_cons hfirst)).done rfl)
  refine .ite (fun _ => (reads_peek hfirst).look (.ite (fun _ => ?_) fun _ => ?_)) fun _ => ?_
  · exact (reads_bump hfirst).done rfl
  · exact reads_readPair hfirst _ _ _
  refine .ite (fun _ => reads_readPair hfirst _ _ _) fun _ => ?_
  refine .ite (fun _ => reads_readPair hfirst _ _ _) fun _ => ?_
  refine .ite (fun _ => reads_readQuoted _ _ _ hfirst) fun _ => ?_
  refine .ite (fun _ => reads_readQuoted _ _ _ hfirst) fun _ => ?_
  refine .ite (fun _ => reads_readQuoted _ _ _ hfirst) fun _ => ?_
  refine .ite (fun _ => reads_readQuoted _ _ _ hfirst) fun _ => ?_
  refine .ite (fun _ => reads_readNumber h) fun _ => ?_
  exact .ite (fun _ => reads_readName h) fun _ => .pure _

/-- A character that is not blank starts the next token. -/
theorem reads_next {escapes : Bool} {t : Token} {n : Nat} (hc : isBlank c = false)
    (hs : Token.scan escapes c cs = (t, n)) :
    Reads (next text escapes) pre (c :: cs)
      (some ⟨t, byteCount pre, byteCount (pre ++ c :: cs.take n)⟩, n + 1) := by
  have hskip := reads_skipWhile h isBlank
  rw [List.takeWhile_cons_of_neg (by rw [hc]; exact Bool.false_ne_true)] at hskip
  have htoken := reads_readToken h escapes
  rw [hs] at htoken
  have hplace : pre ++ c :: cs.take n = pre ++ [c] ++ cs.take n := by
    rw [List.append_assoc]
    rfl
  rw [hplace, Nat.add_comm]
  show Reads _ _ _ (_, 1 + (n + 0))
  exact hskip.look (Reads.get.look ((reads_bump h).bind (htoken.bind (Reads.get.done rfl))))

end Tokens

/-- Blanks make no difference to the next token. -/
theorem run_next_append {blanks : List Char} (hb : ∀ c ∈ blanks, isBlank c = true)
    (h : text = before ++ blanks ++ cs) (escapes : Bool) :
    (next text escapes).run (byteCount before) =
      (next text escapes).run (byteCount (before ++ blanks)) := by
  have hall := reads_skipWhile (h.trans (List.append_assoc _ _ _)) isBlank
  have hlast := reads_skipWhile h isBlank
  rw [List.takeWhile_append_of_pos hb, List.length_append] at hall
  rw [next, run_bind_of_eq hall, run_bind_of_eq hlast]
  dsimp only
  rw [List.take_length_add_append, List.append_assoc]

/-- The tokens of a text are collected with their places. -/
theorem reads_collect (escapes : Bool) (text cs : List Char) : ∀ before ls, text = before ++ cs →
    Reads (collect text escapes ls) before cs
      (ls ++ Piece.locate (byteCount before) (Piece.ofText escapes cs), cs.length) := by
  fun_induction Piece.ofText escapes cs with
  | case1 =>
    intro before ls h
    have hskip := reads_skipWhile h isBlank
    have hnext : Reads (next text escapes) before [] (none, 0) :=
      hskip.look (Reads.get.look ((reads_bump_nil h rfl).done rfl))
    rw [collect, Piece.locate, List.append_nil]
    exact .stop (hnext.done rfl)
  | case2 c cs hb n ih =>
    intro before ls h
    have hblank : ∀ d ∈ c :: cs.take n, isBlank d = true :=
      List.forall_mem_cons.2 ⟨hb, fun d hd => Piece.isBlank_of_mem_take hd⟩
    have hbehind : text = before ++ (c :: cs.take n) ++ cs.drop n := by
      rw [h, List.append_assoc, List.cons_append, List.take_append_drop]
    -- blanks are no turn of the loop: the next token is read from behind them as well
    have hsame : (collect text escapes ls).run (byteCount before) =
        (collect text escapes ls).run (byteCount (before ++ (c :: cs.take n))) := by
      refine run_loop_congr ?_
      rw [StateT.run_bind, StateT.run_bind, run_next_append hblank hbehind]
    have hread := ih _ ls hbehind
    rw [Reads, List.take_length] at hread ⊢
    rw [hsame, hread, ← hbehind, ← h, byteCount_append]
    rfl
  | case3 c cs hb t n hs ih =>
    intro before ls h
    have hbehind : text = before ++ (c :: cs.take n) ++ cs.drop n := by
      rw [h, List.append_assoc, List.cons_append, List.take_append_drop]
    have hnext := reads_next h ((Bool.not_eq_true _).mp hb) hs
    have hmore := ih _ (ls ++ [⟨t, byteCount before, byteCount (before ++ c :: cs.take n)⟩]) hbehind
    have hsize : (c :: cs).length = n + 1 + (cs.drop n).length := by
      have hle := Token.scan_le hs
      rw [List.length_cons, List.length_drop]
      omega
    rw [List.append_assoc, byteCount_append] at hmore
    rw [hsize]
    refine .again ?_ hmore
    rw [← byteCount_append]
    exact hnext.done rfl

end Readers

/-- **Lexing by an offset** comes to an end, never looks at the text from an offset that is inside a
character or behind the end, and gives the tokens of the text in their places. -/
theorem ofText_eq (escapes : Bool) (text : String) :
    ofText escapes text = .some (lex escapes text) := by
  have h := reads_collect escapes text.toList text.toList [] [] rfl
  show ((collect text.toList escapes []).run (byteCount [])).map Prod.fst = _
  rw [h, Part.map_some]
  rfl

end Lexing

end SqlFilter
