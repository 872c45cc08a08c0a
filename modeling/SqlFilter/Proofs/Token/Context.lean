import Mathlib
import SqlFilter.Token.Scan

/-!
# Tokens and the text behind them

What a token is depends on the text behind it only as far as that text could go on with it. So the
text behind a token may be exchanged for one that is cut off somewhere by a delimiter
(`scan_of_curtailed`): blanks, a closing parenthesis and a comma go on with no token.

Comments and tokens in quotes that are never closed reach as far as the text does; they are left out
here.
-/

namespace SqlFilter

namespace Text

/-! ## Delimiters -/

/-- A character that goes on with no token. -/
def isDelimiter (c : Char) : Bool := isBlank c || c == ')' || c == ','

/-- The text is empty or starts with a delimiter. -/
def Delimited (cs : List Char) : Prop := ∀ c, cs.head? = some c → isDelimiter c = true

/-- The second text is the first one up to some point, where it ends or goes on with a delimiter. -/
inductive Curtailed : List Char → List Char → Prop where
  | stop {old new : List Char} (h : Delimited new) : Curtailed old new
  | step {old new : List Char} (c : Char) (h : Curtailed old new) : Curtailed (c :: old) (c :: new)

@[simp] theorem delimited_nil : Delimited [] := fun _ h => nomatch h

@[simp] theorem delimited_cons {c : Char} {cs : List Char} :
    Delimited (c :: cs) ↔ isDelimiter c = true := by
  simp [Delimited]

theorem Curtailed.append {old new : List Char} (cs : List Char) (h : Curtailed old new) :
    Curtailed (cs ++ old) (cs ++ new) := by
  induction cs with
  | nil => exact h
  | cons c cs ih => exact .step c ih

/-- The code points of the blanks. -/
def blankCodes : List Nat :=
  [9, 10, 11, 12, 13, 0x20, 0x85, 0xA0, 0x1680, 0x2000, 0x2001, 0x2002, 0x2003, 0x2004, 0x2005,
    0x2006, 0x2007, 0x2008, 0x2009, 0x200A, 0x2028, 0x2029, 0x202F, 0x205F, 0x3000]

theorem toNat_mem_blankCodes {c : Char} (h : isBlank c = true) : c.toNat ∈ blankCodes := by
  simp only [isBlank, Bool.or_eq_true, Bool.and_eq_true, decide_eq_true_eq, beq_iff_eq] at h
  simp only [blankCodes, List.mem_cons, List.not_mem_nil, or_false]
  omega

end Text

namespace Token

open Text

theorem isNamePart_ofNat_blank : ∀ n ∈ blankCodes, isNamePart (Char.ofNat n) = false := by
  decide +kernel

theorem isNamePart_of_isBlank {c : Char} (h : isBlank c = true) : isNamePart c = false := by
  have hn := isNamePart_ofNat_blank _ (toNat_mem_blankCodes h)
  rwa [Char.ofNat_toNat] at hn

theorem isNamePart_of_isDelimiter {c : Char} (h : isDelimiter c = true) : isNamePart c = false := by
  simp only [isDelimiter, Bool.or_eq_true, beq_iff_eq] at h
  obtain (h | rfl) | rfl := h
  · exact isNamePart_of_isBlank h
  · decide
  · decide

theorem isNamePart_of_isDigit {c : Char} (h : c.isDigit = true) : isNamePart c = true := by
  simp [isNamePart, Text.isNumeral_of_isDigit h]

theorem isDigit_of_isDelimiter {c : Char} (h : isDelimiter c = true) : c.isDigit = false := by
  by_contra hd
  have hp := isNamePart_of_isDigit ((Bool.not_eq_false _).mp hd)
  rw [isNamePart_of_isDelimiter h] at hp
  exact absurd hp Bool.false_ne_true

/-! ## Runs of characters -/

section Curtailed

variable {old new : List Char} (h : Curtailed old new)

include h in
/-- A run of characters that ends within `cs` does not depend on the text behind `cs`. -/
theorem takeWhile_of_curtailed {p : Char → Bool} (hp : ∀ c, isDelimiter c = true → p c = false)
    (cs : List Char) (hn : ((cs ++ old).takeWhile p).length ≤ cs.length) :
    (cs ++ new).takeWhile p = (cs ++ old).takeWhile p := by
  induction cs with
  | nil =>
    have ho : old.takeWhile p = [] := List.length_eq_zero_iff.1 (Nat.le_zero.1 hn)
    rw [List.nil_append, List.nil_append, ho]
    cases h with
    | stop hd =>
      cases new with
      | nil => rfl
      | cons c new => simp [hp c (delimited_cons.1 hd)]
    | step c h =>
      by_cases hc : p c = true
      · simp [hc] at ho
      · simp [hc]
  | cons c cs ih =>
    by_cases hc : p c = true
    · simp only [List.cons_append, List.takeWhile_cons_of_pos hc, List.length_cons,
        Nat.add_le_add_iff_right] at hn ⊢
      rw [ih hn]
    · simp [hc]

theorem ne_of_isDelimiter {c d : Char} (hc : isDelimiter c = true) (hd : isDelimiter d = false) :
    c ≠ d := by
  rintro rfl
  rw [hc] at hd
  exact absurd hd.symm Bool.false_ne_true

include h in
/-- The character behind a token stays the same or gives way to a delimiter. -/
theorem head?_of_curtailed {d : Char} (hd : isDelimiter d = false) (cs : List Char)
    (hn : (cs ++ old).head? ≠ some d) : (cs ++ new).head? ≠ some d := by
  cases cs with
  | cons c cs => exact hn
  | nil =>
    cases h with
    | stop hs => exact fun hc => ne_of_isDelimiter (hs d hc) hd rfl
    | step c h => exact hn

/-! ## Numerals -/

include h in
theorem fractionSize_point_of_curtailed (cs : List Char)
    (hn : fractionSize ('.' :: (cs ++ old)) ≤ cs.length + 1) :
    fractionSize ('.' :: (cs ++ new)) = fractionSize ('.' :: (cs ++ old)) := by
  have hw : ((cs ++ old).takeWhile Char.isDigit).length ≤ cs.length := by
    simp only [fractionSize] at hn
    split at hn <;> omega
  simp only [fractionSize, takeWhile_of_curtailed h (fun _ => isDigit_of_isDelimiter) cs hw]

theorem fractionSize_of_ne {c : Char} (hc : c ≠ '.') (cs : List Char) :
    fractionSize (c :: cs) = 0 := by
  unfold fractionSize
  split
  · next heq => exact absurd (List.cons.inj heq).1 hc
  · rfl

include h in
theorem fractionSize_of_curtailed (cs : List Char) (hn : fractionSize (cs ++ old) ≤ cs.length) :
    fractionSize (cs ++ new) = fractionSize (cs ++ old) := by
  cases cs with
  | cons c cs =>
    by_cases hc : c = '.'
    · subst hc
      exact fractionSize_point_of_curtailed h cs hn
    · rw [List.cons_append, List.cons_append, fractionSize_of_ne hc, fractionSize_of_ne hc]
  | nil =>
    have ho : fractionSize old = 0 := Nat.le_zero.1 hn
    rw [List.nil_append, List.nil_append, ho]
    cases h with
    | stop hs =>
      cases new with
      | nil => rfl
      | cons c new => exact fractionSize_of_ne (ne_of_isDelimiter (hs c rfl) (by decide)) new
    | @step old new c h =>
      by_cases hc : c = '.'
      · subst hc
        rw [← ho]
        exact fractionSize_point_of_curtailed h []
          (by rw [List.nil_append, ho]; exact Nat.zero_le _)
      · exact fractionSize_of_ne hc new

/-- The number of characters of a sign at the head of the text. -/
def signSize : List Char → Nat
  | c :: _ => if c == '+' || c == '-' then 1 else 0
  | [] => 0

/-- The digits at the head of the text, behind a sign if there is one. -/
def signedDigits (cs : List Char) : List Char := (cs.drop (signSize cs)).takeWhile Char.isDigit

theorem exponentSize_cons (c : Char) (cs : List Char) :
    exponentSize (c :: cs) =
      if c == 'e' || c == 'E' then
        match (signedDigits cs).length with
        | 0 => 0
        | n => n + signSize cs + 1
      else 0 := by
  cases cs <;> rfl

theorem exponentSize_of_ne {c : Char} (h₁ : c ≠ 'e') (h₂ : c ≠ 'E') (cs : List Char) :
    exponentSize (c :: cs) = 0 := by
  simp [exponentSize_cons, h₁, h₂]

theorem signSize_of_isDelimiter {c : Char} (hc : isDelimiter c = true) (cs : List Char) :
    signSize (c :: cs) = 0 := by
  have h₁ : c ≠ '+' := ne_of_isDelimiter hc (by decide)
  have h₂ : c ≠ '-' := ne_of_isDelimiter hc (by decide)
  simp [signSize, h₁, h₂]

theorem signedDigits_of_delimited {cs : List Char} (h : Delimited cs) : signedDigits cs = [] := by
  cases cs with
  | nil => rfl
  | cons c cs =>
    have hc := delimited_cons.1 h
    simp [signedDigits, signSize_of_isDelimiter hc, isDigit_of_isDelimiter hc]

include h in
/-- Where the texts have a character in common, it decides on the sign. -/
theorem signedDigits_cons_of_curtailed (c : Char) (cs : List Char)
    (hn : signedDigits (c :: (cs ++ old)) = [] ∨
      (signedDigits (c :: (cs ++ old))).length + signSize (c :: (cs ++ old)) ≤ cs.length + 1) :
    signedDigits (c :: (cs ++ new)) = signedDigits (c :: (cs ++ old)) := by
  have hp : ∀ c, isDelimiter c = true → c.isDigit = false := fun _ => isDigit_of_isDelimiter
  have hs : ∀ xs : List Char, signSize (c :: xs) = signSize [c] := fun _ => rfl
  have hle : signSize [c] = 0 ∨ signSize [c] = 1 := by
    by_cases hc : (c == '+' || c == '-') = true <;> simp [signSize, hc]
  simp only [signedDigits, hs] at hn ⊢
  obtain h0 | h1 := hle
  · rw [h0] at hn ⊢
    refine takeWhile_of_curtailed h hp (c :: cs) ?_
    obtain hn | hn := hn
    · rw [List.drop_zero] at hn
      rw [List.cons_append, hn]
      exact Nat.zero_le _
    · exact hn
  · rw [h1] at hn ⊢
    refine takeWhile_of_curtailed h hp cs ?_
    obtain hn | hn := hn
    · rw [List.drop_one, List.tail_cons] at hn
      rw [hn]
      exact Nat.zero_le _
    · exact Nat.le_of_succ_le_succ hn

include h in
/-- Signed digits that end within `cs`, or that there are none of, do not depend on the text behind
`cs`. -/
theorem signedDigits_of_curtailed (cs : List Char)
    (hn : signedDigits (cs ++ old) = [] ∨
      (signedDigits (cs ++ old)).length + signSize (cs ++ old) ≤ cs.length) :
    signedDigits (cs ++ new) = signedDigits (cs ++ old) := by
  cases cs with
  | cons c cs => exact signedDigits_cons_of_curtailed h c cs hn
  | nil =>
    have ho : signedDigits old = [] := by
      obtain hn | hn := hn
      · exact hn
      · exact List.length_eq_zero_iff.1 (Nat.eq_zero_of_add_eq_zero_right (Nat.le_zero.1 hn))
    rw [List.nil_append, List.nil_append]
    cases h with
    | stop hs => rw [signedDigits_of_delimited hs, ho]
    | step c h => exact signedDigits_cons_of_curtailed h c [] (.inl ho)

include h in
/-- An exponent that ends within `cs` does not depend on the text behind `cs`, where no exponent
starts. -/
theorem exponentSize_of_curtailed (cs : List Char) (hn : exponentSize (cs ++ old) ≤ cs.length)
    (hmark : cs = [] → ∀ c, old.head? = some c → c ≠ 'e' ∧ c ≠ 'E') :
    exponentSize (cs ++ new) = exponentSize (cs ++ old) := by
  cases cs with
  | nil =>
    have ho : exponentSize old = 0 := Nat.le_zero.1 hn
    rw [List.nil_append, List.nil_append, ho]
    cases h with
    | stop hs =>
      cases new with
      | nil => rfl
      | cons c new =>
        exact exponentSize_of_ne (ne_of_isDelimiter (hs c rfl) (by decide))
          (ne_of_isDelimiter (hs c rfl) (by decide)) new
    | @step old new c h =>
      obtain ⟨h₁, h₂⟩ := hmark rfl c rfl
      exact exponentSize_of_ne h₁ h₂ new
  | cons c cs =>
    rw [List.cons_append, exponentSize_cons] at hn
    rw [List.cons_append, List.cons_append, exponentSize_cons, exponentSize_cons]
    split_ifs with hc
    · rw [if_pos hc] at hn
      have hd : signedDigits (cs ++ old) = [] ∨
          (signedDigits (cs ++ old)).length + signSize (cs ++ old) ≤ cs.length := by
        split at hn
        · next h0 => exact .inl (List.length_eq_zero_iff.1 h0)
        · exact .inr (Nat.le_of_succ_le_succ hn)
      rw [signedDigits_of_curtailed h cs hd]
      split
      · rfl
      · next n hn0 =>
        -- the digits of the exponent are in `cs`, so `cs` goes on behind the mark
        cases cs with
        | cons d cs => rfl
        | nil =>
          obtain hd | hd := hd
          · rw [hd] at hn0
            exact absurd rfl hn0
          · exact absurd (Nat.eq_zero_of_add_eq_zero_right (Nat.le_zero.1 hd)) hn0
    · rfl

include h in
theorem numeralSize_of_curtailed (cs : List Char) (hn : numeralSize (cs ++ old) ≤ cs.length)
    (hmark : numeralSize (cs ++ old) = cs.length → ∀ c, old.head? = some c → c ≠ 'e' ∧ c ≠ 'E') :
    numeralSize (cs ++ new) = numeralSize (cs ++ old) := by
  simp only [numeralSize] at hn hmark ⊢
  generalize hw : ((cs ++ old).takeWhile Char.isDigit).length = w at hn hmark ⊢
  have hwle : w ≤ cs.length := by omega
  rw [takeWhile_of_curtailed h (fun _ => isDigit_of_isDelimiter) cs (hw ▸ hwle), hw]
  rw [List.drop_append_of_le_length hwle] at hn hmark ⊢
  rw [List.drop_append_of_le_length hwle]
  generalize hf : fractionSize (cs.drop w ++ old) = f at hn hmark ⊢
  have hfle : f ≤ (cs.drop w).length := by
    rw [List.length_drop]
    omega
  rw [fractionSize_of_curtailed h (cs.drop w) (hf ▸ hfle), hf]
  have hle : w + f ≤ cs.length := by
    rw [List.length_drop] at hfle
    omega
  rw [List.drop_append_of_le_length hle] at hn hmark ⊢
  rw [List.drop_append_of_le_length hle]
  rw [exponentSize_of_curtailed h]
  · rw [List.length_drop]
    omega
  · intro hnil
    rw [List.drop_eq_nil_iff] at hnil
    exact hmark (by omega)

include h in
theorem scanNumber_of_curtailed {c : Char} {t : Token} (cs : List Char)
    (hs : scanNumber c (cs ++ old) = (t, cs.length)) :
    scanNumber c (cs ++ new) = (t, cs.length) := by
  simp only [scanNumber] at hs ⊢
  generalize hn : numeralSize (cs ++ old) = n at hs
  generalize hm : (((cs ++ old).drop n).takeWhile isNamePart).length = m at hs
  have hsum : n + m = cs.length := by
    split at hs <;> simp_all
  have hle : n ≤ cs.length := by omega
  rw [List.drop_append_of_le_length hle] at hm
  have hmark : n = cs.length → ∀ d, old.head? = some d → d ≠ 'e' ∧ d ≠ 'E' := by
    intro hcs d hd
    have hnil : old.takeWhile isNamePart = [] := by
      rw [hcs, List.drop_length, List.nil_append] at hm
      exact List.length_eq_zero_iff.1 (by omega)
    have hp : isNamePart d = false := by
      cases old with
      | nil => cases hd
      | cons c old =>
        obtain rfl := Option.some.inj hd
        by_contra hp
        rw [List.takeWhile_cons_of_pos ((Bool.not_eq_false _).mp hp)] at hnil
        exact List.cons_ne_nil _ _ hnil
    constructor <;> rintro rfl <;> exact absurd hp (by decide)
  rw [numeralSize_of_curtailed h cs (hn ▸ hle) (hn ▸ hmark), hn, List.drop_append_of_le_length hle,
    takeWhile_of_curtailed h (fun _ => isNamePart_of_isDelimiter) (cs.drop n), hm,
    List.take_append_of_le_length hle]
  · rw [List.take_append_of_le_length hle] at hs
    exact hs
  · rw [hm, List.length_drop]
    omega

include h in
theorem scanName_of_curtailed {c : Char} {t : Token} (cs : List Char)
    (hs : scanName c (cs ++ old) = (t, cs.length)) : scanName c (cs ++ new) = (t, cs.length) := by
  unfold scanName at hs ⊢
  rw [takeWhile_of_curtailed h (fun _ => isNamePart_of_isDelimiter) cs]
  · exact hs
  · exact Nat.le_of_eq (congrArg Prod.snd hs)

/-! ## Quoted text -/

theorem eq_some_of_map_eq_some {o : Option (List Char × Nat)} {f : List Char → List Char}
    {k m : Nat} {s : List Char} (ho : (o.map fun (u, n) => (f u, n + k)) = some (s, m)) :
    ∃ u n, o = some (u, n) ∧ f u = s ∧ n + k = m := by
  obtain ⟨⟨u, n⟩, hu, he⟩ := Option.map_eq_some_iff.1 ho
  exact ⟨u, n, hu, congrArg Prod.fst he, congrArg Prod.snd he⟩

/-- The closing mark is part of what is read. -/
theorem content_pos {escapes : Bool} {close : Char} {cs s : List Char} {n : Nat}
    (hs : content escapes close cs = some (s, n)) : 0 < n := by
  have one : ∀ {u : List Char}, some (u, 1) = some (s, n) → 0 < n := by
    intro u hu
    have : 1 = n := congrArg Prod.snd (Option.some.inj hu)
    omega
  have more : ∀ {o : Option (List Char × Nat)} {f : List Char → List Char} {k : Nat}, 0 < k →
      (o.map fun (u, n) => (f u, n + k)) = some (s, n) → 0 < n := by
    intro o f k hk ho
    obtain ⟨_, _, _, _, hm⟩ := eq_some_of_map_eq_some ho
    omega
  unfold content at hs
  split at hs
  · cases hs
  · split at hs
    · cases hs
    · exact one hs
  · split_ifs at hs
    · exact more Nat.two_pos hs
    · exact more Nat.two_pos hs
    · exact one hs
    · exact more Nat.one_pos hs

/-- Content ends at once exactly at a closing mark that no other one follows. -/
theorem content_eq_one_iff {escapes : Bool} {close c : Char} {cs s : List Char} :
    content escapes close (c :: cs) = some (s, 1) ↔
      ¬(escapes && c == '\\') = true ∧ (c == close) = true ∧ cs.head? ≠ some close ∧ s = [] := by
  -- content that is read on takes more than one character
  have more : ∀ {o : Option (List Char × Nat)} {f : List Char → List Char} {k : Nat},
      (∀ u n, o = some (u, n) → n + k ≠ 1) → ¬(o.map fun (u, n) => (f u, n + k)) = some (s, 1) := by
    intro o f k hk ho
    obtain ⟨u, n, hu, _, hm⟩ := eq_some_of_map_eq_some ho
    exact hk u n hu hm
  have now : some (([] : List Char), 1) = some (s, 1) ↔ s = [] :=
    ⟨fun hs => (congrArg Prod.fst (Option.some.inj hs)).symm, fun hs => by rw [hs]⟩
  cases cs with
  | nil =>
    rw [content]
    by_cases he : (escapes && c == '\\') = true
    · rw [if_pos (by rw [he, Bool.true_or])]
      exact iff_of_false (fun hn => nomatch hn) fun hr => hr.1 he
    · by_cases hc : (c == close) = true
      · rw [if_neg (by simpa [bne, hc] using he), now]
        exact ⟨fun hs => ⟨he, hc, (nomatch ·), hs⟩, fun hr => hr.2.2.2⟩
      · rw [if_pos (by simp [bne, hc])]
        exact iff_of_false (fun hn => nomatch hn) fun hr => hc hr.2.1
  | cons d cs =>
    rw [content]
    by_cases he : (escapes && c == '\\') = true
    · rw [if_pos he]
      exact iff_of_false (more fun u n _ => by omega) fun hr => hr.1 he
    · rw [if_neg he]
      by_cases hc : (c == close) = true
      · rw [if_pos hc]
        by_cases hd : (d == close) = true
        · rw [if_pos hd]
          refine iff_of_false (more fun u n _ => by omega) fun hr => hr.2.2.1 ?_
          rw [beq_iff_eq.1 hd, List.head?_cons]
        · rw [if_neg hd, now]
          refine ⟨fun hs => ⟨he, hc, fun hn => hd ?_, hs⟩, fun hr => hr.2.2.2⟩
          exact beq_iff_eq.2 (Option.some.inj hn)
      · rw [if_neg hc]
        refine iff_of_false (more fun u n hu => ?_) fun hr => hc hr.2.1
        have := content_pos hu
        omega

include h in
/-- Content that is closed at the end of `cs` does not depend on the text behind `cs`. -/
theorem content_of_curtailed {escapes : Bool} {close : Char} (hclose : isDelimiter close = false)
    {cs s : List Char} (hs : content escapes close (cs ++ old) = some (s, cs.length)) :
    content escapes close (cs ++ new) = some (s, cs.length) := by
  have single : ∀ {c : Char} {s : List Char}, content escapes close (c :: old) = some (s, 1) →
      content escapes close (c :: new) = some (s, 1) := by
    intro c s hc
    rw [content_eq_one_iff] at hc ⊢
    exact ⟨hc.1, hc.2.1, head?_of_curtailed h hclose [] hc.2.2.1, hc.2.2.2⟩
  fun_induction content escapes close cs generalizing s with
  | case1 => exact absurd (content_pos hs) (Nat.lt_irrefl 0)
  | case2 c hc => exact single hs
  | case3 c hc => exact single hs
  | case4 c d cs he ih =>
    rw [List.cons_append, List.cons_append, content, if_pos he] at hs ⊢
    obtain ⟨u, n, hu, rfl, hn⟩ := eq_some_of_map_eq_some hs
    obtain rfl : n = cs.length := Nat.add_right_cancel hn
    rw [ih hu]
    rfl
  | case5 c d cs he hc hd ih =>
    rw [List.cons_append, List.cons_append, content, if_neg he, if_pos hc, if_pos hd] at hs ⊢
    obtain ⟨u, n, hu, rfl, hn⟩ := eq_some_of_map_eq_some hs
    obtain rfl : n = cs.length := Nat.add_right_cancel hn
    rw [ih hu]
    rfl
  | case6 c d cs he hc hd =>
    rw [List.cons_append, List.cons_append, content, if_neg he, if_pos hc, if_neg hd] at hs
    have : 1 = cs.length + 1 + 1 := congrArg Prod.snd (Option.some.inj hs)
    omega
  | case7 c d cs he hc ih =>
    rw [List.cons_append, List.cons_append, content, if_neg he, if_neg hc] at hs ⊢
    obtain ⟨u, n, hu, rfl, hn⟩ := eq_some_of_map_eq_some hs
    obtain rfl : n = (d :: cs).length := Nat.add_right_cancel hn
    rw [← List.cons_append, ih hu]
    rfl

/-! ## Tokens -/

/-- Whether the token that starts with `c` is in quotes that are never closed. -/
def isOpen (t : Token) (c : Char) : Bool :=
  t == illegal && (c == '\'' || c == '"' || c == Dialect.backtick || c == '[')

theorem ite_imp_ite {α : Type} {p : Prop} [Decidable p] {a a' b b' r : α} (ha : p → a = r → a' = r)
    (hb : ¬p → b = r → b' = r) : (if p then a else b) = r → (if p then a' else b') = r := by
  split_ifs with hp
  · exact ha hp
  · exact hb hp

include h in
/-- A test for a second character of the token, or for one that is not there. -/
theorem ite_head?_of_curtailed {d : Char} {long : Token} {r r' : Token × Nat} {t : Token}
    (hd : isDelimiter d = false) {cs : List Char} (hr : r = (t, cs.length) → r' = (t, cs.length)) :
    (if (cs ++ old).head? = some d then (long, 1) else r) = (t, cs.length) →
      (if (cs ++ new).head? = some d then (long, 1) else r') = (t, cs.length) := by
  cases cs with
  | cons c cs => exact ite_imp_ite (fun _ => id) fun _ => hr
  | nil =>
    intro hs
    by_cases hc : ([] ++ old).head? = some d
    · rw [if_pos hc] at hs
      exact absurd (congrArg Prod.snd hs) Nat.one_ne_zero
    · rw [if_neg hc] at hs
      rw [if_neg (head?_of_curtailed h hd [] hc)]
      exact hr hs

include h in
theorem scanQuoted_of_curtailed {token : String → Token} {escapes : Bool} {close : Char}
    {t : Token} (hclose : isDelimiter close = false) (ht : t ≠ illegal) {cs : List Char}
    (hs : scanQuoted token escapes close (cs ++ old) = (t, cs.length)) :
    scanQuoted token escapes close (cs ++ new) = (t, cs.length) := by
  unfold scanQuoted at hs ⊢
  split at hs
  · next s n hc =>
    obtain rfl : n = cs.length := congrArg Prod.snd hs
    rw [content_of_curtailed h hclose hc]
    exact hs
  · exact absurd (congrArg Prod.fst hs).symm ht

include h in
/-- **Tokens in context.** A token other than a comment or an open quote stays what it is when the
text behind it is cut off by a delimiter. -/
theorem scan_of_curtailed {escapes : Bool} {c : Char} {t : Token} {cs : List Char}
    (ht : t ≠ comment) (ho : isOpen t c = false)
    (hs : scan escapes c (cs ++ old) = (t, cs.length)) :
    scan escapes c (cs ++ new) = (t, cs.length) := by
  -- quotes without an end would be open
  have quoted : ∀ {token : String → Token} {escapes : Bool} {mark close : Char}, c = mark →
      (mark == '\'' || mark == '"' || mark == Dialect.backtick || mark == '[') = true →
      isDelimiter close = false → scanQuoted token escapes close (cs ++ old) = (t, cs.length) →
      scanQuoted token escapes close (cs ++ new) = (t, cs.length) := by
    rintro token escapes mark close rfl hm hclose
    refine scanQuoted_of_curtailed h hclose ?_
    rintro rfl
    rw [isOpen, hm] at ho
    exact absurd ho (by decide)
  -- a second mark makes a comment, in both texts or in neither
  have noComment : ∀ {d : Char} {u : Token} {n n' : Nat}, isDelimiter d = false →
      (if (cs ++ old).head? = some d then (comment, n) else (u, 0)) = (t, cs.length) →
      (if (cs ++ new).head? = some d then (comment, n') else (u, 0)) = (t, cs.length) := by
    intro d u n n' hd hs
    by_cases hc : (cs ++ old).head? = some d
    · rw [if_pos hc] at hs
      exact absurd (congrArg Prod.fst hs).symm ht
    · rw [if_neg hc] at hs
      rw [if_neg (head?_of_curtailed h hd cs hc), hs]
  revert hs
  unfold scan
  refine ite_imp_ite (fun _ => id) fun _ => ?_
  refine ite_imp_ite (fun _ => id) fun _ => ?_
  refine ite_imp_ite (fun _ => id) fun _ => ?_
  refine ite_imp_ite (fun _ => id) fun _ => ?_
  refine ite_imp_ite (fun _ => id) fun _ => ?_
  refine ite_imp_ite (fun _ => noComment (by decide)) fun _ => ?_
  refine ite_imp_ite (fun _ => noComment (by decide)) fun _ => ?_
  refine ite_imp_ite (fun _ => ?_) fun _ => ?_
  · exact ite_head?_of_curtailed h (by decide) (ite_head?_of_curtailed h (by decide) id)
  refine ite_imp_ite (fun _ => ite_head?_of_curtailed h (by decide) id) fun _ => ?_
  refine ite_imp_ite (fun _ => ite_head?_of_curtailed h (by decide) id) fun _ => ?_
  refine ite_imp_ite (fun hc => quoted hc (by decide) (by decide)) fun _ => ?_
  refine ite_imp_ite (fun hc => quoted hc (by decide) (by decide)) fun _ => ?_
  refine ite_imp_ite (fun hc => quoted hc (by decide) (by decide)) fun _ => ?_
  refine ite_imp_ite (fun hc => quoted hc (by decide) (by decide)) fun _ => ?_
  refine ite_imp_ite (fun _ => scanNumber_of_curtailed h cs) fun _ => ?_
  exact ite_imp_ite (fun _ => scanName_of_curtailed h cs) fun _ => id

end Curtailed

end Token

end SqlFilter
