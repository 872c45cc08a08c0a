import SqlFilter.Condition.Printer
import SqlFilter.Condition.Reader
import SqlFilter.Proofs.Token.Closed

/-!
# Numerals

A numeral is a run of digits with an optional fraction and an optional exponent. Number tokens are
numerals (`isNumeral_of_scan`), every numeral is a number token (`scan_of_isNumeral`) and denotes a
decimal (`Decimal.Denotes`), and numbers are written as numerals (`isNumeral_text`).
-/

namespace SqlFilter

/-- One digit at least, and digits only. -/
def AllDigits (cs : List Char) : Prop := cs ≠ [] ∧ ∀ c ∈ cs, c.isDigit = true

theorem allDigits_zero : AllDigits ['0'] :=
  ⟨List.cons_ne_nil _ _, List.forall_mem_singleton.2 rfl⟩

/-- A point and digits, or nothing. -/
def IsFraction (cs : List Char) : Prop := cs = [] ∨ ∃ ds, AllDigits ds ∧ cs = '.' :: ds

/-- A sign, or nothing. -/
def IsSign (cs : List Char) : Prop := cs = [] ∨ cs = ['+'] ∨ cs = ['-']

/-- The mark of an exponent, a sign or none, and digits, or nothing. -/
def IsExponent (cs : List Char) : Prop :=
  cs = [] ∨ ∃ e sign ds, (e = 'e' ∨ e = 'E') ∧ IsSign sign ∧ AllDigits ds ∧
    cs = e :: (sign ++ ds)

/-- An unsigned numeral. -/
def IsNumeral (cs : List Char) : Prop :=
  ∃ whole part power, AllDigits whole ∧ IsFraction part ∧ IsExponent power ∧
    cs = whole ++ (part ++ power)

section Heads

variable {cs : List Char}

theorem AllDigits.head (h : AllDigits cs) (rest : List Char) :
    ∃ d ds, cs ++ rest = d :: ds ∧ d.isDigit = true := by
  cases cs with
  | nil => exact absurd rfl h.1
  | cons d ds => exact ⟨d, ds ++ rest, rfl, h.2 d List.mem_cons_self⟩

theorem IsNumeral.head (h : IsNumeral cs) (rest : List Char) :
    ∃ d ds, cs ++ rest = d :: ds ∧ d.isDigit = true := by
  obtain ⟨whole, part, power, hw, -, -, rfl⟩ := h
  rw [List.append_assoc]
  exact hw.head _

/-- What a fraction or an exponent starts with is no digit. -/
theorem IsFraction.head_append {part power : List Char} (hf : IsFraction part)
    (he : IsExponent power) (c : Char) (hc : (part ++ power).head? = some c) :
    c.isDigit = false := by
  obtain rfl | ⟨ds, -, rfl⟩ := hf
  · obtain rfl | ⟨e, sign, ds, h, -, -, rfl⟩ := he
    · cases hc
    · obtain rfl := Option.some.inj hc
      obtain rfl | rfl := h <;> decide
  · obtain rfl := Option.some.inj hc
    decide

end Heads

namespace Token

open Text Piece

/-! ## Numerals are number tokens -/

theorem takeWhile_digits {ds rest : List Char} (hd : ∀ c ∈ ds, c.isDigit = true)
    (hr : ∀ c, rest.head? = some c → c.isDigit = false) :
    (ds ++ rest).takeWhile Char.isDigit = ds :=
  takeWhile_append_of_head hd hr

theorem exponentSize_of_isExponent {power : List Char} (h : IsExponent power) :
    exponentSize power = power.length := by
  obtain rfl | ⟨e, sign, ds, he, hs, hd, rfl⟩ := h
  · rfl
  · have hsign : signSize (sign ++ ds) = sign.length := by
      obtain ⟨d, ds', hds, hdd⟩ := hd.head []
      rw [List.append_nil] at hds
      subst hds
      obtain rfl | rfl | rfl := hs
      · have h₁ : d ≠ '+' := by rintro rfl; exact absurd hdd (by decide)
        have h₂ : d ≠ '-' := by rintro rfl; exact absurd hdd (by decide)
        simp [signSize, h₁, h₂]
      · rfl
      · rfl
    have hdigits : signedDigits (sign ++ ds) = ds := by
      have := @takeWhile_digits ds [] hd.2 (fun _ hc => absurd hc (by simp))
      rw [List.append_nil] at this
      rw [signedDigits, hsign, List.drop_left, this]
    have hpos : 0 < ds.length := List.length_pos_iff.2 hd.1
    rw [exponentSize_cons, if_pos (by obtain rfl | rfl := he <;> decide), hdigits, hsign]
    split
    · next h0 => omega
    · rw [List.length_cons, List.length_append, Nat.add_comm sign.length]

theorem fractionSize_of_isFraction {part power : List Char} (hf : IsFraction part)
    (he : IsExponent power) : fractionSize (part ++ power) = part.length := by
  obtain rfl | ⟨ds, hd, rfl⟩ := hf
  · obtain rfl | ⟨e, sign, ds, h, -, -, rfl⟩ := he
    · rfl
    · exact fractionSize_of_ne (by obtain rfl | rfl := h <;> decide) _
  · have hdigits : (ds ++ power).takeWhile Char.isDigit = ds :=
      takeWhile_digits hd.2 (IsFraction.head_append (.inl rfl) he)
    have hpos : 0 < ds.length := List.length_pos_iff.2 hd.1
    rw [List.cons_append, fractionSize, hdigits]
    split
    · next h0 => omega
    · rfl

theorem numeralSize_of_isNumeral {whole part power : List Char}
    (hw : ∀ c ∈ whole, c.isDigit = true) (hf : IsFraction part) (he : IsExponent power) :
    numeralSize (whole ++ (part ++ power)) = (whole ++ (part ++ power)).length := by
  have hdigits : (whole ++ (part ++ power)).takeWhile Char.isDigit = whole :=
    takeWhile_digits hw (hf.head_append he)
  have hdrop : (whole ++ (part ++ power)).drop (whole.length + part.length) = power := by
    rw [← List.append_assoc, ← List.length_append, List.drop_left]
  simp only [numeralSize, hdigits, List.drop_left, fractionSize_of_isFraction hf he, hdrop,
    exponentSize_of_isExponent he, List.length_append]
  omega

theorem ne_of_isDigit {c d : Char} (hc : c.isDigit = true) (hd : d.isDigit = false) : c ≠ d := by
  rintro rfl
  exact absurd hc (by rw [hd]; exact Bool.false_ne_true)

theorem scan_of_isDigit {c : Char} (hc : c.isDigit = true) (escapes : Bool) (cs : List Char) :
    scan escapes c cs = scanNumber c cs := by
  have hne : ∀ d, d.isDigit = false → c ≠ d := fun _ => ne_of_isDigit hc
  rw [scan, if_neg (hne _ rfl), if_neg (hne _ rfl), if_neg (hne _ rfl), if_neg (hne _ rfl),
    if_neg (hne _ rfl), if_neg (hne _ rfl), if_neg (hne _ rfl), if_neg (hne _ rfl),
    if_neg (hne _ rfl), if_neg (hne _ rfl), if_neg (hne _ rfl), if_neg (hne _ rfl),
    if_neg (hne _ rfl), if_neg (hne _ rfl), if_pos hc]

/-- A numeral is read as one token. -/
theorem scan_of_isNumeral {c : Char} {cs : List Char} (h : IsNumeral (c :: cs)) (escapes : Bool) :
    scan escapes c cs = (number (String.ofList (c :: cs)), cs.length) := by
  obtain ⟨whole, part, power, hw, hf, he, heq⟩ := h
  cases whole with
  | nil => exact absurd rfl hw.1
  | cons d whole =>
    obtain ⟨rfl, hcs⟩ : c = d ∧ cs = whole ++ (part ++ power) := List.cons.inj heq
    have hn := numeralSize_of_isNumeral (fun x hx => hw.2 x (List.mem_cons_of_mem c hx)) hf he
    rw [← hcs] at hn
    rw [scan_of_isDigit (hw.2 c List.mem_cons_self)]
    simp only [scanNumber, hn, List.drop_length, List.takeWhile_nil, List.length_nil,
      List.take_length]

theorem isBlank_of_isDigit {c : Char} (hc : c.isDigit = true) : isBlank c = false := by
  by_contra hb
  have hp := isNamePart_of_isBlank ((Bool.not_eq_false _).mp hb)
  rw [isNamePart_of_isDigit hc] at hp
  exact absurd hp.symm Bool.false_ne_true

theorem closed_of_isNumeral {cs : List Char} (h : IsNumeral cs) (escapes : Bool) :
    Closed escapes cs [.token (number (String.ofList cs)) cs] := by
  obtain ⟨d, ds, hd, hdd⟩ := h.head []
  rw [List.append_nil] at hd
  subst hd
  refine Closed.of_scan (isBlank_of_isDigit hdd) (fun hn => nomatch hn) ?_ (scan_of_isNumeral h _)
  rfl

/-! ## Number tokens are numerals -/

theorem take_length_takeWhile (p : Char → Bool) (cs : List Char) :
    cs.take (cs.takeWhile p).length = cs.takeWhile p :=
  (List.prefix_iff_eq_take.1 (List.takeWhile_prefix p)).symm

theorem isDigit_of_mem_takeWhile {cs : List Char} {c : Char} (h : c ∈ cs.takeWhile Char.isDigit) :
    c.isDigit = true :=
  List.all_eq_true.1 List.all_takeWhile c h

theorem isFraction_take (cs : List Char) : IsFraction (cs.take (fractionSize cs)) := by
  unfold fractionSize
  split
  · next ds =>
    split
    · exact .inl rfl
    · next n hn =>
      refine .inr ⟨ds.takeWhile Char.isDigit, ⟨?_, fun c => isDigit_of_mem_takeWhile⟩, ?_⟩
      · exact fun h0 => hn (by rw [h0]; rfl)
      · rw [List.take_succ_cons, take_length_takeWhile]
  · exact .inl rfl

theorem isSign_take (cs : List Char) : IsSign (cs.take (signSize cs)) := by
  unfold signSize
  split
  · next s _ =>
    split_ifs with hs
    · simpa [IsSign] using hs
    · exact .inl rfl
  · exact .inl rfl

theorem isExponent_take (cs : List Char) : IsExponent (cs.take (exponentSize cs)) := by
  cases cs with
  | nil => exact .inl rfl
  | cons e cs =>
    rw [exponentSize_cons]
    split_ifs with he
    · split
      · exact .inl rfl
      · next n hn =>
        refine .inr ⟨e, cs.take (signSize cs), signedDigits cs, by simpa using he, isSign_take cs,
          ⟨fun h0 => hn (by rw [h0]; rfl), fun c => isDigit_of_mem_takeWhile⟩, ?_⟩
        rw [List.take_succ_cons, Nat.add_comm, List.take_add, signedDigits, take_length_takeWhile]
    · exact .inl rfl

theorem isNumeral_take {c : Char} (hc : c.isDigit = true) (cs : List Char) :
    IsNumeral (c :: cs.take (numeralSize cs)) := by
  have hwhole : AllDigits (c :: cs.takeWhile Char.isDigit) :=
    ⟨List.cons_ne_nil _ _, List.forall_mem_cons.2 ⟨hc, fun d => isDigit_of_mem_takeWhile⟩⟩
  refine ⟨_, _, _, hwhole, isFraction_take (cs.drop (cs.takeWhile Char.isDigit).length),
    isExponent_take (cs.drop ((cs.takeWhile Char.isDigit).length +
      fractionSize (cs.drop (cs.takeWhile Char.isDigit).length))), ?_⟩
  rw [numeralSize, List.take_add, List.take_add, take_length_takeWhile, List.append_assoc,
    List.cons_append]

theorem fst_ite_ne {p : Prop} [Decidable p] {x y : Token × Nat} {t : Token}
    (hx : p → x.1 ≠ t) (hy : y.1 ≠ t) : (if p then x else y).1 ≠ t := by
  split_ifs with hp
  · exact hx hp
  · exact hy

/-- Names and numbers come from the scans for them. -/
theorem fst_scan_ne {escapes : Bool} {c : Char} {cs : List Char} {t : Token} {s : String}
    (ht : t = name s ∨ t = number s) (hnumber : c.isDigit = true → (scanNumber c cs).1 ≠ t)
    (hname : (scanName c cs).1 ≠ t) : (scan escapes c cs).1 ≠ t := by
  have hpair : ∀ a x b, a ≠ t → b ≠ t → (scanPair a x b cs).1 ≠ t :=
    fun a x b ha hb => fst_ite_ne (fun _ => hb) ha
  have hquoted : ∀ f e x, (∀ u, f u ≠ t) → illegal ≠ t → (scanQuoted f e x cs).1 ≠ t := by
    intro f e x hf hi
    unfold scanQuoted
    split
    · exact hf _
    · exact hi
  unfold scan
  rcases ht with rfl | rfl
  all_goals
    refine fst_ite_ne (fun _ => nofun) <| fst_ite_ne (fun _ => nofun) <|
      fst_ite_ne (fun _ => nofun) <| fst_ite_ne (fun _ => nofun) <| fst_ite_ne (fun _ => nofun) <|
      fst_ite_ne (fun _ => fst_ite_ne (fun _ => nofun) nofun) <|
      fst_ite_ne (fun _ => fst_ite_ne (fun _ => nofun) nofun) <|
      fst_ite_ne (fun _ => fst_ite_ne (fun _ => nofun) (hpair _ _ _ nofun nofun)) <|
      fst_ite_ne (fun _ => hpair _ _ _ nofun nofun) <|
      fst_ite_ne (fun _ => hpair _ _ _ nofun nofun) <|
      fst_ite_ne (fun _ => hquoted _ _ _ nofun nofun) <|
      fst_ite_ne (fun _ => hquoted _ _ _ nofun nofun) <|
      fst_ite_ne (fun _ => hquoted _ _ _ nofun nofun) <|
      fst_ite_ne (fun _ => hquoted _ _ _ nofun nofun) <|
      fst_ite_ne hnumber <| fst_ite_ne (fun _ => hname) nofun

theorem isDigit_of_scan {escapes : Bool} {c : Char} {cs : List Char} {s : String}
    (h : (scan escapes c cs).1 = number s) : c.isDigit = true := by
  by_contra hd
  refine fst_scan_ne (.inr rfl) (fun hdigit => absurd hdigit hd) ?_ h
  show ofWord _ ≠ number s
  unfold ofWord
  split <;> exact nofun

/-- No plain name is empty. -/
theorem fst_scan_ne_name (escapes : Bool) (c : Char) (cs : List Char) :
    (scan escapes c cs).1 ≠ name "" := by
  refine fst_scan_ne (.inl rfl) (fun _ => ?_) ?_
  · unfold scanNumber
    dsimp only
    split <;> exact nofun
  · show ofWord (String.ofList (c :: _)) ≠ name ""
    unfold ofWord
    split
    · exact nofun
    · intro h
      have hempty := congrArg String.toList (Token.name.inj h)
      rw [String.toList_ofList] at hempty
      cases hempty

/-- A number token is a numeral. -/
theorem isNumeral_of_scan {escapes : Bool} {c : Char} {cs : List Char} {s : String} {n : Nat}
    (h : scan escapes c cs = (number s, n)) : IsNumeral s.toList := by
  have hd : c.isDigit = true := isDigit_of_scan (by rw [h])
  rw [scan_of_isDigit hd, scanNumber] at h
  split at h
  · injection h with h₁ h₂
    injection h₁ with h₁
    rw [← h₁, String.toList_ofList]
    exact isNumeral_take hd cs
  · cases h

end Token

/-- The numerals among the tokens are well formed, as those of a text are. -/
def Token.Numerals (ts : List Token) : Prop := ∀ s, Token.number s ∈ ts → IsNumeral s.toList

namespace Token.Numerals

variable {as bs : List Token}

theorem left (h : Numerals (as ++ bs)) : Numerals as := fun s hs => h s (List.mem_append_left bs hs)

theorem right (h : Numerals (as ++ bs)) : Numerals bs :=
  fun s hs => h s (List.mem_append_right as hs)

theorem tail {t : Token} (h : Numerals (t :: bs)) : Numerals bs :=
  fun s hs => h s (List.mem_cons_of_mem t hs)

end Token.Numerals

/-- What holds of every token that is scanned holds of the tokens of a text. -/
theorem Piece.forall_mem_tokens_ofText {P : Token → Prop} {escapes : Bool}
    (h : ∀ c cs, P (Token.scan escapes c cs).1) (cs : List Char) :
    ∀ t ∈ tokens (ofText escapes cs), P t := by
  fun_induction ofText escapes cs with
  | case1 => exact fun t ht => absurd ht List.not_mem_nil
  | case2 c cs _ n ih => exact ih
  | case3 c cs _ t n hscan ih =>
    have ht := h c cs
    rw [hscan] at ht
    rw [tokens]
    split_ifs
    · exact ih
    · exact List.forall_mem_cons.2 ⟨ht, ih⟩

theorem Word.forall_mem_token_ofText {P : Token → Prop} {escapes : Bool}
    (h : ∀ c cs, P (Token.scan escapes c cs).1) (text : String) :
    ∀ t ∈ (ofText escapes text).map token, P t := by
  rw [ofText, Piece.map_token_ofPieces]
  exact Piece.forall_mem_tokens_ofText h text.toList

theorem Word.numerals_ofText (escapes : Bool) (text : String) :
    Token.Numerals ((ofText escapes text).map token) := by
  refine fun s hs => forall_mem_token_ofText (P := fun t => t = .number s → IsNumeral s.toList)
    (fun c cs h => ?_) text _ hs rfl
  exact Token.isNumeral_of_scan (Prod.ext h rfl)

/-! ## Numerals denote literals -/

namespace Decimal

/-- The point of a fraction is dropped. -/
theorem fraction_append {part power : List Char} (hf : IsFraction part) (he : IsExponent power) :
    fraction (part ++ power) = (part.drop 1, power) := by
  obtain rfl | ⟨ds, hd, rfl⟩ := hf
  · obtain rfl | ⟨e, sign, ds, h, -, -, rfl⟩ := he
    · rfl
    · obtain rfl | rfl := h <;> rfl
  · have hdigits : (ds ++ power).takeWhile Char.isDigit = ds :=
      Token.takeWhile_digits hd.2 (IsFraction.head_append (.inl rfl) he)
    have hsplit := @List.takeWhile_append_dropWhile _ Char.isDigit (ds ++ power)
    rw [hdigits] at hsplit
    show ((ds ++ power).takeWhile Char.isDigit, (ds ++ power).dropWhile Char.isDigit) = _
    rw [hdigits, List.append_cancel_left hsplit]
    rfl

section Exponents

variable {e : Char} {ds : List Char} (he : e = 'e' ∨ e = 'E') (hd : AllDigits ds)

include hd in
theorem digits?_eq : exponent?.digits? ds = some (ofDigits ds : Int) :=
  if_pos ⟨hd.1, List.all_eq_true.2 hd.2⟩

include he hd in
theorem exponent?_digits : exponent? (e :: ds) = some (ofDigits ds : Int) := by
  obtain ⟨d, ds', hcons, hdd⟩ := hd.head []
  rw [List.append_nil] at hcons
  rw [exponent?, if_pos he]
  · exact digits?_eq hd
  · rintro _ rfl
    exact absurd (List.cons.inj hcons).1.symm (Token.ne_of_isDigit hdd rfl)
  · rintro _ rfl
    exact absurd (List.cons.inj hcons).1.symm (Token.ne_of_isDigit hdd rfl)

include he hd in
theorem exponent?_plus : exponent? (e :: '+' :: ds) = some (ofDigits ds : Int) := by
  simp only [exponent?, if_pos he, digits?_eq hd]

include he hd in
theorem exponent?_minus : exponent? (e :: '-' :: ds) = some (-ofDigits ds : Int) := by
  simp only [exponent?, if_pos he, digits?_eq hd, Option.map_some]

end Exponents

/-- The text of an exponent, or none, and the power of ten that it stands for. -/
inductive DenotesPower : List Char → ℤ → Prop
  | none : DenotesPower [] 0
  | plain {e : Char} {ds : List Char} (he : e = 'e' ∨ e = 'E') (hd : AllDigits ds) :
      DenotesPower (e :: ds) (ofDigits ds)
  | plus {e : Char} {ds : List Char} (he : e = 'e' ∨ e = 'E') (hd : AllDigits ds) :
      DenotesPower (e :: '+' :: ds) (ofDigits ds)
  | minus {e : Char} {ds : List Char} (he : e = 'e' ∨ e = 'E') (hd : AllDigits ds) :
      DenotesPower (e :: '-' :: ds) (-ofDigits ds)

/-- A numeral and the decimal that it denotes. -/
inductive Denotes : List Char → Decimal → Prop
  | whole {ds power : List Char} {e : ℤ} (hd : AllDigits ds) (he : DenotesPower power e) :
      Denotes (ds ++ power) ⟨ofDigits ds, e⟩
  | point {ds part power : List Char} {e : ℤ} (hd : AllDigits ds) (hp : AllDigits part)
      (he : DenotesPower power e) :
      Denotes (ds ++ '.' :: (part ++ power)) ⟨ofDigits (ds ++ part), e - part.length⟩

theorem exists_denotesPower {power : List Char} (h : IsExponent power) :
    ∃ e, DenotesPower power e := by
  obtain rfl | ⟨e, sign, ds, he, hs, hd, rfl⟩ := h
  · exact ⟨0, .none⟩
  · obtain rfl | rfl | rfl := hs
    · exact ⟨_, .plain he hd⟩
    · exact ⟨_, .plus he hd⟩
    · exact ⟨_, .minus he hd⟩

/-- Every numeral denotes a decimal. -/
theorem exists_denotes {cs : List Char} (h : IsNumeral cs) : ∃ d, Denotes cs d := by
  obtain ⟨whole, part, power, hw, hf, he, rfl⟩ := h
  obtain ⟨e, hpower⟩ := exists_denotesPower he
  obtain rfl | ⟨ds, hd, rfl⟩ := hf
  · exact ⟨_, .whole hw hpower⟩
  · exact ⟨_, .point hw hd hpower⟩

theorem DenotesPower.isExponent {power : List Char} {e : ℤ} (h : DenotesPower power e) :
    IsExponent power ∧ exponent? power = some e := by
  cases h with
  | none => exact ⟨.inl rfl, rfl⟩
  | plain he hd => exact ⟨.inr ⟨_, [], _, he, .inl rfl, hd, rfl⟩, exponent?_digits he hd⟩
  | plus he hd => exact ⟨.inr ⟨_, ['+'], _, he, .inr (.inl rfl), hd, rfl⟩, exponent?_plus he hd⟩
  | minus he hd => exact ⟨.inr ⟨_, ['-'], _, he, .inr (.inr rfl), hd, rfl⟩, exponent?_minus he hd⟩

/-- The number that a numeral denotes. -/
theorem ofChars?_append {whole part power : List Char} {e : Int} (hw : AllDigits whole)
    (hf : IsFraction part) (he : IsExponent power) (hexp : exponent? power = some e) :
    ofChars? (whole ++ (part ++ power)) =
      some ⟨ofDigits (whole ++ part.drop 1), e - (part.drop 1).length⟩ := by
  have htake : (whole ++ (part ++ power)).takeWhile Char.isDigit = whole :=
    Token.takeWhile_digits hw.2 (hf.head_append he)
  have hsplit := @List.takeWhile_append_dropWhile _ Char.isDigit (whole ++ (part ++ power))
  rw [htake] at hsplit
  simp only [ofChars?, htake, List.append_cancel_left hsplit, fraction_append hf he, hexp,
    if_neg hw.1, Option.map_some]

theorem Denotes.ofChars?_eq {cs : List Char} {d : Decimal} (h : Denotes cs d) :
    ofChars? cs = some d := by
  cases h with
  | whole hd he =>
    obtain ⟨hpower, hexp⟩ := he.isExponent
    have hread := ofChars?_append hd (.inl rfl) hpower hexp
    rwa [List.drop_nil, List.append_nil, List.length_nil, Nat.cast_zero, sub_zero] at hread
  | point hd hp he =>
    obtain ⟨hpower, hexp⟩ := he.isExponent
    exact ofChars?_append hd (.inr ⟨_, hp, rfl⟩) hpower hexp

end Decimal

namespace Literal

/-- Every numeral denotes a literal, with and without a minus. -/
theorem exists_ofNumeral {s : String} (h : IsNumeral s.toList) (negative : Bool) :
    ∃ l, ofNumeral negative s = some l := by
  obtain ⟨d, hd⟩ := Decimal.exists_denotes h
  unfold ofNumeral
  dsimp only
  rw [hd.ofChars?_eq, Option.map_some]
  split_ifs <;> exact ⟨_, rfl⟩

/-- A numeral of digits only denotes the integer if that fits. -/
theorem ofNumeral_of_allDigits {s : String} {negative : Bool} {n : Int64}
    (h : AllDigits s.toList)
    (hn : (if negative then -(Decimal.ofDigits s.toList : Int) else Decimal.ofDigits s.toList)
      = n.toInt) : ofNumeral negative s = some (integer n) := by
  unfold ofNumeral
  dsimp only
  rw [hn, Int64.ofInt_toInt, if_pos ⟨h.1, List.all_eq_true.2 h.2, rfl⟩]

end Literal

/-! ## Numbers are written as numerals -/

theorem allDigits_toDigits (n : Nat) : AllDigits (Nat.toDigits 10 n) :=
  ⟨Nat.toDigits_ne_nil, fun _ hc =>
    Nat.isDigit_of_mem_toDigits (Nat.succ_pos 9) (Nat.le_refl 10) hc⟩

theorem ofDigits_toDigits (n : Nat) : Decimal.ofDigits (Nat.toDigits 10 n) = n :=
  Nat.ofDigitChars_ten_toDigits

theorem IsNumeral.of_allDigits {cs : List Char} (h : AllDigits cs) : IsNumeral cs :=
  ⟨cs, [], [], h, .inl rfl, .inl rfl, by simp⟩

theorem toList_toString_int (n : Int) :
    (toString n).toList =
      if 0 ≤ n then Nat.toDigits 10 n.toNat else '-' :: Nat.toDigits 10 (-n).toNat := by
  rw [Int.toString_eq_repr, Int.repr_eq_if]
  split_ifs
  · exact Nat.toList_repr
  · rw [String.toList_append, Nat.toList_repr]
    rfl

namespace Decimal

theorem isDigit_of_mem_zeros {n : Nat} : ∀ c ∈ zeros n, c.isDigit = true := by
  intro c hc
  rw [List.eq_of_mem_replicate hc]
  rfl

section Parts

variable {ds : List Char} (h : AllDigits ds) {n : Nat}

include h

theorem allDigits_take (hn : 0 < n) : AllDigits (ds.take n) := by
  refine ⟨List.ne_nil_of_length_pos ?_, fun c hc => h.2 c (List.mem_of_mem_take hc)⟩
  rw [List.length_take]
  exact Nat.lt_min.2 ⟨hn, List.length_pos_iff.2 h.1⟩

theorem allDigits_drop (hn : n < ds.length) : AllDigits (ds.drop n) :=
  ⟨mt List.drop_eq_nil_iff.1 (Nat.not_le.2 hn), fun c hc => h.2 c (List.mem_of_mem_drop hc)⟩

theorem allDigits_zeros_append (n : Nat) : AllDigits (zeros n ++ ds) :=
  ⟨List.append_ne_nil_of_right_ne_nil _ h.1,
    List.forall_mem_append.2 ⟨isDigit_of_mem_zeros, h.2⟩⟩

theorem allDigits_append_zeros (n : Nat) : AllDigits (ds ++ zeros n) :=
  ⟨List.append_ne_nil_of_left_ne_nil h.1 _,
    List.forall_mem_append.2 ⟨h.2, isDigit_of_mem_zeros⟩⟩

end Parts

theorem isNumeral_pointed {ds : List Char} (h : AllDigits ds) (power : Int) :
    IsNumeral (pointed ds power) := by
  unfold pointed
  dsimp only
  split_ifs with hsmall hinner
  · have hp := allDigits_zeros_append h (-(power + 1)).toNat
    exact ⟨['0'], _, [], allDigits_zero, .inr ⟨_, hp, rfl⟩, .inl rfl, by simp⟩
  · have hw : AllDigits (ds.take (power + 1).toNat) := allDigits_take h (by omega)
    have hp : AllDigits (ds.drop (power + 1).toNat) := allDigits_drop h (by omega)
    exact ⟨_, _, [], hw, .inr ⟨_, hp, rfl⟩, .inl rfl, by simp⟩
  · have hw := allDigits_append_zeros h ((power + 1).toNat - ds.length)
    exact ⟨_, ['.', '0'], [], hw, .inr ⟨['0'], allDigits_zero, rfl⟩, .inl rfl, by simp⟩

theorem isExponent_power (plus : Bool) (power : Int) :
    IsExponent ('e' :: (if plus ∧ 0 ≤ power then ['+'] else []) ++ (toString power).toList) := by
  rw [toList_toString_int]
  split_ifs with hplus hpos hpos
  · exact .inr ⟨'e', ['+'], _, .inl rfl, .inr (.inl rfl), allDigits_toDigits _, rfl⟩
  · exact absurd hplus.2 hpos
  · exact .inr ⟨'e', [], _, .inl rfl, .inl rfl, allDigits_toDigits _, rfl⟩
  · exact .inr ⟨'e', ['-'], _, .inl rfl, .inr (.inr rfl), allDigits_toDigits _, rfl⟩

theorem isNumeral_scientific {ds : List Char} (h : AllDigits ds) (plus : Bool) (power : Int) :
    IsNumeral (scientific plus ds power) := by
  unfold scientific
  dsimp only
  rw [List.append_assoc]
  split
  · next d e rest =>
    obtain ⟨hd, hrest⟩ := List.forall_mem_cons.1 h.2
    refine ⟨[d], '.' :: e :: rest, _, ⟨List.cons_ne_nil _ _, fun c hc => ?_⟩,
      .inr ⟨_, ⟨List.cons_ne_nil _ _, hrest⟩, rfl⟩, isExponent_power plus power, rfl⟩
    rwa [List.mem_singleton.1 hc]
  · exact ⟨ds, [], _, h, .inl rfl, isExponent_power plus power, rfl⟩

theorem mem_pointed (ds : List Char) (power : Int) : '.' ∈ pointed ds power := by
  unfold pointed
  dsimp only
  split_ifs <;> simp

theorem mem_scientific (plus : Bool) (ds : List Char) (power : Int) :
    'e' ∈ scientific plus ds power := by
  unfold scientific
  dsimp only
  rw [List.append_assoc]
  exact List.mem_append_right _ List.mem_cons_self

/-- A decimal is not written as an integer. -/
theorem exists_not_isDigit (layout : Layout) (d : Decimal) :
    ∃ c ∈ layout.text d, c.isDigit = false := by
  unfold Layout.text
  dsimp only
  split_ifs
  · exact ⟨'.', by decide, rfl⟩
  · exact ⟨'.', mem_pointed _ _, rfl⟩
  · exact ⟨'e', mem_scientific _ _ _, rfl⟩

/-- A decimal is written as a numeral. -/
theorem isNumeral_text (layout : Layout) (d : Decimal) : IsNumeral (layout.text d) := by
  unfold Layout.text
  dsimp only
  split_ifs
  · exact ⟨['0'], ['.', '0'], [], allDigits_zero, .inr ⟨['0'], allDigits_zero, rfl⟩, .inl rfl,
      rfl⟩
  · exact isNumeral_pointed (allDigits_toDigits _) _
  · exact isNumeral_scientific (allDigits_toDigits _) _ _

end Decimal

end SqlFilter
