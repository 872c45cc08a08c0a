import SqlFilter.Conflict
import SqlFilter.Proofs.Token.Ended
import SqlFilter.Proofs.Tree.Fragment

/-!
# Casts to types that a user names

The name of a type that a user may choose has parentheses of its own, as in `DECIMAL(10, 2)`. The
parenthesis of a cast to it encloses the rest of the cast just if those of the name match
(`ConflictLog.resolve_encloses_iff`).
-/

namespace SqlFilter

open Text Piece

/-! ## Names of types -/

namespace ConflictLog

variable {c : Char} {cs : List Char}

theorem toNat_lt_of_isTypeChar (h : isTypeChar c = true) : c.toNat < 128 := by
  have hval : c.toNat = c.val.toNat := rfl
  simp only [isTypeChar, Bool.or_eq_true, beq_iff_eq] at h
  rcases h with ((((h | rfl) | rfl) | rfl) | rfl) | rfl
  · simp only [Char.isAlphanum, Char.isAlpha, Char.isUpper, Char.isLower, Char.isDigit,
      Bool.or_eq_true, Bool.and_eq_true, decide_eq_true_eq, ge_iff_le,
      UInt32.le_iff_toNat_le] at h
    simp at h
    omega
  all_goals decide

theorem toUpper_ofNat : ∀ n < 128, isTypeChar (Char.ofNat n) = true →
    isTypeChar (Char.ofNat n).toUpper = true ∧
      (Char.ofNat n).toUpper.toUpper = (Char.ofNat n).toUpper := by
  decide

theorem toUpper_of_isTypeChar (h : isTypeChar c = true) :
    isTypeChar c.toUpper = true ∧ c.toUpper.toUpper = c.toUpper := by
  have := toUpper_ofNat c.toNat (toNat_lt_of_isTypeChar h)
  rw [Char.ofNat_toNat] at this
  exact this h

/-- The name of a type as it is stored. -/
theorem upper_of_isTypeName {s : String} (h : isTypeName s = true) :
    (∀ c ∈ (upper (trim s)).toList, isTypeChar c = true) ∧
      upper (upper (trim s)) = upper (trim s) := by
  have hall : ∀ c ∈ (trim s).toList, isTypeChar c = true := by
    unfold isTypeName at h
    split at h
    · cases h
    · next c cs hcs =>
      rw [hcs]
      exact List.all_eq_true.1 (Bool.and_eq_true_iff.1 h).2
  unfold upper
  rw [String.toList_ofList, List.map_map]
  refine ⟨fun c hc => ?_, congrArg String.ofList (List.map_congr_left fun c hc => ?_)⟩
  · obtain ⟨d, hd, rfl⟩ := List.mem_map.1 hc
    exact (toUpper_of_isTypeChar (hall d hd)).1
  · exact (toUpper_of_isTypeChar (hall c hc)).2

/-- Nothing is open in the name of a type, since it has neither quotes nor marks of comments. -/
theorem ended_of_isTypeChar (h : ∀ c ∈ cs, isTypeChar c = true) (escapes : Bool) :
    Ended escapes cs := by
  intro p hp
  have hmem := List.mem_of_getLast? hp
  cases p with
  | blank ds => rfl
  | token t ds =>
    cases ds with
    | nil => rfl
    | cons c ds =>
      have hc : isTypeChar c = true := by
        refine h c ?_
        rw [← @chars_ofText escapes cs]
        exact List.mem_flatMap.2 ⟨_, hmem, List.mem_cons_self⟩
      obtain ⟨ps, qs, hps⟩ := List.append_of_mem hmem
      have hlexed := @lexed_ofText escapes cs
      rw [hps] at hlexed
      obtain ⟨⟨c', ds', heq, -, hscan⟩, -⟩ := hlexed.right
      obtain ⟨rfl, rfl⟩ := List.cons.inj heq
      show isOpenToken t c ds = false
      unfold isOpenToken
      split_ifs with ht
      · subst ht
        obtain ⟨rfl, -⟩ | ⟨rfl, -⟩ := Token.eq_of_scan_comment hscan <;> cases hc
      · refine (Bool.not_eq_true _).mp fun hopen => ?_
        have hmark := (Bool.and_eq_true_iff.1 hopen).2
        simp only [Bool.or_eq_true, beq_iff_eq] at hmark
        rcases hmark with ((rfl | rfl) | rfl) | rfl <;> cases hc

/-! ## Decisions -/

theorem find?_decideAmong (key : ConflictKey) (r : Resolution) (cs : List Conflict) :
    (decideAmong key r cs).find? (·.key = key) =
      (cs.find? (·.key = key)).map fun c => { c with resolution := r } := by
  induction cs with
  | nil => rfl
  | cons c cs ih =>
    rw [decideAmong]
    split_ifs with hkey
    · simp [hkey]
    · simp [hkey, ih]

/-- A type that is accepted is the type to cast to. -/
theorem castFor_resolve {log : ConflictLog} {key : ConflictKey} {type : String}
    (h : (log.resolve key (some type)).1 = true) : isTypeName type = true ∧
      (log.resolve key (some type)).2.castFor key = some (upper (trim type)) := by
  unfold resolve decision? at h ⊢
  dsimp only at h ⊢
  by_cases hkey : (log.find? key).isNone = true
  · rw [if_pos hkey] at h
    cases h
  · rw [if_neg hkey] at h ⊢
    by_cases hname : isTypeName type = true
    · rw [if_pos hname]
      refine ⟨hname, ?_⟩
      rw [Bool.not_eq_true, Option.isNone_eq_false_iff, Option.isSome_iff_exists] at hkey
      obtain ⟨c, hc⟩ := hkey
      have hfound := find?_decideAmong key (.overridden (upper (trim type))) log.conflicts
      rw [show log.conflicts.find? (·.key = key) = some c from hc] at hfound
      show (List.find? (fun c => decide (c.key = key)) _).bind Conflict.castType = _
      rw [hfound]
      rfl
    · rw [if_neg hname] at h
      cases h

end ConflictLog

/-! ## The words of a cast -/

/-- The name of the function that casts. -/
def Dialect.castName (d : Dialect) : String := if d = duckdb then "TRY_CAST" else "CAST"

namespace Piece

variable {escapes : Bool} {c : Char} {cs : List Char}

/-- A token that starts with a capital letter is a word. -/
theorem scan_of_isUpper (hc : c.isUpper = true) (cs : List Char) :
    isBlank c = false ∧ Token.scan escapes c cs = Token.scanName c cs := by
  have hne : ∀ d : Char, d.isUpper = false → c ≠ d := by
    rintro d hd rfl
    exact Bool.false_ne_true (hd.symm.trans hc)
  have hdigit : ¬ c.isDigit = true := by
    simp only [Char.isUpper, Char.isDigit, Bool.and_eq_true, decide_eq_true_eq, ge_iff_le,
      UInt32.le_iff_toNat_le] at hc ⊢
    simp at hc ⊢
    omega
  have hstart : Token.isNameStart c = true := by
    rw [Token.isNameStart, isLetter_of_isAlpha (by rw [Char.isAlpha, hc]; rfl)]
    rfl
  refine ⟨(Bool.not_eq_true _).mp fun hb => ?_, ?_⟩
  · have hpart := Token.isNamePart_of_isBlank hb
    rw [Token.isNamePart, isLetter_of_isAlpha (by rw [Char.isAlpha, hc]; rfl)] at hpart
    cases hpart
  · unfold Token.scan
    rw [if_neg (hne '(' rfl), if_neg (hne ')' rfl), if_neg (hne ',' rfl), if_neg (hne '.' rfl),
      if_neg (hne '=' rfl), if_neg (hne '-' rfl), if_neg (hne '/' rfl), if_neg (hne '<' rfl),
      if_neg (hne '>' rfl), if_neg (hne '!' rfl), if_neg (hne '\'' rfl), if_neg (hne '"' rfl),
      if_neg (hne Dialect.backtick rfl), if_neg (hne '[' rfl), if_neg hdigit, if_pos hstart]

/-- A word in front of a character that does not belong to it. -/
theorem ofText_word {d : Char} (hc : c.isUpper = true) (hcs : cs.all Token.isNamePart = true)
    (hd : Token.isNamePart d = false) (rest : List Char) :
    ofText escapes (c :: (cs ++ d :: rest)) =
      token (.ofWord (String.ofList (c :: cs))) (c :: cs) :: ofText escapes (d :: rest) := by
  have htake : (cs ++ d :: rest).takeWhile Token.isNamePart = cs :=
    takeWhile_append_of_head (List.all_eq_true.1 hcs) fun x hx => Option.some.inj hx ▸ hd
  obtain ⟨hblank, hscan⟩ := @scan_of_isUpper escapes c hc (cs ++ d :: rest)
  rw [Token.scanName, htake] at hscan
  exact ofText_cons_of_scan hblank hscan

theorem tokens_castName (d : Dialect) (rest : List Char) :
    tokens (ofText escapes (d.castName.toList ++ '(' :: rest)) =
      .name d.castName :: .leftParen :: tokens (ofText escapes rest) := by
  have word : ∀ {c : Char} {cs : List Char}, c.isUpper = true → cs.all Token.isNamePart = true →
      Token.ofWord (String.ofList (c :: cs)) = .name (String.ofList (c :: cs)) →
        tokens (ofText escapes (c :: cs ++ '(' :: rest)) =
          .name (String.ofList (c :: cs)) :: .leftParen :: tokens (ofText escapes rest) := by
    intro c cs hc hcs hname
    rw [List.cons_append, ofText_word hc hcs (by decide), hname, ofText_leftParen,
      tokens_token (by rintro ⟨⟩), tokens_token (by rintro ⟨⟩)]
  unfold Dialect.castName
  split_ifs
  · exact @word 'T' ['R', 'Y', '_', 'C', 'A', 'S', 'T'] (by decide) (by decide)
      (by decide +kernel)
  · exact @word 'C' ['A', 'S', 'T'] (by decide) (by decide) (by decide +kernel)

/-- The tokens of a cast are those of its parts, if nothing is open in them. -/
theorem tokens_safeCast (d : Dialect) {e type : String} (he : Ended escapes e.toList)
    (htype : Ended escapes (d.castTarget type).toList) :
    tokens (ofText escapes (d.safeCast e type).toList) = .name d.castName :: .leftParen ::
      (tokens (ofText escapes e.toList) ++ .name "AS" ::
        (tokens (ofText escapes (d.castTarget type).toList) ++ [.rightParen])) := by
  have hparen : Delimited [')'] := delimited_cons.2 (by decide)
  have hspace : ∀ rest, Delimited (' ' :: rest) := fun rest => delimited_cons.2 (by decide)
  have htarget : tokens (ofText escapes ((d.castTarget type).toList ++ [')'])) =
      tokens (ofText escapes (d.castTarget type).toList) ++ [.rightParen] := by
    rw [htype.tokens_append hparen, ofText_rightParen, ofText]
    rfl
  have has : ∀ rest, tokens (ofText escapes (' ' :: 'A' :: 'S' :: ' ' :: rest)) =
      .name "AS" :: tokens (ofText escapes rest) := by
    intro rest
    have hword := @ofText_word escapes 'A' ['S'] ' ' (by decide) (by decide) (by decide) rest
    have hname : Token.ofWord (String.ofList ['A', 'S']) = .name "AS" := by decide +kernel
    rw [tokens_ofText_cons_blank (by decide)]
    rw [List.cons_append, List.nil_append, hname] at hword
    rw [hword, tokens_token (by rintro ⟨⟩), tokens_ofText_cons_blank (by decide)]
  have htext : (d.safeCast e type).toList = d.castName.toList ++ '(' :: (e.toList ++
      (' ' :: 'A' :: 'S' :: ' ' :: ((d.castTarget type).toList ++ [')']))) := by
    unfold Dialect.safeCast Dialect.castName
    split_ifs <;> simp only [String.toList_append, List.append_assoc] <;> rfl
  rw [htext, tokens_castName, he.tokens_append (hspace _), has, htarget]

end Piece

/-! ## Parentheses of a cast -/

namespace Word

/-- What stands in the parentheses of a list of words depends on their tokens only. -/
theorem isSome_unwrap?_iff {ws vs : List Word} (h : ws.map token =
    .leftParen :: (vs.map token ++ [.rightParen])) :
    (unwrap? ws).isSome = true ↔ balanced 0 vs = true := by
  obtain ⟨o, rest, rfl, ho, hrest⟩ := List.map_eq_cons_iff.1 h
  obtain ⟨body, cs, rfl, hbody, hcs⟩ := List.map_eq_append_iff.1 hrest
  obtain ⟨c, cs, rfl, hc, hnil⟩ := List.map_eq_cons_iff.1 hcs
  obtain rfl := List.map_eq_nil_iff.1 hnil
  rw [← balanced_congr hbody, Option.isSome_iff_exists]
  constructor
  · rintro ⟨body', hu⟩
    obtain ⟨o', c', heq, -, -, hb⟩ := unwrap?_eq_some_iff.1 hu
    obtain ⟨rfl, -⟩ := List.append_inj' (List.cons.inj heq).2 rfl
    exact hb
  · exact fun hb => ⟨body, unwrap?_eq_some_iff.2 ⟨o, c, rfl, ho, hc, hb⟩⟩

/-- The parentheses of a text match. -/
def Matched (escapes : Bool) (s : String) : Prop := balanced 0 (ofText escapes s) = true

instance (escapes : Bool) (s : String) : Decidable (Matched escapes s) :=
  inferInstanceAs (Decidable (_ = _))

theorem map_token_ofText (escapes : Bool) (s : String) :
    (ofText escapes s).map token = tokens (Piece.ofText escapes s.toList) :=
  map_token_ofPieces [] _

/-- What holds of a name and itself and of all pairs of a table holds of the name and what it is
replaced by. -/
theorem rel_lookup {Q : String → String → Prop} [∀ a b, Decidable (Q a b)] {s : String}
    (hs : Q s s) {own : List (String × String)}
    (h : own.all (fun x => decide (Q x.1 x.2)) = true) : Q s ((own.lookup s).getD s) := by
  cases ht : own.lookup s with
  | none => exact hs
  | some t =>
    obtain ⟨l₁, l₂, rfl, -⟩ := List.lookup_eq_some_iff.1 ht
    exact of_decide_eq_true (List.all_eq_true.1 h (s, t)
      (List.mem_append_right _ List.mem_cons_self))

/-- The type that a cast is written with has matching parentheses if the one it is for has, and no
other characters than names of types may have. -/
theorem castTarget_of_upper (d : Dialect) {s : String} (hs : upper s = s)
    (hchars : s.toList.all ConflictLog.isTypeChar = true) :
    (d.castTarget s).toList.all ConflictLog.isTypeChar = true ∧
      (Matched d.backslashEscapes (d.castTarget s) ↔ Matched d.backslashEscapes s) := by
  unfold Dialect.castTarget
  split_ifs with hd
  · exact ⟨hchars, Iff.rfl⟩
  · rw [not_not] at hd
    subst hd
    dsimp only
    rw [hs]
    exact @rel_lookup (fun a b => b.toList.all ConflictLog.isTypeChar = true ∧
      (Matched true b ↔ Matched true a)) _ s ⟨hchars, Iff.rfl⟩ _ (by decide +kernel)

/-- The parenthesis that a cast opens is closed by its last word just if the parentheses of the type
match. -/
theorem unwrap?_safeCast_iff (d : Dialect) {e type : String}
    (he : Ended d.backslashEscapes e.toList) (hmatched : Matched d.backslashEscapes e)
    (htype : Ended d.backslashEscapes (d.castTarget type).toList) :
    (unwrap? (ofText d.backslashEscapes (d.safeCast e type)).tail).isSome = true ↔
      Matched d.backslashEscapes (d.castTarget type) := by
  have has : (⟨.name "AS", [], []⟩ : Word).token ≠ .leftParen ∧
      (⟨.name "AS", [], []⟩ : Word).token ≠ .rightParen := ⟨by rintro ⟨⟩, by rintro ⟨⟩⟩
  have htokens := map_token_ofText d.backslashEscapes (d.safeCast e type)
  rw [tokens_safeCast d he htype, ← map_token_ofText, ← map_token_ofText] at htokens
  have htail := @isSome_unwrap?_iff (ofText d.backslashEscapes (d.safeCast e type)).tail
    (ofText d.backslashEscapes e ++ ⟨.name "AS", [], []⟩ ::
      ofText d.backslashEscapes (d.castTarget type)) (by
    rw [List.map_tail, htokens, List.map_append, List.map_cons, List.append_assoc]
    rfl)
  rw [htail, balanced_append_zero hmatched, balanced, if_neg has.1, if_neg has.2]
  rfl

end Word

namespace ConflictLog

open Word

/-- **Casts to the types that users name.** Where a type is accepted, the parenthesis of a cast to
it is closed by the last word of the cast just if the parentheses of the type match. -/
theorem resolve_encloses_iff {log : ConflictLog} {key : ConflictKey} {type : String}
    (h : (log.resolve key (some type)).1 = true) (d : Dialect) {e : String}
    (he : Ended d.backslashEscapes e.toList) (hmatched : Matched d.backslashEscapes e) :
    ∃ stored, (log.resolve key (some type)).2.castFor key = some stored ∧
      ((unwrap? (Word.ofText d.backslashEscapes (d.safeCast e stored)).tail).isSome = true ↔
        Matched d.backslashEscapes stored) := by
  obtain ⟨hname, hcast⟩ := castFor_resolve h
  obtain ⟨hchars, hupper⟩ := upper_of_isTypeName hname
  refine ⟨_, hcast, ?_⟩
  obtain ⟨htarget, hiff⟩ := castTarget_of_upper d hupper (List.all_eq_true.2 hchars)
  rw [← hiff]
  exact unwrap?_safeCast_iff d he hmatched (ended_of_isTypeChar (List.all_eq_true.1 htarget) _)

theorem resolve_encloses_decimal : ∃ (log : ConflictLog) (key : ConflictKey),
    (log.resolve key (some " decimal(10, 2)")).1 = true ∧
      Ended true "trim('a)')".toList ∧ Matched true "trim('a)')" ∧
        (log.resolve key (some " decimal(10, 2)")).2.castFor key = some "DECIMAL(10, 2)" ∧
        (unwrap? (Word.ofText true
          (Dialect.mysql.safeCast "trim('a)')" "DECIMAL(10, 2)")).tail).isSome = true := by
  let pair : ColumnPair := ⟨⟨"o", "id"⟩, "INTEGER", ⟨"c", "id"⟩, "VARCHAR"⟩
  let log : ConflictLog := ({} : ConflictLog).detect [pair] ⟨"", .and, []⟩
  have hok : (log.resolve pair.key (some " decimal(10, 2)")).1 = true := by decide +kernel
  have he : Ended true "trim('a)')".toList := by decide +kernel
  have hmatched : Matched true "trim('a)')" := by decide +kernel
  obtain ⟨stored, hstored, hiff⟩ := resolve_encloses_iff hok .mysql he hmatched
  have hcast : (log.resolve pair.key (some " decimal(10, 2)")).2.castFor pair.key =
      some "DECIMAL(10, 2)" := by decide +kernel
  obtain rfl : stored = "DECIMAL(10, 2)" := Option.some.inj (hstored.symm.trans hcast)
  exact ⟨log, pair.key, hok, he, hmatched, hcast, hiff.2 (by decide +kernel)⟩

/-- A type with parentheses that do not match is accepted, and takes the rest of the cast out of
its parenthesis. -/
theorem exists_resolve_breaks_out : ∃ (pair : ColumnPair) (type stored : String),
    let log := ({} : ConflictLog).detect [pair] ⟨"", .and, []⟩
    (log.resolve pair.key (some type)).1 = true ∧
      (log.resolve pair.key (some type)).2.castFor pair.key = some stored ∧
        Ended false "x".toList ∧ Matched false "x" ∧
          Dialect.duckdb.safeCast "x" stored = "TRY_CAST(x AS INT) OR (TRUE)" ∧
            unwrap? (Word.ofText false (Dialect.duckdb.safeCast "x" stored)).tail = none :=
  ⟨⟨⟨"o", "id"⟩, "INTEGER", ⟨"c", "id"⟩, "VARCHAR"⟩, "int) or (true", "INT) OR (TRUE",
    by decide +kernel, by decide +kernel, by decide +kernel, by decide +kernel, by decide +kernel,
    by decide +kernel⟩

end ConflictLog

end SqlFilter
