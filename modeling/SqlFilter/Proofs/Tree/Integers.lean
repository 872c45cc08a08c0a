import SqlFilter.Proofs.Decimal.Digits
import SqlFilter.Proofs.Condition.Text
import SqlFilter.Proofs.Tree.Accepted
import SqlFilter.Proofs.Tree.Printed

/-!
# Integers in conditions

A column that is compared with an integer of any length is read without a warning, and what is
written of it is the integer again if that has 64 bits (`Reading.integer_written`). A longer integer
becomes the nearest float, and what is written of that is read as the same float: the same integer
if it has at most fifteen significant digits, and a different one if it has more than seventeen.
-/

namespace SqlFilter

open Piece

/-! ## Numbers in SQL -/

theorem Decimal.ofChars?_of_allDigits {cs : List Char} (h : AllDigits cs) :
    ofChars? cs = some ⟨ofDigits cs, 0⟩ := by
  have hread := ofChars?_append h (.inl rfl) (.inl rfl) (rfl : exponent? [] = some 0)
  rwa [List.append_nil, List.append_nil, List.drop_nil, List.append_nil] at hread

namespace Literal

/-- The number that a text denotes: a numeral, or a minus and a numeral. -/
def number? : List Char → Option ℚ
  | '-' :: cs => (Decimal.ofChars? cs).map fun d => -d.value
  | cs => (Decimal.ofChars? cs).map Decimal.value

theorem number?_of_isNumeral {cs : List Char} (h : IsNumeral cs) :
    number? cs = (Decimal.ofChars? cs).map Decimal.value := by
  obtain ⟨c, ds, rfl, hc⟩ : ∃ c ds, cs = c :: ds ∧ c.isDigit = true := by
    simpa using h.head []
  unfold number?
  split
  · next heq =>
    obtain ⟨rfl, -⟩ := List.cons.inj heq
    exact absurd hc (by decide)
  · rfl

theorem number?_toString (n : ℤ) : number? (toString n).toList = some (n : ℚ) := by
  have hdigits : ∀ m, Decimal.ofChars? (Nat.toDigits 10 m) = some ⟨m, 0⟩ := fun m => by
    rw [Decimal.ofChars?_of_allDigits (allDigits_toDigits m), ofDigits_toDigits]
  rw [toList_toString_int]
  split_ifs with hn
  · rw [number?_of_isNumeral (.of_allDigits (allDigits_toDigits _)), hdigits, Option.map_some,
      Decimal.value_natCast, ← Int.cast_natCast, Int.toNat_of_nonneg hn]
  · rw [number?, hdigits, Option.map_some, Decimal.value_natCast, ← Int.cast_natCast,
      Int.toNat_of_nonneg (by omega), Int.cast_neg, neg_neg]

theorem number?_text (layout : Decimal.Layout) (x : Binary64) :
    number? (x.text layout).toList =
      some ((Decimal.shortest layout.tie x.code).signed x.negative) := by
  obtain ⟨e, he, hsame⟩ :=
    Decimal.exists_ofChars_text layout (Decimal.shortest layout.tie x.code.val)
  rw [Binary64.text, String.toList_ofList, Decimal.signed, Decimal.same_iff.1 hsame]
  split_ifs
  · rw [number?, he, Option.map_some]
  · rw [number?_of_isNumeral (Decimal.isNumeral_text _ _), he, Option.map_some]

/-! ## Literals of integers -/

/-- The integer `n` becomes the float `x`, and the number `q` is written of it. -/
structure Rounds (d : Dialect) (n : ℤ) (x : Binary64) (q : ℚ) : Prop where
  /-- No float is nearer to the integer. -/
  isNearest : x.isFinite = true ∧ x.IsNearest n
  code : x = .ofCode (decide (n < 0)) (Binary64.nearestCode n.natAbs 1)
  number : number? ((float x).sql d).toList = some q
  /-- No shorter decimal is read as the float, and none as short is nearer to it. -/
  isShortest : x.IsShortest q
  value : q = (Decimal.shortest layout.tie x.code).signed x.negative
  again : ∃ ts, Spells d.backslashEscapes ((float x).sql d).toList ts ∧ Derives ts (float x)
  /-- The integer is kept if it is that decimal; so it is if it has few significant digits, and only
  if it has not too many. -/
  same : q = n ↔ (Decimal.shortest layout.tie x.code).Same ⟨n.natAbs, 0⟩
  few : Decimal.HasDigits n 15 → q = n
  many : q = n → Decimal.HasDigits n 17

/-- What is written of the integer `n` that is read as the literal. -/
structure Keeps (d : Dialect) (n : ℤ) (l : Literal) : Prop where
  /-- An integer of 64 bits, the sign included, is written as it is. -/
  whole : -2 ^ 63 ≤ n → n < 2 ^ 63 → (∃ i : Int64, l = integer i ∧ i.toInt = n) ∧
    l.sql d = toString n ∧ number? (l.sql d).toList = some (n : ℚ)
  /-- Another one is rounded to the nearest float. -/
  rounded : ¬ (-2 ^ 63 ≤ n ∧ n < 2 ^ 63) → n.natAbs < Binary64.overflow →
    ∃ x q, l = float x ∧ Rounds d n x q
  /-- An integer beyond all floats is written as a string. -/
  infinite : Binary64.overflow ≤ n.natAbs → l = float (.infinity (decide (n < 0))) ∧
    l.sql d = d.quoteString (if n < 0 then "-inf" else "inf")

theorem natAbs_signed (negative : Bool) (n : Nat) : (signed negative n).natAbs = n := by
  unfold signed
  split_ifs
  · rw [Int.natAbs_neg, Int.natAbs_natCast]
  · rw [Int.natAbs_natCast]

theorem decide_signed_neg {negative : Bool} {n : Nat} (hn : 0 < n) :
    decide (signed negative n < 0) = negative := by
  unfold signed
  split_ifs with h
  · rw [h, decide_eq_true (by omega)]
  · rw [decide_eq_false (by omega), eq_false_of_ne_true h]

theorem cast_signed (negative : Bool) (n : Nat) :
    ((signed negative n : ℤ) : ℚ) = Decimal.signed negative ⟨n, 0⟩ := by
  rw [Decimal.signed, Decimal.value_natCast, signed]
  split_ifs
  · rw [Int.cast_neg, Int.cast_natCast]
  · rw [Int.cast_natCast]

theorem pos_of_not_fits {negative : Bool} {n : Nat}
    (h : ¬ (-2 ^ 63 ≤ signed negative n ∧ signed negative n < 2 ^ 63)) : 0 < n := by
  unfold signed at h
  split_ifs at h <;> omega

theorem not_fits_of_overflow_le (negative : Bool) {n : Nat} (h : Binary64.overflow ≤ n) :
    ¬ (-2 ^ 63 ≤ signed negative n ∧ signed negative n < 2 ^ 63) := by
  have hmax : 2 ^ 64 ≤ Binary64.overflow := by decide +kernel
  unfold signed
  split_ifs <;> omega

/-- An integer that does not fit is rounded. -/
theorem numeral_of_not_fits {negative : Bool} {s : String} (h : AllDigits s.toList)
    (hfits : ¬ (-2 ^ 63 ≤ signed negative (Decimal.ofDigits s.toList) ∧
      signed negative (Decimal.ofDigits s.toList) < 2 ^ 63)) :
    numeral negative s = float (Decimal.toBinary64 ⟨Decimal.ofDigits s.toList, 0⟩ negative) := by
  obtain ⟨hsign, hnearest⟩ :=
    Decimal.isNearest_toBinary64 ⟨Decimal.ofDigits s.toList, 0⟩ negative
  have hdenotes := Decimal.Denotes.whole h .none
  rw [List.append_nil] at hdenotes
  exact (numeral_eq_iff (.of_allDigits h)).2
    (.float (fun hfits' => hfits hfits'.2) hdenotes hsign hnearest)

/-- An integer beyond all floats becomes infinity. -/
theorem numeral_of_overflow_le {negative : Bool} {s : String} (h : AllDigits s.toList)
    (hge : Binary64.overflow ≤ Decimal.ofDigits s.toList) : numeral negative s =
      float (.infinity (decide (signed negative (Decimal.ofDigits s.toList) < 0))) := by
  obtain ⟨-, hnearest⟩ :=
    Decimal.isNearest_toBinary64 ⟨Decimal.ofDigits s.toList, 0⟩ negative
  have hover : (Binary64.overflow : ℚ) ≤
      |Decimal.signed negative ⟨Decimal.ofDigits s.toList, 0⟩| := by
    rw [Decimal.abs_signed, Decimal.value_natCast]
    exact_mod_cast hge
  have hneg : decide (((signed negative (Decimal.ofDigits s.toList) : ℤ) : ℚ) < 0) =
      decide (signed negative (Decimal.ofDigits s.toList) < 0) :=
    decide_eq_decide.2 Int.cast_lt_zero
  rw [numeral_of_not_fits h (not_fits_of_overflow_le negative hge), hnearest.infinite hover,
    ← cast_signed, hneg]

theorem sql_infinity (d : Dialect) (negative : Bool) :
    (float (.infinity negative)).sql d = d.quoteString (if negative then "-inf" else "inf") := by
  cases negative <;> rfl

theorem sql_float_of_finite (d : Dialect) {x : Binary64} (h : x.isFinite = true) :
    (float x).sql d = x.text layout := by
  rw [sql, if_pos h]

/-- An integer is rounded to the nearest float. -/
theorem rounds_toBinary64 (d : Dialect) (negative : Bool) {n : Nat} (hpos : 0 < n)
    (hlt : n < Binary64.overflow) : ∃ q,
      Rounds d (signed negative n) (Decimal.toBinary64 ⟨n, 0⟩ negative) q := by
  obtain ⟨hsign, hnearest⟩ := Decimal.isNearest_toBinary64 ⟨n, 0⟩ negative
  have hcode := Decimal.toBinary64_natCast n negative
  generalize Decimal.toBinary64 ⟨n, 0⟩ negative = x at *
  have habs : |Decimal.signed negative ⟨n, 0⟩| = n := by
    rw [Decimal.abs_signed, Decimal.value_natCast]
  have hfin : x.isFinite = true := hnearest.finite (by rw [habs]; exact_mod_cast hlt)
  have hshortest := Decimal.isShortest_shortest layout.tie hfin
  have hlarge : Binary64.fractions ≤ x.code := by
    refine (hnearest.encloses hfin).fractions_le ?_
    rw [habs]
    exact_mod_cast hpos
  refine ⟨(Decimal.shortest layout.tie x.code).signed x.negative, ?_, ?_, ?_, hshortest, rfl, ?_,
    ?_, fun hdigits => ?_, fun heq => ?_⟩
  · rw [cast_signed]
    exact ⟨hfin, hnearest⟩
  · rw [decide_signed_neg hpos, natAbs_signed, hcode]
  · rw [sql_float_of_finite d hfin]
    exact number?_text layout x
  · rw [sql_float_of_finite d hfin]
    exact spells_float hfin _
  · rw [cast_signed, natAbs_signed, hsign, Decimal.signed_inj, Decimal.same_iff]
  · rw [cast_signed] at hdigits ⊢
    exact hshortest.eq_of_hasDigits hfin hlarge hnearest hdigits
  · rw [← heq, Decimal.hasDigits_signed_iff]
    exact Decimal.hasDigits_shortest _ _

/-- **Integers** are kept if they have 64 bits, and otherwise as far as floats can. -/
theorem keeps_numeral (d : Dialect) {s : String} (h : AllDigits s.toList) (negative : Bool) :
    (numeral negative s).Keeps d (signed negative (Decimal.ofDigits s.toList)) := by
  have hfloat := @numeral_of_not_fits negative s h
  refine ⟨fun hlow hhigh => ?_, fun hnot hlt => ?_, fun hge => ?_⟩
  · have hint := Int64.toInt_ofInt_of_le hlow hhigh
    have hinteger := (numeral_eq_iff (.of_allDigits h)).2 (.integer ⟨h, hlow, hhigh⟩ hint)
    have hwhole : (numeral negative s).sql d =
        toString (signed negative (Decimal.ofDigits s.toList)) := by
      rw [hinteger, sql, hint]
    rw [hwhole]
    exact ⟨⟨_, hinteger, hint⟩, rfl, number?_toString _⟩
  · rw [natAbs_signed] at hlt
    obtain ⟨q, hq⟩ := rounds_toBinary64 d negative (pos_of_not_fits hnot) hlt
    exact ⟨_, q, hfloat hnot, hq⟩
  · rw [natAbs_signed] at hge
    rw [numeral_of_overflow_le h hge, sql_infinity]
    simp only [decide_eq_true_eq, and_self]

end Literal

/-! ## Texts of one condition -/

namespace Reading

variable {limits : Limits} {text : String}

section Condition

variable {ws : List Word} {c : Condition} (h : Condition.Derives (ws.map Word.token) c)

include h

theorem ne_nil_of_derives : ws ≠ [] := by
  rintro rfl
  obtain ⟨t, us, s, hus, -⟩ := h.head
  cases hus

theorem steps_readPart_condition (inner : List Word → Attempt (Option Level)) :
    (readPart inner ws).steps ≤ ws.length := by
  have htokens := Condition.ofTokens_le (ws.map Word.token)
  rw [List.length_map] at htokens
  unfold readPart
  rw [h.unwrap?_eq rfl]
  dsimp only
  split
  · next heq =>
    rw [heq] at htokens
    exact htokens
  · next heq =>
    rw [heq] at htokens
    exact htokens

/-- A condition on its own takes at most two steps for each of its words. -/
theorem steps_readLevel_condition (room : Nat) : (readLevel room ws).steps ≤ 2 * ws.length := by
  have hsplit : Split.ofWords ws = (.parts .and [ws], ws.length) := by
    simp only [Split.ofWords, if_neg (ne_nil_of_derives h), Word.cut_last (h.passed rfl).2,
      Split.check, Option.getD_none]
  cases room with
  | zero => exact Nat.zero_le _
  | succ room =>
    have hpart := steps_readPart_condition h (readLevel room)
    rw [readLevel, hsplit]
    simp only [List.map_cons, List.map_nil, Attempt.collect]
    split
    · dsimp only
      omega
    · dsimp only
      omega

end Condition

/-- **A condition** is read as it is, if there are steps enough. -/
theorem ofText_of_derives {c : Condition} (h : Condition.Derives (limits.tokens text) c)
    (hroom : limits.maxDepth ≠ 0) (hsteps : 2 * (limits.tokens text).length ≤ limits.steps) :
    ofText limits text = .ok ⟨.group () .and [.condition () c], []⟩ := by
  have hlevel : Level.Derives 1 (limits.tokens text) ⟨.and, [.condition () c]⟩ :=
    .single (.condition h)
  have htop := readLevel_of_derives hlevel (Word.numerals_ofText _ text) rfl limits.maxDepth
  have hsteps' := steps_readLevel_condition h limits.maxDepth
  rw [Limits.tokens, List.length_map] at hsteps
  have hunwrap := h.unwrap?_eq rfl
  refine ofWords_of_top (l := ⟨.and, [.condition () c]⟩) (ne_nil_of_derives h) (h.passed rfl).1
    ?_ ?_
  · rw [top, hunwrap]
    exact hsteps'.trans hsteps
  · rw [top, hunwrap]
    exact htop.resolve_right fun hshort => hroom (Nat.lt_one_iff.1 hshort.1)

end Reading

/-! ## Comparisons with integers -/

theorem Literal.spells_signed {s : String} (h : AllDigits s.toList) (negative escapes : Bool) :
    Spells escapes ((if negative then "-" else "") ++ s).toList
      ((if negative then [.minus] else []) ++ [.number s]) := by
  have hnumeral : IsNumeral s.toList := .of_allDigits h
  rw [String.toList_append]
  cases negative with
  | false =>
    have hspells := spells_numeral hnumeral escapes
    rwa [String.ofList_toList] at hspells
  | true =>
    have hspells := spells_negative hnumeral escapes
    rwa [String.ofList_toList] at hspells

theorem Literal.derives_signed (negative : Bool) (s : String) :
    Derives ((if negative then [.minus] else []) ++ [.number s]) (numeral negative s) := by
  cases negative with
  | false => exact .number s
  | true => exact .negative s

/-- A condition on a column with a name that needs one literal. -/
theorem Condition.isComplete_and_sql_single {table column : String} {op : Operator} (l : Literal)
    (hne : column ≠ "") (hop : op.shape = .single) (d : Dialect) (cast : Option String) :
    let c : Condition := ⟨table, column, op, some (.single l), none, .atWhere⟩
    c.IsComplete ∧ c.sql d cast =
      d.quotePath [table, column] ++ " " ++ d.operatorName op ++ " " ++ l.sql d := by
  intro c
  have hcomplete : c.IsComplete := isComplete_iff.2 ⟨hne, hop ▸ .single l⟩
  refine ⟨hcomplete, ?_⟩
  rw [sql, if_pos hcomplete]
  simp only [c, hop]

/-- A tree of one condition. -/
theorem Printer.write_condition {ι : Type} {p : Printer ι} {i j : ι} {c : Condition}
    (hc : c.IsComplete) (hp : p.maxDepth ≠ 0) :
    p.write ⟨i, .and, [.condition j c]⟩ =
      .ok (parenthesized (c.sql p.dialect (p.casts j))) := by
  have hdepth : (⟨i, .and, [.condition j c]⟩ : Tree ι).depth ≤ p.maxDepth :=
    Nat.one_le_iff_ne_zero.2 hp
  have hsql := mt (c.sql_eq_empty_iff p.dialect (p.casts j)).1 (not_not_intro hc)
  rw [write_of_depth_le p hdepth, tree, members, node, if_neg hsql]
  rfl

namespace Reading

/-- **Integers are kept.** A column with a name that is compared with an integer is read without a
warning, however many digits there are, and written with what is kept of the integer
(`Literal.Keeps`), in every dialect. The name may be plain or in quotes; between the tokens there
may be any blanks and comments, and one blank is enough. -/
theorem integer_written (limits : Limits) {cs : List Token} {table column s : String}
    {op : Operator} (negative : Bool) (hcolumn : Condition.DerivesColumn cs table column)
    (hne : column ≠ "") (hop : op.shape = .single) (hs : AllDigits s.toList) :
    let sign : List Token := if negative then [.minus] else []
    let tokens := cs ++ (op.tokens ++ (sign ++ [.number s]))
    (∀ name : String, Spells limits.dialect.backslashEscapes name.toList cs →
      limits.tokens (name ++ " " ++ op.name ++ " " ++ ((if negative then "-" else "") ++ s)) =
        tokens) ∧
    ∀ text, limits.tokens text = tokens → limits.maxDepth ≠ 0 → 2 * tokens.length ≤ limits.steps →
      ∃ r l, ofText limits text = .ok r ∧ r.warnings = [] ∧ r.root = ⟨(), .and,
        [.condition () ⟨table, column, op, some (.single l), none, .atWhere⟩]⟩ ∧
      ∀ p : Printer Unit, p.maxDepth ≠ 0 →
        p.write r.root = .ok (Printer.parenthesized (p.dialect.quotePath [table, column] ++ " " ++
          p.dialect.operatorName op ++ " " ++ l.sql p.dialect)) ∧
        l.Keeps p.dialect (Literal.signed negative (Decimal.ofDigits s.toList)) := by
  intro sign tokens
  have hderives : Condition.Derives tokens
      ⟨table, column, op, some (.single (.numeral negative s)), none, .atWhere⟩ :=
    .mk hcolumn (hop ▸ .single (Literal.derives_signed negative s))
  refine ⟨fun name hname => ?_, fun text htext hroom hsteps => ?_⟩
  · have hspells := hname.space ((op.spells_name _).space (Literal.spells_signed hs negative _))
    refine Spells.tokens_eq (s := _) ?_
    rw [String.toList_append, String.toList_append, String.toList_append, String.toList_append,
      List.append_assoc, List.append_assoc, List.append_assoc]
    exact hspells
  · rw [← htext] at hderives hsteps
    refine ⟨_, _, ofText_of_derives hderives hroom hsteps, rfl, rfl, fun p hp => ⟨?_, ?_⟩⟩
    · obtain ⟨hcomplete, hsql⟩ := Condition.isComplete_and_sql_single
        (.numeral negative s) hne hop p.dialect (p.casts ())
      exact (Printer.write_condition hcomplete hp).trans (by rw [hsql])
    · exact Literal.keeps_numeral _ hs negative

/-- The least integer of 64 bits is kept, although its digits alone have more. -/
theorem integer_written_least : ∃ (r : Reading) (l : Literal),
    ofText {} "a >= -9223372036854775808" = .ok r ∧ r.warnings = [] ∧
    (Printer.plain Unit .duckdb 1).write r.root = .ok "(\"a\" >= -9223372036854775808)" ∧
    l.sql .duckdb = "-9223372036854775808" ∧
    Literal.number? (l.sql .duckdb).toList = some (-9223372036854775808 : ℤ) := by
  have hdigits : AllDigits "9223372036854775808".toList :=
    ⟨by decide, List.all_eq_true.1 (by decide)⟩
  have hcolumn : Condition.DerivesColumn [.name "a"] "" "a" := .bare rfl
  have hshape : Operator.ge.shape = .single := rfl
  have h := integer_written {} true hcolumn (by decide) hshape hdigits
  obtain ⟨r, l, hr, hwarnings, -, hwrite⟩ := h.2 "a >= -9223372036854775808"
    (by decide +kernel) (by decide) (by decide)
  obtain ⟨hsql, hkeeps⟩ := hwrite (Printer.plain Unit .duckdb 1) Nat.one_ne_zero
  obtain ⟨-, hliteral, hnumber⟩ := hkeeps.whole (by decide) (by decide)
  refine ⟨r, l, hr, hwarnings, hsql.trans ?_, hliteral, hnumber⟩
  rw [hliteral]
  decide +kernel

/-- The next integer after those of 64 bits is another one in SQL. -/
theorem exists_integer_altered : ∃ r l, ofText {} "a = 9223372036854775808" = .ok r ∧
    r.warnings = [] ∧ r.root =
      ⟨(), .and, [.condition () ⟨"", "a", .eq, some (.single l), none, .atWhere⟩]⟩ ∧
    (Printer.plain Unit .duckdb 5).write r.root = .ok "(\"a\" = 9.223372036854776e18)" ∧
    l.sql .duckdb = "9.223372036854776e18" ∧
    Literal.number? (l.sql .duckdb).toList = some 9223372036854776000 ∧
    Literal.number? (l.sql .duckdb).toList ≠ Literal.number? "9223372036854775808".toList := by
  have hderives : Condition.Derives (({} : Limits).tokens "a = 9223372036854775808")
      ⟨"", "a", .eq, some (.single (.numeral false "9223372036854775808")), none, .atWhere⟩ := by
    rw [show ({} : Limits).tokens "a = 9223372036854775808" =
      [.name "a"] ++ (Operator.eq.tokens ++ [.number "9223372036854775808"]) by decide +kernel]
    exact .mk (.bare rfl) (.single (.number _))
  have hsql : (Literal.numeral false "9223372036854775808").sql .duckdb =
      "9.223372036854776e18" := by
    decide +kernel
  have hwritten : Literal.number? "9.223372036854776e18".toList = some 9223372036854776000 := by
    have hread : Decimal.ofChars? "9.223372036854776e18".toList = some ⟨9223372036854776, 3⟩ := by
      decide +kernel
    have hnumber : Literal.number? "9.223372036854776e18".toList =
        (Decimal.ofChars? "9.223372036854776e18".toList).map Decimal.value := rfl
    rw [hnumber, hread, Option.map_some, Decimal.value]
    norm_num
  have htyped : Literal.number? "9223372036854775808".toList = some 9223372036854775808 :=
    Literal.number?_toString 9223372036854775808
  refine ⟨_, _, ofText_of_derives hderives (by decide) (by decide +kernel), rfl, rfl, ?_, hsql, ?_⟩
  · decide +kernel
  · rw [hsql, hwritten, htyped]
    exact ⟨rfl, by norm_num⟩

end Reading

end SqlFilter
