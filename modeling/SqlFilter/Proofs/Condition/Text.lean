import SqlFilter.Condition.Printer
import SqlFilter.Proofs.Condition.Grammar
import SqlFilter.Proofs.Decimal.RoundTrip
import SqlFilter.Proofs.Token.Quoted

/-!
# The text of conditions

A complete condition is written as text that spells a condition of the grammar. What that denotes is
the condition in its canonical form (`Condition.spells_sql`), which is written as the same text
(`Condition.sql_canonical`).
-/

namespace SqlFilter

open Piece

/-- A token that is the same in every dialect. -/
theorem Piece.spells_token {t : Token} {c : Char} {cs : List Char}
    (h : Text.isBlank c = false ∧ t ≠ .comment ∧ Token.isOpen t c = false ∧
      ∀ escapes, Token.scan escapes c cs = (t, cs.length)) (escapes : Bool) :
    Spells escapes (c :: cs) [t] :=
  .of_scan h.1 h.2.1 h.2.2.1 (h.2.2.2 escapes)

/-! ## Literals -/

namespace Literal

/-- The literal that is read back: what is not finite is a string. -/
def canonical : Literal → Literal
  | float x => if x.isFinite then float x else string x.specialName
  | l => l

theorem sql_canonical (d : Dialect) (l : Literal) : l.canonical.sql d = l.sql d := by
  cases l with
  | float x =>
    simp only [canonical]
    split_ifs with h
    · rfl
    · simp only [sql, h, Bool.false_eq_true, if_false]
  | _ => rfl

theorem spells_numeral {cs : List Char} (h : IsNumeral cs) (escapes : Bool) :
    Spells escapes cs [.number (String.ofList cs)] :=
  .of_closed (fun hn => nomatch hn) (Token.closed_of_isNumeral h escapes)

/-- A sign is a token of its own. -/
theorem spells_negative {cs : List Char} (h : IsNumeral cs) (escapes : Bool) :
    Spells escapes ('-' :: cs) [.minus, .number (String.ofList cs)] := by
  have hplain := (Word.plain_singleton (by decide : Token.minus ≠ .comment) ['-']).append
    (@Word.plain_singleton (.number (String.ofList cs)) (fun hn => nomatch hn) cs)
  refine ⟨_, ⟨List.cons_ne_nil _ _, rfl, hplain, fun rest hr => ?_⟩, rfl⟩
  obtain ⟨c, ds, hcs, hc⟩ := h.head rest
  have hscan : Token.scan escapes '-' (cs ++ rest) = (.minus, 0) := by
    have hne : (cs ++ rest).head? ≠ some '-' := by
      rw [hcs]
      exact fun heq => Token.ne_of_isDigit hc rfl (Option.some.inj heq)
    exact if_neg hne
  have hminus := @ofText_cons_of_scan escapes '-' [] (cs ++ rest) .minus (by decide) hscan
  rw [List.nil_append] at hminus
  rw [List.cons_append, hminus, Token.closed_of_isNumeral h escapes rest hr]
  rfl

theorem spells_quoteString (d : Dialect) (s : String) :
    Spells d.backslashEscapes (d.quoteString s).toList [.string s] := by
  refine .of_closed (fun hn => nomatch hn) fun rest hr => ?_
  exact d.ofText_quoteString s fun h => absurd (hr _ h) (by decide)

theorem spells_integer (n : Int64) (escapes : Bool) :
    ∃ ts, Spells escapes (toString n.toInt).toList ts ∧ Derives ts (integer n) := by
  have hread : ∀ m negative,
      (if negative then -(m : Int) else m) = n.toInt →
        integer n = numeral negative (String.ofList (Nat.toDigits 10 m)) := by
    intro m negative hm
    refine eq_numeral (ofNumeral_of_allDigits ?_ ?_)
    · rw [String.toList_ofList]
      exact allDigits_toDigits m
    · rwa [String.toList_ofList, ofDigits_toDigits]
  rw [toList_toString_int]
  split_ifs with hn
  · refine ⟨_, spells_numeral (.of_allDigits (allDigits_toDigits _)) escapes, ?_⟩
    rw [hread n.toInt.toNat false (Int.toNat_of_nonneg hn)]
    exact .number _
  · refine ⟨_, spells_negative (.of_allDigits (allDigits_toDigits _)) escapes, ?_⟩
    rw [hread (-n.toInt).toNat true (by rw [Int.toNat_of_nonneg (by omega)]; exact Int.neg_neg _)]
    exact .negative _

theorem spells_float {x : Binary64} (hx : x.isFinite = true) (escapes : Bool) :
    ∃ ts, Spells escapes (x.text layout).toList ts ∧ Derives ts (float x) := by
  have hnum := Decimal.isNumeral_text layout (Decimal.shortest layout.tie x.code.val)
  have hread : float x = numeral x.negative
      (String.ofList (layout.text (Decimal.shortest layout.tie x.code.val))) := by
    refine eq_numeral ?_
    obtain ⟨c, hc, hcd⟩ :=
      Decimal.exists_not_isDigit layout (Decimal.shortest layout.tie x.code.val)
    have hall : ¬ (layout.text (Decimal.shortest layout.tie x.code.val)).all Char.isDigit = true :=
      fun h => Bool.false_ne_true (hcd.symm.trans (List.all_eq_true.1 h c hc))
    obtain ⟨v, hv, hvx⟩ := Option.map_eq_some_iff.1 (Binary64.read_text layout hx)
    simp only [ofNumeral, String.toList_ofList]
    rw [if_neg fun h => hall h.2.1, hv, Option.map_some, hvx]
  rw [Binary64.text, String.toList_ofList]
  split_ifs with hneg
  · refine ⟨_, spells_negative hnum escapes, ?_⟩
    rw [hread, hneg]
    exact .negative _
  · refine ⟨_, spells_numeral hnum escapes, ?_⟩
    rw [hread, (Bool.not_eq_true _).mp hneg]
    exact .number _

theorem spells_sql (d : Dialect) (l : Literal) :
    ∃ ts, Spells d.backslashEscapes (l.sql d).toList ts ∧ Derives ts l.canonical := by
  cases l with
  | boolean b =>
    have hfalse : Spells d.backslashEscapes "FALSE".toList [.keyword .false] :=
      @spells_token _ 'F' ['A', 'L', 'S', 'E'] (by decide +kernel) _
    have htrue : Spells d.backslashEscapes "TRUE".toList [.keyword .true] :=
      @spells_token _ 'T' ['R', 'U', 'E'] (by decide +kernel) _
    cases b
    · exact ⟨_, hfalse, .false⟩
    · exact ⟨_, htrue, .true⟩
  | integer n => exact spells_integer n d.backslashEscapes
  | float x =>
    rw [sql, canonical]
    split_ifs with hx
    · exact spells_float hx d.backslashEscapes
    · exact ⟨_, spells_quoteString d _, .string _⟩
  | string s => exact ⟨_, spells_quoteString d s, .string s⟩

theorem spells_items (d : Dialect) {ls : List Literal} (hne : ls ≠ []) : ∃ ts,
    Spells d.backslashEscapes (String.intercalate ", " (ls.map (sql d))).toList ts ∧
      DerivesItems ts (ls.map canonical) := by
  induction ls with
  | nil => exact absurd rfl hne
  | cons l ls ih =>
    obtain ⟨ts, hts, hd⟩ := spells_sql d l
    cases ls with
    | nil => exact ⟨ts, by rwa [List.map_singleton, String.intercalate_singleton], .last hd⟩
    | cons m ms =>
      obtain ⟨us, hus, hds⟩ := ih (List.cons_ne_nil m ms)
      refine ⟨ts ++ .comma :: us, ?_, .more hd hds⟩
      rw [List.map_cons, List.map_cons, String.intercalate_cons_cons, String.toList_append,
        String.toList_append, List.append_assoc, ← List.map_cons]
      exact hts.comma hus

end Literal

/-! ## Columns and operators -/

namespace Dialect

theorem spells_quoteName (d : Dialect) (s : String) :
    Spells d.backslashEscapes (d.quoteName s).toList [.quotedName s] := by
  refine .of_closed (fun hn => nomatch hn) fun rest hr => ?_
  refine d.ofText_quoteName _ s fun h => absurd (hr _ h) ?_
  cases d <;> decide

/-- Two names with a point in between. -/
theorem spells_qualified (d : Dialect) (table column : String) :
    Spells d.backslashEscapes ((d.quoteName table).toList ++ '.' :: (d.quoteName column).toList)
      [.quotedName table, .dot, .quotedName column] := by
  have hplain := (@Word.plain_singleton (.quotedName table) (fun hn => nomatch hn)
    (d.quoteName table).toList).append
    ((Word.plain_singleton (by decide : Token.dot ≠ .comment) ['.']).append
      (@Word.plain_singleton (.quotedName column) (fun hn => nomatch hn)
        (d.quoteName column).toList))
  refine ⟨_, ⟨List.cons_ne_nil _ _, rfl, hplain, fun rest hr => ?_⟩, rfl⟩
  have hmark : d.nameMark ≠ '.' := by cases d <;> decide
  have hdot : (('.' :: (d.quoteName column).toList) ++ rest).head? ≠ some d.nameMark :=
    fun h => hmark (Option.some.inj h).symm
  have hrest : rest.head? ≠ some d.nameMark := fun h => absurd (hr _ h) (by cases d <;> decide)
  rw [List.append_assoc, d.ofText_quoteName _ table hdot, List.cons_append,
    ofText_cons_of_single (by decide) (fun _ => rfl), d.ofText_quoteName _ column hrest]
  rfl

theorem spells_quotePath (d : Dialect) (table column : String) (hc : column ≠ "") : ∃ ts,
    Spells d.backslashEscapes (d.quotePath [table, column]).toList ts ∧
      Condition.DerivesColumn ts table column := by
  by_cases ht : table = ""
  · refine ⟨[.quotedName column], ?_, ht ▸ .bare rfl⟩
    simp only [quotePath, ht, hc, List.filter_cons, ne_eq, not_true_eq_false, decide_false,
      Bool.false_eq_true, if_false, not_false_eq_true, decide_true, if_true, List.filter_nil,
      List.map_cons, List.map_nil, String.intercalate_singleton]
    exact d.spells_quoteName column
  · refine ⟨[.quotedName table, .dot, .quotedName column], ?_, .qualified rfl rfl⟩
    simp only [quotePath, ht, hc, List.filter_cons, ne_eq, not_false_eq_true, decide_true, if_true,
      List.filter_nil, List.map_cons, List.map_nil, String.intercalate_cons_cons,
      String.intercalate_singleton, String.toList_append, List.append_assoc]
    exact d.spells_qualified table column

/-- The operator that is read back: `ILIKE` is written as `LIKE` where there is none. -/
def canonicalOperator (d : Dialect) (op : Operator) : Operator :=
  if op = .ilike ∧ d.supportsIlike = false then .like else op

theorem name_canonicalOperator (d : Dialect) (op : Operator) :
    (d.canonicalOperator op).name = d.operatorName op := by
  unfold canonicalOperator operatorName
  split_ifs <;> rfl

theorem shape_canonicalOperator (d : Dialect) (op : Operator) :
    (d.canonicalOperator op).shape = op.shape := by
  unfold canonicalOperator
  split_ifs with h
  · rw [h.1]
    rfl
  · rfl

end Dialect

theorem Operator.spells_name (op : Operator) (escapes : Bool) :
    Spells escapes op.name.toList op.tokens := by
  have hnot := @spells_token (.keyword .not) 'N' ['O', 'T'] (by decide +kernel) escapes
  have hin := @spells_token (.keyword .within) 'I' ['N'] (by decide +kernel) escapes
  have his := @spells_token (.keyword .is) 'I' ['S'] (by decide +kernel) escapes
  have hnull := @spells_token (.keyword .null) 'N' ['U', 'L', 'L'] (by decide +kernel) escapes
  cases op with
  | eq => exact @spells_token .eq '=' [] (by decide +kernel) escapes
  | ne => exact @spells_token .ne '!' ['='] (by decide +kernel) escapes
  | gt => exact @spells_token .gt '>' [] (by decide +kernel) escapes
  | lt => exact @spells_token .lt '<' [] (by decide +kernel) escapes
  | ge => exact @spells_token .ge '>' ['='] (by decide +kernel) escapes
  | le => exact @spells_token .le '<' ['='] (by decide +kernel) escapes
  | like =>
    exact @spells_token (.keyword .like) 'L' ['I', 'K', 'E'] (by decide +kernel) escapes
  | ilike =>
    exact @spells_token (.keyword .ilike) 'I' ['L', 'I', 'K', 'E'] (by decide +kernel) escapes
  | isIn => exact hin
  | notIn => exact hnot.space hin
  | isNull => exact his.space hnull
  | isNotNull => exact his.space (hnot.space hnull)
  | between =>
    exact @spells_token (.keyword .between) 'B' ['E', 'T', 'W', 'E', 'E', 'N'] (by decide +kernel)
      escapes

/-! ## Conditions -/

namespace Condition

/-- The condition that is read back. -/
def canonical (d : Dialect) (c : Condition) : Condition :=
  { table := c.table
    column := c.column
    operator := d.canonicalOperator c.operator
    value := c.value.map fun
      | .list ls => .list (ls.map Literal.canonical)
      | .single l => .single l.canonical
    upper := c.upper.map Literal.canonical
    placement := .atWhere }

/-- The value and the upper bound are what an operator of this kind needs. -/
inductive Fits : Operator.Shape → Option Operand → Option Literal → Prop
  | nullCheck : Fits .nullCheck none none
  | list (l : Literal) (ls : List Literal) : Fits .list (some (.list (l :: ls))) none
  | bounds (low high : Literal) : Fits .bounds (some (.single low)) (some high)
  | single (l : Literal) : Fits .single (some (.single l)) none

theorem isComplete_iff {c : Condition} :
    c.IsComplete ↔ c.column ≠ "" ∧ Fits c.operator.shape c.value c.upper := by
  unfold IsComplete flaw?
  constructor
  · intro h
    split_ifs at h with hc
    refine ⟨hc, ?_⟩
    split at h
    · next hs hv hu => exact hs ▸ hv ▸ hu ▸ .nullCheck
    · cases h
    · cases h
    · next hs hv hu => exact hs ▸ hv ▸ hu ▸ .list _ _
    · cases h
    · next hs hv hu => exact hs ▸ hv ▸ hu ▸ .bounds _ _
    · cases h
    · next hs hv hu => exact hs ▸ hv ▸ hu ▸ .single _
    · cases h
  · rintro ⟨hc, h⟩
    rw [if_neg hc]
    generalize c.operator.shape = shape at h
    generalize c.value = value at h
    generalize c.upper = upper at h
    cases h <;> rfl

theorem isComplete_canonical (d : Dialect) {c : Condition} (h : c.IsComplete) :
    (c.canonical d).IsComplete := by
  obtain ⟨hc, hfits⟩ := isComplete_iff.1 h
  refine isComplete_iff.2 ⟨hc, ?_⟩
  rw [canonical, d.shape_canonicalOperator]
  generalize c.operator.shape = shape at hfits
  generalize c.value = value at hfits
  generalize c.upper = upper at hfits
  cases hfits
  · exact .nullCheck
  · exact .list _ _
  · exact .bounds _ _
  · exact .single _

theorem sql_canonical (d : Dialect) {c : Condition} (h : c.IsComplete) :
    (c.canonical d).sql d none = c.sql d none := by
  have hname : d.operatorName (d.canonicalOperator c.operator) = d.operatorName c.operator := by
    unfold Dialect.canonicalOperator Dialect.operatorName
    split_ifs <;> simp_all [Operator.name]
  have hsql : (Literal.sql d ∘ Literal.canonical) = Literal.sql d :=
    funext fun l => l.sql_canonical d
  rw [sql, if_pos (isComplete_canonical d h), sql, if_pos h]
  simp only [canonical, d.shape_canonicalOperator, hname]
  obtain ⟨-, hfits⟩ := isComplete_iff.1 h
  generalize c.operator.shape = shape at hfits
  generalize c.value = value at hfits
  generalize c.upper = upper at hfits
  cases hfits with
  | nullCheck => rfl
  | list l ls => simp only [Option.map_some, Option.map_none, List.map_map, hsql]
  | bounds low high => simp only [Option.map_some, boundSql, Literal.sql_canonical]
  | single l => simp only [Option.map_some, Option.map_none, Literal.sql_canonical]

/-- A complete condition without what its operator needs. -/
def head (d : Dialect) (c : Condition) : String :=
  d.quotePath [c.table, c.column] ++ " " ++ d.operatorName c.operator

/-- What is written behind the operator. -/
theorem exists_spells_operand (d : Dialect) {c : Condition} (h : c.IsComplete) :
    c.sql d none = c.head d ∧ DerivesOperand c.operator.shape [] (c.canonical d).value
        (c.canonical d).upper ∨
      ∃ s ts, c.sql d none = c.head d ++ " " ++ s ∧ Spells d.backslashEscapes s.toList ts ∧
        DerivesOperand c.operator.shape ts (c.canonical d).value (c.canonical d).upper := by
  obtain ⟨-, hfits⟩ := isComplete_iff.1 h
  rw [sql, if_pos h]
  obtain ⟨table, column, op, value, upper, placement⟩ := c
  simp only [canonical, head]
  dsimp only at hfits
  generalize op.shape = shape at hfits
  cases hfits with
  | nullCheck => exact .inl ⟨rfl, .nullCheck⟩
  | list l ls =>
    obtain ⟨ts, hts, hd⟩ := Literal.spells_items d (List.cons_ne_nil l ls)
    refine .inr ⟨"(" ++ String.intercalate ", " ((l :: ls).map (Literal.sql d)) ++ ")", _, ?_, ?_,
      .list hd⟩
    · simp only [String.append_assoc]
      rfl
    · rw [String.toList_append, String.toList_append]
      exact hts.parenthesized
  | bounds low high =>
    obtain ⟨ts, hts, hlow⟩ := Literal.spells_sql d low
    obtain ⟨us, hus, hhigh⟩ := Literal.spells_sql d high
    have hand := @spells_token (.keyword .and) 'A' ['N', 'D'] (by decide +kernel) d.backslashEscapes
    refine .inr ⟨low.sql d ++ (" AND " ++ high.sql d), _, ?_, ?_, .bounds hlow hhigh⟩
    · simp only [boundSql, String.append_assoc]
    · rw [String.toList_append, String.toList_append]
      exact hts.space (hand.space hus)
  | single l =>
    obtain ⟨ts, hts, hd⟩ := Literal.spells_sql d l
    exact .inr ⟨l.sql d, ts, rfl, hts, .single hd⟩

/-- **Complete conditions** are written as conditions of the grammar. -/
theorem spells_sql (d : Dialect) {c : Condition} (h : c.IsComplete) : ∃ ts,
    Spells d.backslashEscapes (c.sql d none).toList ts ∧ Derives ts (c.canonical d) := by
  obtain ⟨cs, hcs, hcolumn⟩ := d.spells_quotePath c.table c.column (isComplete_iff.1 h).1
  have hop := (d.canonicalOperator c.operator).spells_name d.backslashEscapes
  rw [d.name_canonicalOperator] at hop
  have hhead : Spells d.backslashEscapes (c.head d).toList
      (cs ++ (d.canonicalOperator c.operator).tokens) := by
    rw [head, String.toList_append, String.toList_append, List.append_assoc]
    exact hcs.space hop
  have hderives : ∀ ts, DerivesOperand c.operator.shape ts (c.canonical d).value
      (c.canonical d).upper →
        Derives (cs ++ ((d.canonicalOperator c.operator).tokens ++ ts)) (c.canonical d) :=
    fun ts hts => .mk hcolumn (by rwa [d.shape_canonicalOperator])
  obtain ⟨hsql, hoperand⟩ | ⟨s, ts, hsql, hs, hoperand⟩ := exists_spells_operand d h
  · have := hderives [] hoperand
    rw [List.append_nil] at this
    exact ⟨_, hsql ▸ hhead, this⟩
  · refine ⟨_, ?_, hderives ts hoperand⟩
    rw [hsql, String.toList_append, String.toList_append, List.append_assoc, ← List.append_assoc cs]
    exact hhead.space hs

end Condition

end SqlFilter
