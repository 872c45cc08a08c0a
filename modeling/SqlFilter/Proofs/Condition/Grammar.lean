import SqlFilter.Proofs.Decimal.Nearest
import SqlFilter.Proofs.Token.Numeral

/-!
# The grammar of conditions

`Condition.Derives ts c`: the tokens `ts` are a condition that denotes `c`. The reader of conditions
accepts what can be derived and nothing else (`Condition.ofTokens_eq_iff`). Numerals denote integers
of 64 bits and the numbers nearest to all other decimals (`Literal.numeral_eq_iff`).
-/

namespace SqlFilter

/-! ## Literals -/

namespace Literal

/-- The literal that a numeral denotes; every numeral denotes one. -/
def numeral (negative : Bool) (s : String) : Literal := (ofNumeral negative s).getD (string s)

theorem ofNumeral_eq_numeral {s : String} (h : IsNumeral s.toList) (negative : Bool) :
    ofNumeral negative s = some (numeral negative s) := by
  obtain ⟨l, hl⟩ := exists_ofNumeral h negative
  rw [numeral, hl, Option.getD_some]

theorem eq_numeral {s : String} {negative : Bool} {l : Literal}
    (h : ofNumeral negative s = some l) : l = numeral negative s := by
  rw [numeral, h, Option.getD_some]

/-- The integer that digits denote with or without a minus. -/
def signed (negative : Bool) (n : Nat) : ℤ := if negative then -(n : ℤ) else n

/-- The numeral has no more than digits, and with its sign it is an integer of 64 bits. -/
def Fits (negative : Bool) (cs : List Char) : Prop :=
  AllDigits cs ∧ -2 ^ 63 ≤ signed negative (Decimal.ofDigits cs) ∧
    signed negative (Decimal.ofDigits cs) < 2 ^ 63

/-- What a numeral denotes: the integer if it fits, and otherwise the number that is nearest to the
decimal. -/
inductive DenotedBy (negative : Bool) (cs : List Char) : Literal → Prop
  | integer {n : Int64} (hfits : Fits negative cs)
      (hn : n.toInt = signed negative (Decimal.ofDigits cs)) : DenotedBy negative cs (integer n)
  | float {x : Binary64} {d : Decimal} (hfits : ¬ Fits negative cs) (hd : Decimal.Denotes cs d)
      (hsign : x.negative = negative) (hx : x.IsNearest (d.signed negative)) :
      DenotedBy negative cs (float x)

theorem DenotedBy.unique {negative : Bool} {cs : List Char} {l l' : Literal}
    (h : DenotedBy negative cs l) (h' : DenotedBy negative cs l') : l = l' := by
  cases h with
  | integer hfits hn =>
    cases h' with
    | integer _ hn' => rw [Int64.toInt_inj.1 (hn.trans hn'.symm)]
    | float hfits' => exact absurd hfits hfits'
  | float hfits hd hsign hx =>
    cases h' with
    | integer hfits' => exact absurd hfits' hfits
    | float _ hd' hsign' hx' =>
      obtain rfl := Option.some.inj (hd.ofChars?_eq.symm.trans hd'.ofChars?_eq)
      rw [hx.unique hx' (hsign.trans hsign'.symm)]

theorem denotedBy_numeral {s : String} (h : IsNumeral s.toList) (negative : Bool) :
    DenotedBy negative s.toList (numeral negative s) := by
  by_cases hfits : Fits negative s.toList
  · obtain ⟨hdigits, hlow, hhigh⟩ := hfits
    have hn := Int64.toInt_ofInt_of_le hlow hhigh
    rw [← eq_numeral (ofNumeral_of_allDigits hdigits hn.symm)]
    exact .integer ⟨hdigits, hlow, hhigh⟩ hn
  · obtain ⟨d, hd⟩ := Decimal.exists_denotes h
    obtain ⟨hsign, hnearest⟩ := d.isNearest_toBinary64 negative
    have hread : ofNumeral negative s = some (.float (d.toBinary64 negative)) := by
      unfold ofNumeral
      dsimp only
      rw [hd.ofChars?_eq, Option.map_some]
      refine if_neg ?_
      rintro ⟨hne, hall, heq⟩
      refine hfits ⟨⟨hne, List.all_eq_true.1 hall⟩, ?_⟩
      unfold signed
      rw [← heq]
      exact ⟨Int64.le_toInt _, Int64.toInt_lt _⟩
    rw [← eq_numeral hread]
    exact .float hfits hd hsign hnearest

/-- **Numerals** are literals for what they denote. -/
theorem numeral_eq_iff {s : String} (h : IsNumeral s.toList) {negative : Bool} {l : Literal} :
    numeral negative s = l ↔ DenotedBy negative s.toList l :=
  ⟨fun heq => heq ▸ denotedBy_numeral h negative, (denotedBy_numeral h negative).unique⟩

/-- `['-'] number | string | TRUE | FALSE` -/
inductive Derives : List Token → Literal → Prop
  | number (s : String) : Derives [.number s] (numeral false s)
  | negative (s : String) : Derives [.minus, .number s] (numeral true s)
  | string (s : String) : Derives [.string s] (.string s)
  | true : Derives [.keyword .true] (.boolean .true)
  | false : Derives [.keyword .false] (.boolean .false)

theorem Derives.of_read {ts rest : List Token} {l : Literal} (h : read ts = (some l, rest)) :
    ∃ ls, ts = ls ++ rest ∧ Derives ls l := by
  unfold read at h
  split at h <;> obtain ⟨h₁, rfl⟩ := Prod.mk.inj h
  · next s ts => exact ⟨[.minus, .number s], rfl, eq_numeral h₁ ▸ .negative s⟩
  · cases h₁
  · next s ts => exact ⟨[.number s], rfl, eq_numeral h₁ ▸ .number s⟩
  · next s ts => exact ⟨[.string s], rfl, Option.some.inj h₁ ▸ .string s⟩
  · exact ⟨[.keyword .true], rfl, Option.some.inj h₁ ▸ .true⟩
  · exact ⟨[.keyword .false], rfl, Option.some.inj h₁ ▸ .false⟩
  · cases h₁
  · cases h₁

theorem Derives.read_append {ls : List Token} {l : Literal} (h : Derives ls l)
    (hn : Token.Numerals ls) (rest : List Token) : read (ls ++ rest) = (some l, rest) := by
  cases h with
  | number s => exact congrArg (·, rest) (ofNumeral_eq_numeral (hn s (by simp)) _)
  | negative s => exact congrArg (·, rest) (ofNumeral_eq_numeral (hn s (by simp)) _)
  | string s => rfl
  | true => rfl
  | false => rfl

/-- `literal (',' literal)*` -/
inductive DerivesItems : List Token → List Literal → Prop
  | last {ts : List Token} {l : Literal} : Derives ts l → DerivesItems ts [l]
  | more {ts us : List Token} {l : Literal} {ls : List Literal} :
      Derives ts l → DerivesItems us ls → DerivesItems (ts ++ .comma :: us) (l :: ls)

theorem readItems_last {ts rest : List Token} {l : Literal}
    (h : read ts = (some l, .rightParen :: rest)) : readItems ts = (some [l], rest) := by
  rw [readItems]
  split <;> simp_all

theorem readItems_more {ts rest : List Token} {l : Literal}
    (h : read ts = (some l, .comma :: rest)) :
    readItems ts = ((readItems rest).1.map (l :: ·), (readItems rest).2) := by
  rw [readItems]
  split <;> simp_all

theorem DerivesItems.of_readItems {ts rest : List Token} {ls : List Literal}
    (h : readItems ts = (some ls, rest)) :
    ∃ us, ts = us ++ .rightParen :: rest ∧ DerivesItems us ls := by
  fun_induction readItems ts generalizing ls rest with
  | case1 ts rest' hr => cases h
  | case2 ts l rest' hr =>
    obtain ⟨rfl, rfl⟩ : [l] = ls ∧ rest' = rest := by simpa using h
    obtain ⟨us, rfl, hus⟩ := Derives.of_read hr
    exact ⟨us, rfl, .last hus⟩
  | case3 ts l rest' hr _ more rest'' hmore ih =>
    obtain ⟨⟨ls', rfl, rfl⟩, rfl⟩ : (∃ ls', more = some ls' ∧ l :: ls' = ls) ∧ rest'' = rest := by
      simpa using h
    obtain ⟨us, rfl, hus⟩ := Derives.of_read hr
    obtain ⟨vs, rfl, hvs⟩ := ih hmore
    exact ⟨us ++ .comma :: vs, by simp, .more hus hvs⟩
  | case4 ts l rest' hr => cases h

theorem DerivesItems.readItems_append {us : List Token} {ls : List Literal}
    (h : DerivesItems us ls) (hn : Token.Numerals us) (rest : List Token) :
    readItems (us ++ .rightParen :: rest) = (some ls, rest) := by
  induction h with
  | last hl => exact readItems_last (hl.read_append hn _)
  | @more ts us l ls hl _ ih =>
    rw [List.append_assoc, List.cons_append, readItems_more (hl.read_append hn.left _),
      ih hn.right.tail]
    rfl

end Literal

/-! ## Columns -/

namespace Condition

/-- `identifier ['.' identifier]`: the table, empty if it is not given, and the column. -/
inductive DerivesColumn : List Token → String → String → Prop
  | bare {t : Token} {column : String} (ht : t.identifier? = some column) :
      DerivesColumn [t] "" column
  | qualified {t u : Token} {table column : String} (ht : t.identifier? = some table)
      (hu : u.identifier? = some column) : DerivesColumn [t, .dot, u] table column

theorem readPath_last {t : Token} {s : String} (ht : t.identifier? = some s) {rest : List Token}
    (hr : rest.head? ≠ some .dot) : readPath (t :: rest) = (some [s], rest) := by
  unfold readPath
  rw [ht]
  split
  · next heq => cases heq
  · exact absurd rfl hr
  · next heq _ => rw [Option.some.inj heq]

theorem readPath_dot {t : Token} {s : String} (ht : t.identifier? = some s) (rest : List Token) :
    readPath (t :: .dot :: rest) = ((readPath rest).1.map (s :: ·), (readPath rest).2) := by
  rw [readPath.eq_def]
  simp only [ht]

theorem readPath_of_none {t : Token} (ht : t.identifier? = none) (rest : List Token) :
    (readPath (t :: rest)).1 = none := by
  rw [readPath.eq_def]
  simp only [ht]

theorem exists_of_readPath {ts rest : List Token} {names : List String}
    (h : readPath ts = (some names, rest)) :
    ∃ t s us, ts = t :: us ∧ t.identifier? = some s ∧
      (names = [s] ∧ us = rest ∨
        ∃ more vs, us = .dot :: vs ∧ names = s :: more ∧ readPath vs = (some more, rest)) := by
  cases ts with
  | nil => cases h
  | cons t us =>
    cases ht : t.identifier? with
    | none =>
      have hn := readPath_of_none ht us
      rw [h] at hn
      cases hn
    | some s =>
      refine ⟨t, s, us, rfl, ht, ?_⟩
      by_cases hd : us.head? = some .dot
      · obtain ⟨vs, rfl⟩ := List.head?_eq_some_iff.1 hd
        rw [readPath_dot ht] at h
        obtain ⟨h₁, h₂⟩ := Prod.mk.inj h
        obtain ⟨more, hmore, rfl⟩ := Option.map_eq_some_iff.1 h₁
        exact .inr ⟨more, vs, rfl, rfl, Prod.ext hmore h₂⟩
      · rw [readPath_last ht hd] at h
        obtain ⟨h₁, h₂⟩ := Prod.mk.inj h
        exact .inl ⟨(Option.some.inj h₁).symm, h₂⟩

theorem readPath_ne_nil {ts rest : List Token} : readPath ts ≠ (some [], rest) := by
  intro h
  obtain ⟨t, s, us, -, -, ⟨hn, -⟩ | ⟨more, vs, -, hn, -⟩⟩ := exists_of_readPath h
  · cases hn
  · cases hn

theorem DerivesColumn.of_readPath_bare {ts rest : List Token} {column : String}
    (h : readPath ts = (some [column], rest)) :
    ∃ cs, ts = cs ++ rest ∧ DerivesColumn cs "" column := by
  obtain ⟨t, s, us, rfl, ht, ⟨hs, rfl⟩ | ⟨more, vs, -, hs, hmore⟩⟩ := exists_of_readPath h
  · obtain rfl : column = s := by simpa using hs
    exact ⟨[t], rfl, .bare ht⟩
  · obtain rfl := (List.cons.inj hs).2
    exact absurd hmore readPath_ne_nil

theorem DerivesColumn.of_readPath_qualified {ts rest : List Token} {table column : String}
    (h : readPath ts = (some [table, column], rest)) :
    ∃ cs, ts = cs ++ rest ∧ DerivesColumn cs table column := by
  obtain ⟨t, s, us, rfl, ht, ⟨hs, -⟩ | ⟨more, vs, rfl, hs, hmore⟩⟩ := exists_of_readPath h
  · cases hs
  · obtain ⟨rfl, rfl⟩ : table = s ∧ [column] = more := by simpa using hs
    obtain ⟨u, s', ws, rfl, hu, ⟨hs, rfl⟩ | ⟨more, vs, -, hs, hmore⟩⟩ := exists_of_readPath hmore
    · obtain rfl : column = s' := by simpa using hs
      exact ⟨[t, .dot, u], rfl, .qualified ht hu⟩
    · obtain rfl := (List.cons.inj hs).2
      exact absurd hmore readPath_ne_nil

/-! ## Operators -/

end Condition

/-- The tokens of an operator. -/
def Operator.tokens : Operator → List Token
  | eq => [.eq]
  | ne => [.ne]
  | gt => [.gt]
  | lt => [.lt]
  | ge => [.ge]
  | le => [.le]
  | like => [.keyword .like]
  | ilike => [.keyword .ilike]
  | isIn => [.keyword .within]
  | notIn => [.keyword .not, .keyword .within]
  | isNull => [.keyword .is, .keyword .null]
  | isNotNull => [.keyword .is, .keyword .not, .keyword .null]
  | between => [.keyword .between]

namespace Condition

theorem readOperator_append (op : Operator) (rest : List Token) :
    readOperator (op.tokens ++ rest) = (some op, rest) := by
  cases op <;> rfl

theorem eq_of_readOperator {ts rest : List Token} {op : Operator}
    (h : readOperator ts = (some op, rest)) : ts = op.tokens ++ rest := by
  unfold readOperator at h
  split at h <;> obtain ⟨h₁, rfl⟩ := Prod.mk.inj h <;> cases h₁ <;> rfl

/-- What an operator needs on its right: nothing, `'(' items ')'`, `literal AND literal` or
`literal`. -/
inductive DerivesOperand : Operator.Shape → List Token → Option Operand → Option Literal → Prop
  | nullCheck : DerivesOperand .nullCheck [] none none
  | list {ts : List Token} {ls : List Literal} (h : Literal.DerivesItems ts ls) :
      DerivesOperand .list (.leftParen :: (ts ++ [.rightParen])) (some (.list ls)) none
  | bounds {ts us : List Token} {low high : Literal} (hl : Literal.Derives ts low)
      (hh : Literal.Derives us high) :
      DerivesOperand .bounds (ts ++ .keyword .and :: us) (some (.single low)) (some high)
  | single {ts : List Token} {l : Literal} (h : Literal.Derives ts l) :
      DerivesOperand .single ts (some (.single l)) none

theorem DerivesOperand.of_readBounds {ts rest : List Token} {low high : Literal}
    (h : readBounds ts = (some (low, high), rest)) :
    ∃ os, ts = os ++ rest ∧ DerivesOperand .bounds os (some (.single low)) (some high) := by
  unfold readBounds at h
  split at h
  · next l rest' hl =>
    obtain ⟨h₁, h₂⟩ := Prod.mk.inj h
    obtain ⟨hi, hhi, heq⟩ := Option.map_eq_some_iff.1 h₁
    obtain ⟨rfl, rfl⟩ := Prod.mk.inj heq
    obtain ⟨ls, rfl, hls⟩ := Literal.Derives.of_read hl
    obtain ⟨hs, rfl, hhs⟩ := Literal.Derives.of_read (Prod.ext hhi h₂)
    exact ⟨ls ++ .keyword .and :: hs, by simp, .bounds hls hhs⟩
  · cases h

theorem DerivesOperand.of_readOperand {op : Operator} {ts rest : List Token}
    {value : Option Operand} {upper : Option Literal}
    (h : readOperand op ts = (some (value, upper), rest)) :
    ∃ os, ts = os ++ rest ∧ DerivesOperand op.shape os value upper := by
  unfold readOperand at h
  split at h <;> rename_i hshape <;> rw [hshape]
  · obtain ⟨h₁, rfl⟩ := Prod.mk.inj h
    obtain ⟨rfl, rfl⟩ := Prod.mk.inj (Option.some.inj h₁)
    exact ⟨[], rfl, .nullCheck⟩
  · obtain ⟨h₁, h₂⟩ := Prod.mk.inj h
    obtain ⟨ls, hls, heq⟩ := Option.map_eq_some_iff.1 h₁
    obtain ⟨rfl, rfl⟩ := Prod.mk.inj heq
    have hlist : Literal.readList ts = (some ls, rest) := Prod.ext hls h₂
    unfold Literal.readList at hlist
    split at hlist
    · next us =>
      obtain ⟨us, rfl, hus⟩ := Literal.DerivesItems.of_readItems hlist
      exact ⟨.leftParen :: (us ++ [.rightParen]), by simp, .list hus⟩
    · cases hlist
  · obtain ⟨h₁, h₂⟩ := Prod.mk.inj h
    obtain ⟨⟨low, high⟩, hls, heq⟩ := Option.map_eq_some_iff.1 h₁
    obtain ⟨rfl, rfl⟩ := Prod.mk.inj heq
    exact DerivesOperand.of_readBounds (Prod.ext hls h₂)
  · obtain ⟨h₁, h₂⟩ := Prod.mk.inj h
    obtain ⟨l, hl, heq⟩ := Option.map_eq_some_iff.1 h₁
    obtain ⟨rfl, rfl⟩ := Prod.mk.inj heq
    obtain ⟨ls, rfl, hls⟩ := Literal.Derives.of_read (Prod.ext hl h₂)
    exact ⟨ls, rfl, .single hls⟩

theorem DerivesOperand.readOperand_append {op : Operator} {os : List Token}
    {value : Option Operand} {upper : Option Literal}
    (h : DerivesOperand op.shape os value upper) (hn : Token.Numerals os) (rest : List Token) :
    readOperand op (os ++ rest) = (some (value, upper), rest) := by
  unfold readOperand
  generalize op.shape = shape at h
  cases h with
  | nullCheck => rfl
  | @list ts ls h =>
    have hitems := h.readItems_append hn.tail.left rest
    simp only [List.cons_append, List.append_assoc, List.nil_append, Literal.readList, hitems]
    rfl
  | @bounds ts us low high hl hh =>
    have hlow := hl.read_append hn.left (.keyword .and :: us ++ rest)
    have hhigh := hh.read_append hn.right.tail rest
    simp only [List.cons_append, List.append_assoc] at hlow ⊢
    simp only [readBounds, hlow, hhigh]
    rfl
  | single h =>
    simp only [h.read_append hn rest]
    rfl

/-! ## Conditions -/

/-- `column operator operand` -/
inductive Derives : List Token → Condition → Prop
  | mk {cs os : List Token} {table column : String} {op : Operator} {value : Option Operand}
      {upper : Option Literal} (hc : DerivesColumn cs table column)
      (ho : DerivesOperand op.shape os value upper) :
      Derives (cs ++ (op.tokens ++ os)) ⟨table, column, op, value, upper, .atWhere⟩

theorem Derives.of_readComparison {cs ts rest : List Token} {table column : String} {c : Condition}
    (hc : DerivesColumn cs table column) (h : readComparison table column ts = (some c, rest)) :
    ∃ us, ts = us ++ rest ∧ Derives (cs ++ us) c := by
  unfold readComparison at h
  split at h
  · cases h
  · next op rest' hop =>
    obtain rfl := eq_of_readOperator hop
    obtain ⟨h₁, h₂⟩ := Prod.mk.inj h
    obtain ⟨⟨value, upper⟩, ho, rfl⟩ := Option.map_eq_some_iff.1 h₁
    obtain ⟨os, rfl, hos⟩ := DerivesOperand.of_readOperand (Prod.ext ho h₂)
    exact ⟨op.tokens ++ os, by simp, .mk hc hos⟩

theorem readComparison_append {table column : String} {op : Operator} {os : List Token}
    {value : Option Operand} {upper : Option Literal}
    (h : DerivesOperand op.shape os value upper) (hn : Token.Numerals os) :
    readComparison table column (op.tokens ++ os) =
      (some ⟨table, column, op, value, upper, .atWhere⟩, []) := by
  have ho := h.readOperand_append hn []
  rw [List.append_nil] at ho
  simp only [readComparison, readOperator_append, ho]
  rfl

/-- No operator starts with a point. -/
theorem head?_tokens_ne (op : Operator) (os : List Token) :
    (op.tokens ++ os).head? ≠ some .dot := by
  cases op <;> exact nofun

theorem Derives.read_eq {ts : List Token} {c : Condition} (h : Derives ts c)
    (hn : Token.Numerals ts) : read ts = (some c, []) := by
  cases h with
  | @mk cs os table column op value upper hc ho =>
    have hos := @readComparison_append table column op os value upper ho hn.right.right
    cases hc with
    | bare ht =>
      have hpath := readPath_last ht (head?_tokens_ne op os)
      simp only [read, List.cons_append, List.nil_append, hpath, hos]
    | qualified ht hu =>
      have hpath := readPath_last hu (head?_tokens_ne op os)
      simp only [read, List.cons_append, List.nil_append, readPath_dot ht, hpath, Option.map_some,
        hos]

theorem Derives.of_read {ts : List Token} {c : Condition} (h : read ts = (some c, [])) :
    Derives ts c := by
  unfold read at h
  split at h
  · next column rest hp =>
    obtain ⟨cs, rfl, hcs⟩ := DerivesColumn.of_readPath_bare hp
    obtain ⟨us, rfl, hus⟩ := of_readComparison hcs h
    rwa [List.append_nil]
  · next table column rest hp =>
    obtain ⟨cs, rfl, hcs⟩ := DerivesColumn.of_readPath_qualified hp
    obtain ⟨us, rfl, hus⟩ := of_readComparison hcs h
    rwa [List.append_nil]
  · cases h

theorem Derives.of_ofTokens {ts : List Token} {c : Condition} (h : (ofTokens ts).1 = some c) :
    Derives ts c := by
  simp only [ofTokens] at h
  split_ifs at h with hr
  exact .of_read (Prod.ext h hr)

/-- **Conditions** are what the grammar derives. -/
theorem ofTokens_eq_iff {ts : List Token} (hn : Token.Numerals ts) {c : Condition} :
    (ofTokens ts).1 = some c ↔ Derives ts c := by
  constructor
  · exact .of_ofTokens
  · intro h
    simp only [ofTokens, h.read_eq hn, if_true]

end Condition

/-! ## Illegal tokens -/

theorem Literal.Derives.illegal_notMem {ts : List Token} {l : Literal} (h : Derives ts l) :
    .illegal ∉ ts := by
  cases h <;> simp

theorem Literal.DerivesItems.illegal_notMem {ts : List Token} {ls : List Literal}
    (h : DerivesItems ts ls) : .illegal ∉ ts := by
  induction h with
  | last h => exact h.illegal_notMem
  | more h _ ih => simp [h.illegal_notMem, ih]

namespace Condition

theorem DerivesColumn.illegal_notMem {ts : List Token} {table column : String}
    (h : DerivesColumn ts table column) : .illegal ∉ ts := by
  have ne_illegal : ∀ {t : Token} {s : String}, t.identifier? = some s → Token.illegal ≠ t := by
    rintro t s ht rfl
    cases ht
  cases h with
  | bare ht => simp [ne_illegal ht]
  | qualified ht hu => simp [ne_illegal ht, ne_illegal hu]

theorem DerivesOperand.illegal_notMem {shape : Operator.Shape} {ts : List Token}
    {value : Option Operand} {upper : Option Literal} (h : DerivesOperand shape ts value upper) :
    .illegal ∉ ts := by
  cases h with
  | nullCheck => exact List.not_mem_nil
  | list h => simp [h.illegal_notMem]
  | bounds hl hh => simp [hl.illegal_notMem, hh.illegal_notMem]
  | single h => exact h.illegal_notMem

/-- No token of a condition is illegal. -/
theorem Derives.illegal_notMem {ts : List Token} {c : Condition} (h : Derives ts c) :
    .illegal ∉ ts := by
  cases h with
  | @mk cs os table column op value upper hc ho =>
    have hop : .illegal ∉ op.tokens := by cases op <;> decide
    simp [hc.illegal_notMem, ho.illegal_notMem, hop]

theorem ofTokens_of_illegal {ts : List Token} (h : .illegal ∈ ts) : (ofTokens ts).1 = none :=
  Option.eq_none_iff_forall_ne_some.2 fun _ hc => (Derives.of_ofTokens hc).illegal_notMem h

end Condition

end SqlFilter
