import SqlFilter.Proofs.Condition.Grammar
import SqlFilter.Proofs.Tree.Cut
import SqlFilter.Tree.Reader

/-!
# The grammar of filter text

`Level.Derives depth ts l`: the tokens `ts` are a level of filter text that denotes `l`, with
parentheses nested less than `depth` levels deep. A level is cut between its items because no item
shows a connective to the cut (`DerivesItem.carry_eq`), and the reader of levels accepts what can be
derived and nothing else (`readLevel_of_derives`, `derives_of_readLevel`).
-/

namespace SqlFilter

/-- The group that a level in parentheses is, none if it has no members. -/
def Level.node? : Level → Option (Node Unit)
  | ⟨_, []⟩ => none
  | ⟨k, n :: ns⟩ => some (.group () k (n :: ns))

/-- `'(' level ')' | condition`, where `derives` derives levels. -/
inductive DerivesItem (derives : List Token → Level → Prop) :
    List Token → Option (Node Unit) → Prop
  | parenthesized {ts : List Token} {l : Level} (h : derives ts l) :
      DerivesItem derives (.leftParen :: (ts ++ [.rightParen])) l.node?
  | condition {ts : List Token} {c : Condition} (h : Condition.Derives ts c) :
      DerivesItem derives ts (some (.condition () c))

/-- `item (connective item)*`, with one connective throughout. -/
inductive DerivesItems (derives : List Token → Level → Prop) (k : Logic) :
    List Token → List (Node Unit) → Prop
  | last {ts : List Token} {n : Option (Node Unit)} (h : DerivesItem derives ts n) :
      DerivesItems derives k ts n.toList
  | more {ts us : List Token} {n : Option (Node Unit)} {ns : List (Node Unit)}
      (h : DerivesItem derives ts n) (hs : DerivesItems derives k us ns) :
      DerivesItems derives k (ts ++ k.token :: us) (n.toList ++ ns)

/-- `empty | item | item (AND item)+ | item (OR item)+` -/
inductive DerivesLevel (derives : List Token → Level → Prop) : List Token → Level → Prop
  | empty : DerivesLevel derives [] ⟨.and, []⟩
  | single {ts : List Token} {n : Option (Node Unit)} (h : DerivesItem derives ts n) :
      DerivesLevel derives ts ⟨.and, n.toList⟩
  | joined {ts us : List Token} {k : Logic} {n : Option (Node Unit)} {ns : List (Node Unit)}
      (h : DerivesItem derives ts n) (hs : DerivesItems derives k us ns) :
      DerivesLevel derives (ts ++ k.token :: us) ⟨k, n.toList ++ ns⟩

/-- The tokens of a level of filter text, with levels nested at most `depth` deep, and what they
denote. -/
def Level.Derives : (depth : Nat) → List Token → Level → Prop
  | 0 => fun _ _ => False
  | depth + 1 => DerivesLevel (Level.Derives depth)

/-! ## Depth -/

theorem DerivesItem.mono {derives derives' : List Token → Level → Prop}
    (hd : ∀ ts l, derives ts l → derives' ts l) {ts : List Token} {n : Option (Node Unit)}
    (h : DerivesItem derives ts n) : DerivesItem derives' ts n := by
  cases h with
  | parenthesized h => exact .parenthesized (hd _ _ h)
  | condition h => exact .condition h

theorem DerivesItems.mono {derives derives' : List Token → Level → Prop}
    (hd : ∀ ts l, derives ts l → derives' ts l) {k : Logic} {ts : List Token}
    {ns : List (Node Unit)} (h : DerivesItems derives k ts ns) : DerivesItems derives' k ts ns := by
  induction h with
  | last h => exact .last (h.mono hd)
  | more h _ ih => exact .more (h.mono hd) ih

theorem Level.Derives.succ {depth : Nat} {ts : List Token} {l : Level}
    (h : Level.Derives depth ts l) : Level.Derives (depth + 1) ts l := by
  induction depth generalizing ts l with
  | zero => exact h.elim
  | succ depth ih =>
    cases h with
    | empty => exact .empty
    | single h => exact .single (h.mono fun _ _ => ih)
    | joined h hs => exact .joined (h.mono fun _ _ => ih) (hs.mono fun _ _ => ih)

/-- A level is one wherever groups may be nested more deeply. -/
theorem Level.Derives.mono {depth depth' : Nat} (hle : depth ≤ depth') {ts : List Token} {l : Level}
    (h : Level.Derives depth ts l) : Level.Derives depth' ts l := by
  induction hle with
  | refl => exact h
  | step _ ih => exact ih.succ

theorem Node.maxDepth_append {ι : Type} (ns ms : List (Node ι)) :
    maxDepth (ns ++ ms) = max (maxDepth ns) (maxDepth ms) := by
  induction ns with
  | nil => rw [List.nil_append, maxDepth, Nat.zero_max]
  | cons n ns ih => rw [List.cons_append, maxDepth, maxDepth, ih, Nat.max_assoc]

theorem DerivesItem.depth_le {depth : Nat} {derives : List Token → Level → Prop}
    (hd : ∀ ts l, derives ts l → Node.maxDepth l.children + 1 ≤ depth) {ts : List Token}
    {n : Option (Node Unit)} (h : DerivesItem derives ts n) :
    Node.maxDepth n.toList ≤ depth := by
  cases h with
  | @parenthesized us l h =>
    have := hd us l h
    obtain ⟨k, ns⟩ := l
    cases ns with
    | nil => exact Nat.zero_le _
    | cons n ns =>
      simp only [Level.node?, Option.toList_some, Node.maxDepth, Node.depth] at this ⊢
      omega
  | condition h => exact Nat.zero_le _

theorem DerivesItems.depth_le {depth : Nat} {derives : List Token → Level → Prop}
    (hd : ∀ ts l, derives ts l → Node.maxDepth l.children + 1 ≤ depth) {k : Logic}
    {ts : List Token} {ns : List (Node Unit)} (h : DerivesItems derives k ts ns) :
    Node.maxDepth ns ≤ depth := by
  induction h with
  | last h => exact h.depth_le hd
  | more h _ ih =>
    rw [Node.maxDepth_append]
    exact Nat.max_le.2 ⟨h.depth_le hd, ih⟩

/-- What is derived is nested no deeper than its derivation. -/
theorem Level.Derives.depth_le {depth : Nat} {ts : List Token} {l : Level}
    (h : Level.Derives depth ts l) : Node.maxDepth l.children + 1 ≤ depth := by
  induction depth generalizing ts l with
  | zero => exact h.elim
  | succ depth ih =>
    refine Nat.succ_le_succ ?_
    cases h with
    | empty => exact Nat.zero_le _
    | single h => exact h.depth_le fun _ _ => ih
    | joined h hs =>
      rw [Node.maxDepth_append]
      exact Nat.max_le.2 ⟨h.depth_le fun _ _ => ih, hs.depth_le fun _ _ => ih⟩

/-! ## Items in front of the cut -/

namespace Token

/-- Neither a parenthesis nor a word that the cut looks at. -/
def IsQuiet (t : Token) : Prop :=
  t ≠ leftParen ∧ t ≠ rightParen ∧ t ≠ keyword .and ∧ t ≠ keyword .or ∧ t ≠ keyword .between

instance (t : Token) : Decidable t.IsQuiet := inferInstanceAs (Decidable (_ ∧ _))

theorem isQuiet_of_identifier? {t : Token} {s : String} (h : t.identifier? = some s) :
    t.IsQuiet := by
  cases t <;> simp_all [Token.identifier?, IsQuiet]

end Token

theorem Literal.Derives.isQuiet {ts : List Token} {l : Literal} (h : Literal.Derives ts l) :
    ∀ t ∈ ts, t.IsQuiet := by
  cases h <;> simp [Token.IsQuiet]

theorem Literal.DerivesItems.isQuiet {ts : List Token} {ls : List Literal}
    (h : Literal.DerivesItems ts ls) : ∀ t ∈ ts, t.IsQuiet := by
  induction h with
  | last h => exact h.isQuiet
  | more h _ ih =>
    refine List.forall_mem_append.2 ⟨h.isQuiet, List.forall_mem_cons.2 ⟨?_, ih⟩⟩
    decide

theorem Condition.DerivesColumn.isQuiet {ts : List Token} {table column : String}
    (h : Condition.DerivesColumn ts table column) : ∀ t ∈ ts, t.IsQuiet := by
  cases h with
  | bare ht => exact List.forall_mem_singleton.2 (Token.isQuiet_of_identifier? ht)
  | qualified ht hu =>
    exact List.forall_mem_cons.2 ⟨Token.isQuiet_of_identifier? ht, List.forall_mem_cons.2
      ⟨by decide, List.forall_mem_singleton.2 (Token.isQuiet_of_identifier? hu)⟩⟩

theorem Operator.isQuiet_of_mem_tokens {op : Operator} (h : op ≠ .between) :
    ∀ t ∈ op.tokens, t.IsQuiet := by
  cases op <;> first | decide | exact absurd rfl h

theorem Operator.eq_between_of_shape {op : Operator} (h : op.shape = .bounds) : op = .between := by
  cases op <;> first | rfl | cases h

namespace Word

theorem balanced_of_isQuiet {ws : List Word} (h : ∀ w ∈ ws, w.token.IsQuiet) :
    balanced 0 ws = true := by
  induction ws with
  | nil => rfl
  | cons w ws ih =>
    obtain ⟨⟨hl, hr, -⟩, hws⟩ := List.forall_mem_cons.1 h
    rw [balanced, if_neg hl, if_neg hr, ih hws]

theorem carry_of_isQuiet {ws : List Word} (h : ∀ w ∈ ws, w.token.IsQuiet) (depth : Nat)
    (pending : Bool) : carry depth pending ws = some (depth, pending) := by
  induction ws with
  | nil => rfl
  | cons w ws ih =>
    obtain ⟨⟨hl, hr, ha, ho, hb⟩, hws⟩ := List.forall_mem_cons.1 h
    rw [carry_cons (by simp [connective?, ha, ho]), show depthAfter depth w = depth by
      simp [depthAfter, hl, hr], show pendingAfter depth pending w = pending by
      simp [pendingAfter, hb, ha], ih hws]

theorem balanced_append_zero {ws vs : List Word} (h : balanced 0 ws = true) :
    balanced 0 (ws ++ vs) = balanced 0 vs := by
  have := balanced_append h 0 vs
  rwa [Nat.add_zero] at this

theorem balanced_parenthesized {o c : Word} {body : List Word} (ho : o.token = .leftParen)
    (hc : c.token = .rightParen) (hb : balanced 0 body = true) (ws : List Word) :
    balanced 0 (o :: (body ++ c :: ws)) = balanced 0 ws := by
  have hbody := balanced_append hb 1 (c :: ws)
  rw [Nat.zero_add] at hbody
  rw [balanced, if_pos ho, hbody, balanced, if_neg (by rw [hc]; decide), if_pos hc]
  rfl

theorem forall_token {P : Token → Prop} {ws : List Word} (h : ∀ t ∈ ws.map token, P t) :
    ∀ w ∈ ws, P w.token := fun _ hw => h _ (List.mem_map_of_mem hw)

variable {ws vs : List Word}

/-- Words that the cut passes over at the top of a level. -/
def Passed (ws : List Word) : Prop := balanced 0 ws = true ∧ carry 0 false ws = some (0, false)

theorem Passed.append (hv : Passed vs) (hw : Passed ws) : Passed (vs ++ ws) :=
  ⟨by rw [balanced_append_zero hv.1, hw.1], by rw [carry_append hv.2, hw.2]⟩

theorem passed_of_isQuiet (h : ∀ t ∈ ws.map token, t.IsQuiet) : Passed ws :=
  ⟨balanced_of_isQuiet (forall_token h), carry_of_isQuiet (forall_token h) 0 false⟩

theorem passed_parenthesized {o c : Word} (ho : o.token = .leftParen) (hc : c.token = .rightParen)
    (hb : balanced 0 ws = true) : Passed (o :: (ws ++ [c])) :=
  ⟨balanced_parenthesized ho hc hb [], carry_parenthesized ho hc hb false⟩

theorem exists_of_map_parenthesized {ts : List Token}
    (h : ws.map token = .leftParen :: (ts ++ [.rightParen])) :
    ∃ o body c, ws = o :: (body ++ [c]) ∧ o.token = .leftParen ∧ body.map token = ts ∧
      c.token = .rightParen := by
  obtain ⟨o, vs, rfl, ho, hvs⟩ := List.map_eq_cons_iff.1 h
  obtain ⟨body, cs, rfl, hbody, hcs⟩ := List.map_eq_append_iff.1 hvs
  obtain ⟨c, cs, rfl, hc, hcs⟩ := List.map_eq_cons_iff.1 hcs
  obtain rfl := List.map_eq_nil_iff.1 hcs
  exact ⟨o, body, c, rfl, ho, hbody, hc⟩

/-- The `AND` between two bounds belongs to its `BETWEEN`. -/
theorem passed_bounds {b a : Word} {lows highs : List Word} (hb : b.token = .keyword .between)
    (hl : ∀ t ∈ lows.map token, t.IsQuiet) (ha : a.token = .keyword .and)
    (hh : ∀ t ∈ highs.map token, t.IsQuiet) : Passed (b :: (lows ++ a :: highs)) := by
  constructor
  · rw [balanced, if_neg (by rw [hb]; decide), if_neg (by rw [hb]; decide),
      balanced_append_zero (balanced_of_isQuiet (forall_token hl)), balanced,
      if_neg (by rw [ha]; decide), if_neg (by rw [ha]; decide),
      balanced_of_isQuiet (forall_token hh)]
  · rw [carry_cons (by simp [connective?, hb]), show depthAfter 0 b = 0 by simp [depthAfter, hb],
      show pendingAfter 0 false b = true by simp [pendingAfter, hb],
      carry_append (carry_of_isQuiet (forall_token hl) 0 true),
      carry_cons (by simp [connective?, ha]), show depthAfter 0 a = 0 by simp [depthAfter, ha],
      show pendingAfter 0 true a = false by simp [pendingAfter, ha],
      carry_of_isQuiet (forall_token hh) 0 false]

end Word

namespace Condition

open Word

variable {os : List Token} {value : Option Operand} {upper : Option Literal} {ws : List Word}

theorem DerivesOperand.passed {op : Operator} (h : DerivesOperand op.shape os value upper)
    (hws : ws.map token = op.tokens ++ os) : Passed ws := by
  obtain ⟨vs, us, rfl, hvs, hus⟩ := List.map_eq_append_iff.1 hws
  generalize hs : op.shape = shape at h
  have hop : op ≠ .between → Passed vs := fun hne =>
    passed_of_isQuiet (hvs ▸ Operator.isQuiet_of_mem_tokens hne)
  cases h with
  | nullCheck =>
    rw [List.map_eq_nil_iff.1 hus, List.append_nil]
    exact hop (by rintro rfl; cases hs)
  | list h =>
    obtain ⟨o, body, c, rfl, ho, hbody, hc⟩ := exists_of_map_parenthesized hus
    have hb : Passed body := passed_of_isQuiet (hbody ▸ h.isQuiet)
    exact (hop (by rintro rfl; cases hs)).append (passed_parenthesized ho hc hb.1)
  | bounds hl hh =>
    obtain rfl := Operator.eq_between_of_shape hs
    obtain ⟨b, vs, rfl, hb, hvs⟩ := List.map_eq_cons_iff.1 hvs
    obtain rfl := List.map_eq_nil_iff.1 hvs
    obtain ⟨lows, us, rfl, hlows, hus⟩ := List.map_eq_append_iff.1 hus
    obtain ⟨a, highs, rfl, ha, hhighs⟩ := List.map_eq_cons_iff.1 hus
    exact passed_bounds hb (hlows ▸ hl.isQuiet) ha (hhighs ▸ hh.isQuiet)
  | single h =>
    exact (hop (by rintro rfl; cases hs)).append (passed_of_isQuiet (hus ▸ h.isQuiet))

theorem Derives.passed {ts : List Token} {c : Condition} (h : Derives ts c)
    (hws : ws.map token = ts) : Passed ws := by
  cases h with
  | mk hc ho =>
    obtain ⟨vs, us, rfl, hvs, hus⟩ := List.map_eq_append_iff.1 hws
    exact (passed_of_isQuiet (hvs ▸ hc.isQuiet)).append (ho.passed hus)

/-- A condition starts with an identifier. -/
theorem Derives.head {ts : List Token} {c : Condition} (h : Derives ts c) :
    ∃ t us s, ts = t :: us ∧ t.identifier? = some s := by
  cases h with
  | mk hc =>
    cases hc with
    | bare ht => exact ⟨_, _, _, rfl, ht⟩
    | qualified ht => exact ⟨_, _, _, rfl, ht⟩

theorem Derives.unwrap?_eq {ts : List Token} {c : Condition} (h : Derives ts c)
    (hws : ws.map token = ts) : unwrap? ws = none := by
  obtain ⟨t, us, s, rfl, ht⟩ := h.head
  obtain ⟨w, ws, rfl, hw, -⟩ := List.map_eq_cons_iff.1 hws
  rw [unwrap?, if_neg]
  rintro hl
  rw [← hw, hl] at ht
  cases ht

end Condition

section Passed

open Word

variable {derives : List Token → Level → Prop} {ts : List Token} {ws : List Word}

theorem DerivesItem.passed (hd : ∀ vs l, derives (vs.map token) l → balanced 0 vs = true)
    {n : Option (Node Unit)} (h : DerivesItem derives ts n) (hws : ws.map token = ts) :
    Passed ws := by
  cases h with
  | parenthesized h =>
    obtain ⟨o, body, c, rfl, ho, rfl, hc⟩ := exists_of_map_parenthesized hws
    exact passed_parenthesized ho hc (hd body _ h)
  | condition h => exact h.passed hws

theorem DerivesItem.ne_nil {n : Option (Node Unit)} (h : DerivesItem derives ts n) : ts ≠ [] := by
  cases h with
  | parenthesized h => exact List.cons_ne_nil _ _
  | condition h =>
    obtain ⟨t, us, s, rfl, -⟩ := h.head
    exact List.cons_ne_nil _ _

theorem balanced_token {w : Word} {k : Logic} (hw : w.token = k.token) (ws : List Word) :
    balanced 0 (w :: ws) = balanced 0 ws := by
  rw [balanced, if_neg (by rw [hw]; cases k <;> decide), if_neg (by rw [hw]; cases k <;> decide)]

theorem DerivesItems.balanced (hd : ∀ vs l, derives (vs.map token) l → balanced 0 vs = true)
    {k : Logic} {ns : List (Node Unit)} (h : DerivesItems derives k ts ns)
    (hws : ws.map token = ts) : balanced 0 ws = true := by
  induction h generalizing ws with
  | last h => exact (h.passed hd hws).1
  | more h _ ih =>
    obtain ⟨vs, us, rfl, hvs, hus⟩ := List.map_eq_append_iff.1 hws
    obtain ⟨w, us, rfl, hw, hus⟩ := List.map_eq_cons_iff.1 hus
    rw [balanced_append_zero (h.passed hd hvs).1, balanced_token hw, ih hus]

/-- The parentheses of a level match. -/
theorem Level.Derives.balanced {depth : Nat} {l : Level} (h : Level.Derives depth ts l)
    (hws : ws.map token = ts) : balanced 0 ws = true := by
  induction depth generalizing ts ws l with
  | zero => exact h.elim
  | succ depth ih =>
    have hd : ∀ vs l, Level.Derives depth (vs.map token) l → Word.balanced 0 vs = true :=
      fun vs l hl => ih hl rfl
    cases h with
    | empty => rw [List.map_eq_nil_iff.1 hws]; rfl
    | single h => exact (h.passed hd hws).1
    | joined h hs =>
      obtain ⟨vs, us, rfl, hvs, hus⟩ := List.map_eq_append_iff.1 hws
      obtain ⟨w, us, rfl, hw, hus⟩ := List.map_eq_cons_iff.1 hus
      rw [balanced_append_zero (h.passed hd hvs).1, balanced_token hw, hs.balanced hd hus]

end Passed

/-! ## What can be derived is read -/

/-- The attempt gives `x` without a warning, or fails where there is too little room. -/
def Attempt.Gives {α : Type} (short : Prop) (a : Attempt α) (x : α) : Prop :=
  a.result = some (x, []) ∨ short ∧ a.result = none

theorem Attempt.Gives.collect_cons {short : Prop} {a : Attempt (Option (Node Unit))}
    {as : List (Attempt (Option (Node Unit)))} {n : Option (Node Unit)} {ns : List (Node Unit)}
    (ha : a.Gives short n) (has : (collect as).Gives short ns) :
    (collect (a :: as)).Gives short (n.toList ++ ns) := by
  obtain ha | ⟨hs, ha⟩ := ha
  · obtain has | ⟨hs, has⟩ := has
    · exact .inl (by simp [collect, ha, has])
    · exact .inr ⟨hs, by simp [collect, ha, has]⟩
  · exact .inr ⟨hs, by simp [collect, ha]⟩

section Complete

open Word

variable {inner : List Word → Attempt (Option Level)} {derives : List Token → Level → Prop}
  {short : Prop} {ws : List Word}

theorem readPart_of_unwrap? {body : List Word} (hu : unwrap? ws = some body) {l : Level}
    (h : (inner body).Gives short (some l)) : (readPart inner ws).Gives short l.node? := by
  obtain h | ⟨hs, h⟩ := h
  · refine .inl ?_
    obtain ⟨k, ns⟩ := l
    simp only [readPart, hu, h, Option.map_some]
    cases ns <;> rfl
  · exact .inr ⟨hs, by simp only [readPart, hu, h, Option.map_none]⟩

theorem readPart_of_condition {c : Condition} (hu : unwrap? ws = none)
    (h : (Condition.ofTokens (ws.map token)).1 = some c) :
    (readPart inner ws).result = some (some (.condition () c), []) := by
  simp only [readPart, hu]
  split
  · next heq =>
    rw [heq] at h
    rw [Option.some.inj h]
  · next heq =>
    rw [heq] at h
    cases h

variable (hd : ∀ vs l, derives (vs.map token) l → balanced 0 vs = true)
  (hc : ∀ vs l, derives (vs.map token) l → Token.Numerals (vs.map token) →
    (inner vs).Gives short (some l))

include hd hc in
theorem readPart_of_derivesItem {ts : List Token} {n : Option (Node Unit)}
    (h : DerivesItem derives ts n) (hn : Token.Numerals ts) (hws : ws.map token = ts) :
    (readPart inner ws).Gives short n := by
  cases h with
  | parenthesized h =>
    obtain ⟨o, body, c, rfl, ho, rfl, hcl⟩ := exists_of_map_parenthesized hws
    exact readPart_of_unwrap? (unwrap?_eq_some_iff.2 ⟨o, c, rfl, ho, hcl, hd body _ h⟩)
      (hc body _ h hn.tail.left)
  | condition h =>
    exact .inl (readPart_of_condition (h.unwrap?_eq hws)
      (by rw [hws]; exact (Condition.ofTokens_eq_iff hn).2 h))

theorem gives_nil : (Attempt.collect []).Gives short [] := .inl rfl

theorem gives_singleton {a : Attempt (Option (Node Unit))} {n : Option (Node Unit)}
    (h : a.Gives short n) : (Attempt.collect [a]).Gives short n.toList := by
  have := h.collect_cons gives_nil
  rwa [List.append_nil] at this

/-- The cut of the words gives the parts, none of which is empty, and they are read as the nodes. -/
structure Parts (inner : List Word → Attempt (Option Level)) (short : Prop) (k : Logic)
    (ws p : List Word) (ps : List (List Word)) (ns : List (Node Unit)) : Prop where
  cut : cut 0 false ws = (p, ps.map (k, ·))
  ne_nil : ∀ q ∈ p :: ps, q ≠ []
  gives : (Attempt.collect ((p :: ps).map (readPart inner))).Gives short ns

include hd hc in
theorem parts_single {k : Logic} {ts : List Token} {n : Option (Node Unit)}
    (h : DerivesItem derives ts n) (hn : Token.Numerals ts) (hws : ws.map token = ts) :
    Parts inner short k ws ws [] n.toList where
  cut := cut_last (h.passed hd hws).2
  ne_nil := List.forall_mem_singleton.2 (by rintro rfl; exact h.ne_nil hws.symm)
  gives := gives_singleton (readPart_of_derivesItem hd hc h hn hws)

include hd hc in
theorem Parts.cons {k : Logic} {ts : List Token} {n : Option (Node Unit)}
    (h : DerivesItem derives ts n) (hn : Token.Numerals ts) {p : List Word}
    (hp : p.map token = ts) {w : Word} (hw : w.token = k.token) {q : List Word}
    {qs : List (List Word)} {ns : List (Node Unit)} (hs : Parts inner short k ws q qs ns) :
    Parts inner short k (p ++ w :: ws) p (q :: qs) (n.toList ++ ns) where
  cut := by rw [cut_joined (h.passed hd hp).2 hw, hs.cut, List.map_cons]
  ne_nil := List.forall_mem_cons.2 ⟨by rintro rfl; exact h.ne_nil hp.symm, hs.ne_nil⟩
  gives := (readPart_of_derivesItem hd hc h hn hp).collect_cons hs.gives

include hd hc in
theorem exists_parts_of_derivesItems {k : Logic} {ts : List Token} {ns : List (Node Unit)}
    (h : DerivesItems derives k ts ns) (hn : Token.Numerals ts) (hws : ws.map token = ts) :
    ∃ p ps, Parts inner short k ws p ps ns := by
  induction h generalizing ws with
  | last h => exact ⟨ws, [], parts_single hd hc h hn hws⟩
  | more h _ ih =>
    obtain ⟨p, us, rfl, hp, hus⟩ := List.map_eq_append_iff.1 hws
    obtain ⟨w, vs, rfl, hw, hvs⟩ := List.map_eq_cons_iff.1 hus
    obtain ⟨q, qs, hs⟩ := ih hn.right.tail hvs
    exact ⟨p, q :: qs, .cons hd hc h hn.left hp hw hs⟩

theorem Parts.ofWords_eq {k : Logic} {p : List Word} {ps : List (List Word)}
    {ns : List (Node Unit)} (h : Parts inner short k ws p ps ns) (hk : ps = [] → k = .and) :
    (Split.ofWords ws).1 = .parts k (p :: ps) :=
  Split.ofWords_eq_of_cut h.cut h.ne_nil hk

theorem readLevel_of_parts {room : Nat} {k : Logic} {ps : List (List Word)}
    (h : (Split.ofWords ws).1 = .parts k ps) {ns : List (Node Unit)}
    (hg : (Attempt.collect (ps.map (readPart (readLevel room)))).Gives short ns) :
    (readLevel (room + 1) ws).Gives short (some ⟨k, ns⟩) := by
  have hsplit : Split.ofWords ws = (.parts k ps, (Split.ofWords ws).2) := Prod.ext h rfl
  rw [readLevel, hsplit]
  obtain hg | ⟨hs, hg⟩ := hg
  · exact .inl (by simp only [hg, Option.map_some])
  · exact .inr ⟨hs, by simp only [hg, Option.map_none]⟩

end Complete

/-- **Levels** that can be derived are read as what they denote, unless there is too little room. -/
theorem readLevel_of_derives {depth : Nat} {ts : List Token} {l : Level}
    (h : Level.Derives depth ts l) (hn : Token.Numerals ts) {ws : List Word}
    (hws : ws.map Word.token = ts) (room : Nat) :
    (readLevel room ws).Gives (room < depth) (some l) := by
  induction depth generalizing room ts ws l with
  | zero => exact h.elim
  | succ depth ih =>
    cases room with
    | zero => exact .inr ⟨Nat.succ_pos depth, rfl⟩
    | succ room =>
      rw [Nat.succ_lt_succ_iff]
      have hd : ∀ vs l, Level.Derives depth (vs.map Word.token) l → Word.balanced 0 vs = true :=
        fun vs l hl => hl.balanced rfl
      have hc : ∀ vs l, Level.Derives depth (vs.map Word.token) l →
          Token.Numerals (vs.map Word.token) → (readLevel room vs).Gives (room < depth) (some l) :=
        fun vs l hl hn => ih hl hn rfl room
      cases h with
      | empty =>
        obtain rfl := List.map_eq_nil_iff.1 hws
        exact readLevel_of_parts (rfl : (Split.ofWords []).1 = .parts .and []) gives_nil
      | single h =>
        have hparts := @parts_single _ _ _ _ hd hc .and _ _ h hn hws
        exact readLevel_of_parts (hparts.ofWords_eq fun _ => rfl) hparts.gives
      | joined h hs =>
        obtain ⟨p, us, rfl, hp, hus⟩ := List.map_eq_append_iff.1 hws
        obtain ⟨w, vs, rfl, hw, hvs⟩ := List.map_eq_cons_iff.1 hus
        obtain ⟨q, qs, hs⟩ := exists_parts_of_derivesItems hd hc hs hn.right.tail hvs
        have hparts := hs.cons hd hc h hn.left hp hw
        exact readLevel_of_parts (hparts.ofWords_eq nofun) hparts.gives

/-! ## What the reader gives

Each function of the reader gives a result in one of a few ways. The lemmas here say which, with
what the result is put together from and with the warnings. -/

namespace Attempt

variable {a : Attempt (Option (Node Unit))} {as : List (Attempt (Option (Node Unit)))}
  {ns : List (Node Unit)} {warnings : List Warning}

theorem result_collect_cons_iff : (collect (a :: as)).result = some (ns, warnings) ↔
    ∃ n w ms more, a.result = some (n, w) ∧ (collect as).result = some (ms, more) ∧
      ns = n.toList ++ ms ∧ warnings = w ++ more := by
  constructor
  · intro h
    rw [collect] at h
    split at h
    · cases h
    · next n w hn =>
      obtain ⟨⟨ms, more⟩, hms, heq⟩ := Option.map_eq_some_iff.1 h
      obtain ⟨rfl, rfl⟩ := Prod.mk.inj heq
      exact ⟨n, w, ms, more, hn, hms, rfl, rfl⟩
  · rintro ⟨n, w, ms, more, hn, hms, rfl, rfl⟩
    simp only [collect, hn, hms, Option.map_some]

/-- What holds of nothing and is kept by each attempt holds of what they give together. -/
theorem collect_induction {P : List (Node Unit) → List Warning → Prop} (nil : P [] [])
    (cons : ∀ a ∈ as, ∀ n w ms more, a.result = some (n, w) → P ms more →
      P (n.toList ++ ms) (w ++ more))
    (h : (collect as).result = some (ns, warnings)) : P ns warnings := by
  induction as generalizing ns warnings with
  | nil =>
    obtain ⟨rfl, rfl⟩ := Prod.mk.inj (Option.some.inj h)
    exact nil
  | cons a as ih =>
    obtain ⟨n, w, ms, more, hn, hms, rfl, rfl⟩ := result_collect_cons_iff.1 h
    exact cons a List.mem_cons_self n w ms more hn
      (ih (fun b hb => cons b (List.mem_cons_of_mem a hb)) hms)

/-- What holds of all that attempts give holds of what they give together. -/
theorem forall_of_collect {P : Node Unit → Prop}
    (h : ∀ a ∈ as, ∀ n w, a.result = some (some n, w) → P n)
    (hns : (collect as).result = some (ns, warnings)) : ∀ n ∈ ns, P n := by
  refine collect_induction (P := fun ns _ => ∀ n ∈ ns, P n) (List.forall_mem_nil P)
    (fun a ha n w ms more hn hms => ?_) hns
  refine List.forall_mem_append.2 ⟨fun m hm => ?_, hms⟩
  obtain rfl := Option.mem_toList.1 hm
  exact h a ha m w hn

end Attempt

/-- A part is a level in parentheses, which is kept as a whole if it is not understood, or a
condition, or a fragment that is kept. -/
theorem readPart_outcomes {inner : List Word → Attempt (Option Level)} {ws : List Word}
    {n : Option (Node Unit)} {warnings : List Warning}
    (h : (readPart inner ws).result = some (n, warnings)) :
    (∃ body, Word.unwrap? ws = some body ∧ (inner body).result = some (none, warnings) ∧
        n = some (.raw () (Word.source body))) ∨
      (∃ body l, Word.unwrap? ws = some body ∧ (inner body).result = some (some l, warnings) ∧
        n = l.node?) ∨
      (∃ c, Word.unwrap? ws = none ∧ (Condition.ofTokens (ws.map Word.token)).1 = some c ∧
        n = some (.condition () c) ∧ warnings = []) ∨
      (Word.unwrap? ws = none ∧ (Condition.ofTokens (ws.map Word.token)).1 = none ∧
        n = some (.raw () (Word.source ws)) ∧ warnings = [.unrecognized (Word.source ws)]) := by
  unfold readPart at h
  split at h
  · next body hu =>
    obtain ⟨⟨l, w⟩, hl, heq⟩ := Option.map_eq_some_iff.1 h
    obtain ⟨rfl, rfl⟩ := Prod.mk.inj heq
    rcases l with _ | ⟨k, _ | ⟨c, cs⟩⟩
    · exact .inl ⟨body, hu, hl, rfl⟩
    · exact .inr (.inl ⟨body, _, hu, hl, rfl⟩)
    · exact .inr (.inl ⟨body, _, hu, hl, rfl⟩)
  · next hu =>
    split at h
    · next c m hc =>
      obtain ⟨rfl, rfl⟩ := Prod.mk.inj (Option.some.inj h)
      exact .inr (.inr (.inl ⟨c, hu, by rw [hc], rfl, rfl⟩))
    · next m hc =>
      obtain ⟨rfl, rfl⟩ := Prod.mk.inj (Option.some.inj h)
      exact .inr (.inr (.inr ⟨hu, by rw [hc], rfl, rfl⟩))

/-- A level is what its parts are read as, or it is not understood and reported as a whole. -/
theorem readLevel_outcomes {room : Nat} {ws : List Word} {l : Option Level}
    {warnings : List Warning} (h : (readLevel (room + 1) ws).result = some (l, warnings)) :
    (l = none ∧ ((Split.ofWords ws).1 = .ambiguous ∧ warnings = [.ambiguous (Word.source ws)] ∨
        (Split.ofWords ws).1 = .malformed ∧ warnings = [.unrecognized (Word.source ws)])) ∨
      ∃ k ps n ns, l = some ⟨k, ns⟩ ∧ Split.ofWords ws = (.parts k ps, n) ∧
        (Attempt.collect (ps.map (readPart (readLevel room)))).result = some (ns, warnings) := by
  rw [readLevel] at h
  split at h
  · next n hs =>
    obtain ⟨rfl, rfl⟩ := Prod.mk.inj (Option.some.inj h)
    exact .inl ⟨rfl, .inl ⟨by rw [hs], rfl⟩⟩
  · next n hs =>
    obtain ⟨rfl, rfl⟩ := Prod.mk.inj (Option.some.inj h)
    exact .inl ⟨rfl, .inr ⟨by rw [hs], rfl⟩⟩
  · next k ps n hs =>
    obtain ⟨⟨ns, w⟩, hns, heq⟩ := Option.map_eq_some_iff.1 h
    obtain ⟨rfl, rfl⟩ := Prod.mk.inj heq
    exact .inr ⟨k, ps, n, ns, rfl, hs, hns⟩

/-- The parts of a level are read by the same reader. -/
theorem forall_of_collect_readPart {inner : List Word → Attempt (Option Level)}
    {ps : List (List Word)} {P : Node Unit → Prop} {ns : List (Node Unit)} {warnings : List Warning}
    (h : ∀ p ∈ ps, ∀ n w, (readPart inner p).result = some (some n, w) → P n)
    (hns : (Attempt.collect (ps.map (readPart inner))).result = some (ns, warnings)) :
    ∀ n ∈ ns, P n :=
  Attempt.forall_of_collect (fun _ ha => by
    obtain ⟨p, hp, rfl⟩ := List.mem_map.1 ha
    exact h p hp) hns

/-! ## What is read can be derived -/

section Sound

open Word

variable {inner : List Word → Attempt (Option Level)} {derives : List Token → Level → Prop}
  {ws : List Word}

/-- What is not understood is reported. -/
theorem readLevel_ne_none {room : Nat} : (readLevel room ws).result ≠ some (none, []) := by
  cases room with
  | zero => exact nofun
  | succ room =>
    intro h
    obtain ⟨-, ⟨-, hw⟩ | ⟨-, hw⟩⟩ | ⟨k, ps, n, ns, hl, -, -⟩ := readLevel_outcomes h
    · cases hw
    · cases hw
    · cases hl

variable (hs : ∀ vs l, Token.Numerals (vs.map token) → (inner vs).result = some (some l, []) →
    derives (vs.map token) l)
  (hne : ∀ vs, (inner vs).result ≠ some (none, []))

include hs hne in
theorem derivesItem_of_readPart {n : Option (Node Unit)} (hn : Token.Numerals (ws.map token))
    (h : (readPart inner ws).result = some (n, [])) : DerivesItem derives (ws.map token) n := by
  obtain ⟨body, -, hl, -⟩ | ⟨body, l, hu, hl, rfl⟩ | ⟨c, -, hc, rfl, -⟩ | ⟨-, -, -, hw⟩ :=
    readPart_outcomes h
  · exact absurd hl (hne body)
  · obtain ⟨o, c, rfl, ho, hc, -⟩ := unwrap?_eq_some_iff.1 hu
    simp only [List.map_cons, List.map_append, List.map_nil, ho, hc] at hn ⊢
    exact .parenthesized (hs body l hn.tail.left hl)
  · exact .condition ((Condition.ofTokens_eq_iff hn).1 hc)
  · cases hw

theorem exists_of_collect_cons {a : Attempt (Option (Node Unit))}
    {as : List (Attempt (Option (Node Unit)))} {ns : List (Node Unit)}
    (h : (Attempt.collect (a :: as)).result = some (ns, [])) :
    ∃ n ms, a.result = some (n, []) ∧ (Attempt.collect as).result = some (ms, []) ∧
      ns = n.toList ++ ms := by
  obtain ⟨n, w, ms, more, hn, hms, rfl, hw⟩ := Attempt.result_collect_cons_iff.1 h
  obtain ⟨rfl, rfl⟩ := List.append_eq_nil_iff.1 hw.symm
  exact ⟨n, ms, hn, hms, rfl⟩

include hs hne in
theorem derivesItems_of_collect {k : Logic} {p : List Word} {ps : List (List Word)}
    {ns : List (Node Unit)}
    (hn : Token.Numerals (p.map token ++ ps.flatMap fun q => k.token :: q.map token))
    (h : (Attempt.collect ((p :: ps).map (readPart inner))).result = some (ns, [])) :
    DerivesItems derives k (p.map token ++ ps.flatMap fun q => k.token :: q.map token) ns := by
  induction ps generalizing p ns with
  | nil =>
    obtain ⟨n, ms, hp, hms, rfl⟩ := exists_of_collect_cons h
    obtain rfl : [] = ms := congrArg Prod.fst (Option.some.inj hms)
    rw [List.flatMap_nil, List.append_nil] at hn ⊢
    rw [List.append_nil]
    exact .last (derivesItem_of_readPart hs hne hn hp)
  | cons q ps ih =>
    obtain ⟨n, ms, hp, hms, rfl⟩ := exists_of_collect_cons h
    rw [List.flatMap_cons] at hn ⊢
    exact .more (derivesItem_of_readPart hs hne hn.left hp) (ih hn.right.tail hms)

end Sound

/-- What is read without a warning can be derived. -/
theorem derives_of_readLevel {room : Nat} {ws : List Word} {l : Level}
    (hn : Token.Numerals (ws.map Word.token))
    (h : (readLevel room ws).result = some (some l, [])) :
    Level.Derives room (ws.map Word.token) l := by
  induction room generalizing ws l with
  | zero => cases h
  | succ room ih =>
    have hs : ∀ vs l, Token.Numerals (vs.map Word.token) →
        (readLevel room vs).result = some (some l, []) →
          Level.Derives room (vs.map Word.token) l := fun vs l hn h => ih hn h
    obtain ⟨hnone, -⟩ | ⟨k, ps, n, ns, hl, hsplit, hcollect⟩ := readLevel_outcomes h
    · cases hnone
    · obtain rfl := Option.some.inj hl
      obtain ⟨rfl, rfl, rfl⟩ | ⟨p, more, rfl, hk, -, htokens⟩ := Split.eq_of_ofWords hsplit
      · obtain rfl : [] = ns := congrArg Prod.fst (Option.some.inj hcollect)
        exact .empty
      · rw [htokens] at hn ⊢
        cases more with
        | nil =>
          obtain rfl := hk rfl
          obtain ⟨m, ms, hp, hms, rfl⟩ := exists_of_collect_cons hcollect
          obtain rfl : [] = ms := congrArg Prod.fst (Option.some.inj hms)
          rw [List.flatMap_nil, List.append_nil] at hn ⊢
          rw [List.append_nil]
          exact .single (derivesItem_of_readPart hs (fun _ => readLevel_ne_none) hn hp)
        | cons q qs =>
          obtain ⟨m, ms, hp, hms, rfl⟩ := exists_of_collect_cons hcollect
          rw [List.flatMap_cons] at hn ⊢
          exact .joined (derivesItem_of_readPart hs (fun _ => readLevel_ne_none) hn.left hp)
            (derivesItems_of_collect hs (fun _ => readLevel_ne_none) hn.right.tail hms)

end SqlFilter
