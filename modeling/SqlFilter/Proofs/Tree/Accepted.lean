import SqlFilter.Proofs.Tree.Grammar
import SqlFilter.Proofs.Tree.Steps

/-!
# The texts that are understood

A text is understood as a whole, without a warning and without raw SQL, exactly if its tokens are a
level of the grammar (`Reading.understood_iff_derives`). The tree is then the one that the level
denotes, one pair of parentheses around the whole text being absorbed into the root.
-/

namespace SqlFilter

open Word

/-! ## Trees without raw SQL -/

section RawFree

variable {ι : Type}

/-- No leaf is raw SQL. -/
def Node.AllRawFree (ns : List (Node ι)) : Prop := ∀ leaf ∈ allLeaves ns, leaf.2 ≠ none

/-- The tree has no raw SQL. -/
def Tree.RawFree (t : Tree ι) : Prop := Node.AllRawFree t.children

theorem Node.allLeaves_append (ns ms : List (Node ι)) :
    allLeaves (ns ++ ms) = allLeaves ns ++ allLeaves ms := by
  induction ns with
  | nil => rfl
  | cons n ns ih => rw [List.cons_append, allLeaves, allLeaves, ih, List.append_assoc]

theorem Node.allRawFree_nil : AllRawFree ([] : List (Node ι)) :=
  fun _ h => absurd h List.not_mem_nil

theorem Node.AllRawFree.append {ns ms : List (Node ι)} (hn : AllRawFree ns) (hm : AllRawFree ms) :
    AllRawFree (ns ++ ms) := by
  rw [AllRawFree, allLeaves_append]
  exact List.forall_mem_append.2 ⟨hn, hm⟩

theorem Level.rawFree_node? {l : Level} (h : Node.AllRawFree l.children) :
    Node.AllRawFree l.node?.toList := by
  obtain ⟨k, ns⟩ := l
  cases ns with
  | nil => exact Node.allRawFree_nil
  | cons n ns =>
    intro leaf hleaf
    simp only [node?, Option.toList_some, Node.allLeaves, Node.leaves, List.append_nil] at hleaf
    exact h leaf hleaf

theorem DerivesItem.rawFree {derives : List Token → Level → Prop}
    (hd : ∀ ts l, derives ts l → Node.AllRawFree l.children) {ts : List Token}
    {n : Option (Node Unit)} (h : DerivesItem derives ts n) : Node.AllRawFree n.toList := by
  cases h with
  | parenthesized h => exact Level.rawFree_node? (hd _ _ h)
  | condition h =>
    intro leaf hleaf
    obtain rfl := List.mem_singleton.1 hleaf
    exact nofun

theorem DerivesItems.rawFree {derives : List Token → Level → Prop}
    (hd : ∀ ts l, derives ts l → Node.AllRawFree l.children) {k : Logic} {ts : List Token}
    {ns : List (Node Unit)} (h : DerivesItems derives k ts ns) : Node.AllRawFree ns := by
  induction h with
  | last h => exact h.rawFree hd
  | more h _ ih => exact (h.rawFree hd).append ih

theorem Level.Derives.rawFree {depth : Nat} {ts : List Token} {l : Level}
    (h : Level.Derives depth ts l) : Node.AllRawFree l.children := by
  induction depth generalizing ts l with
  | zero => exact h.elim
  | succ depth ih =>
    cases h with
    | empty => exact Node.allRawFree_nil
    | single h => exact h.rawFree fun _ _ => ih
    | joined h hs => exact (h.rawFree fun _ _ => ih).append (hs.rawFree fun _ _ => ih)

end RawFree

/-! ## Whole texts -/

/-- What the tokens of a whole text denote: what stands in parentheses if that is all there is, the
level that they are otherwise. -/
inductive DerivesText : List Token → Level → Prop
  | absorbed {depth : Nat} {ts : List Token} {l : Level} (h : Level.Derives depth ts l) :
      DerivesText (.leftParen :: (ts ++ [.rightParen])) l
  | plain {depth : Nat} {ts : List Token} {l : Level} (h : Level.Derives depth ts l)
      (hp : ∀ us depth' l', ts = .leftParen :: (us ++ [.rightParen]) →
        ¬ Level.Derives depth' us l') : DerivesText ts l

theorem DerivesText.exists_derives {ts : List Token} {l : Level} (h : DerivesText ts l) :
    ∃ depth l', Level.Derives depth ts l' := by
  cases h with
  | @absorbed depth _ _ h => exact ⟨depth + 1, _, .single (.parenthesized h)⟩
  | plain h => exact ⟨_, _, h⟩

theorem exists_derivesText {depth : Nat} {ts : List Token} {l : Level}
    (h : Level.Derives depth ts l) : ∃ l', DerivesText ts l' := by
  by_cases hp : ∃ us depth' l', ts = .leftParen :: (us ++ [.rightParen]) ∧
      Level.Derives depth' us l'
  · obtain ⟨us, depth', l', rfl, h'⟩ := hp
    exact ⟨l', .absorbed h'⟩
  · exact ⟨l, .plain h fun us depth' l' hts h' => hp ⟨us, depth', l', hts, h'⟩⟩

theorem DerivesText.rawFree {ts : List Token} {l : Level} (h : DerivesText ts l) :
    Node.AllRawFree l.children := by
  cases h with
  | absorbed h => exact h.rawFree
  | plain h => exact h.rawFree

/-- What stands in parentheses within a level that they make up is a level itself. -/
theorem exists_derives_of_unwrap? {depth : Nat} {ws body : List Word} {l : Level}
    (h : Level.Derives depth (ws.map token) l) (hu : unwrap? ws = some body) :
    ∃ depth' l', Level.Derives depth' (body.map token) l' := by
  obtain ⟨o, c, rfl, ho, hc, hb⟩ := unwrap?_eq_some_iff.1 hu
  generalize hts : (o :: (body ++ [c])).map token = ts at h
  cases depth with
  | zero => exact h.elim
  | succ depth =>
    cases h with
    | empty => cases hts
    | single h =>
      cases h with
      | parenthesized h =>
        have htail := (List.cons.inj hts).2
        rw [List.map_append] at htail
        exact ⟨depth, _, List.append_inj_left' htail rfl ▸ h⟩
      | condition h =>
        rw [h.unwrap?_eq hts] at hu
        cases hu
    | joined h hs =>
      -- the cut would find a connective where it only passes over parentheses
      obtain ⟨p, us, hws, hp, hus⟩ := List.map_eq_append_iff.1 hts
      obtain ⟨w, vs, rfl, hw, -⟩ := List.map_eq_cons_iff.1 hus
      have hpass := (h.passed (fun _ _ hl => hl.balanced rfl) hp).2
      have hcut := cut_last (carry_parenthesized ho hc hb false)
      rw [hws, cut_joined hpass hw] at hcut
      cases congrArg Prod.snd hcut

theorem DerivesText.eq_of_nil {l : Level} (h : DerivesText [] l) : l = ⟨.and, []⟩ := by
  generalize hts : ([] : List Token) = ts at h
  cases h with
  | absorbed h => cases hts
  | @plain depth _ _ h =>
    cases depth with
    | zero => exact h.elim
    | succ depth =>
      cases h with
      | empty => rfl
      | single h => exact absurd hts.symm h.ne_nil
      | joined h hs => exact absurd hts.symm (List.append_ne_nil_of_right_ne_nil _ nofun)

theorem derivesText_nil : DerivesText [] ⟨.and, []⟩ :=
  @DerivesText.plain 1 [] _ .empty nofun

/-! ## Warnings of fragments -/

/-- The warning is about a fragment of the text. -/
def Warning.IsLocal : Warning → Prop
  | ambiguous _ | unrecognized _ => True
  | unbalanced | timeout _ => False

section Local

/-- All that the attempt warns of are fragments. -/
def Attempt.IsLocal {α : Type} (a : Attempt α) : Prop :=
  ∀ x warnings, a.result = some (x, warnings) → ∀ w ∈ warnings, w.IsLocal

theorem Attempt.IsLocal.timeout_notMem {α : Type} {a : Attempt α} (h : a.IsLocal) {x : α}
    {warnings : List Warning} (hx : a.result = some (x, warnings)) (n : Nat) :
    .timeout n ∉ warnings := fun hn => h x warnings hx (.timeout n) hn

theorem Attempt.isLocal_collect {as : List (Attempt (Option (Node Unit)))}
    (h : ∀ a ∈ as, a.IsLocal) : (collect as).IsLocal := fun _ _ =>
  collect_induction (P := fun _ warnings => ∀ w ∈ warnings, w.IsLocal) (List.forall_mem_nil _)
    fun a ha n w _ _ hn hmore => List.forall_mem_append.2 ⟨h a ha n w hn, hmore⟩

theorem isLocal_readPart {inner : List Word → Attempt (Option Level)}
    (h : ∀ ws, (inner ws).IsLocal) (ws : List Word) : (readPart inner ws).IsLocal := by
  intro n warnings hn
  obtain ⟨body, -, hl, -⟩ | ⟨body, l, -, hl, -⟩ | ⟨c, -, -, -, rfl⟩ | ⟨-, -, -, rfl⟩ :=
    readPart_outcomes hn
  · exact h body none warnings hl
  · exact h body (some l) warnings hl
  · exact List.forall_mem_nil _
  · exact List.forall_mem_singleton.2 trivial

theorem isLocal_readLevel (room : Nat) (ws : List Word) : (readLevel room ws).IsLocal := by
  induction room generalizing ws with
  | zero => exact nofun
  | succ room ih =>
    intro l warnings hl
    obtain ⟨-, ⟨-, rfl⟩ | ⟨-, rfl⟩⟩ | ⟨k, ps, n, ns, -, -, hns⟩ := readLevel_outcomes hl
    · exact List.forall_mem_singleton.2 trivial
    · exact List.forall_mem_singleton.2 trivial
    · refine Attempt.isLocal_collect (fun a ha => ?_) ns warnings hns
      obtain ⟨p, -, rfl⟩ := List.mem_map.1 ha
      exact isLocal_readPart ih p

end Local

/-! ## Reading a whole text -/

/-- The tokens of a text, without its comments. -/
def Limits.tokens (limits : Limits) (text : String) : List Token :=
  (Word.ofText limits.dialect.backslashEscapes text).map token

namespace Reading

variable {limits : Limits} {ws : List Word} {r : Reading}

/-- The attempt at the words of a text, without one pair of parentheses around them all. -/
def top (limits : Limits) (ws : List Word) : Attempt (Option Level) :=
  readLevel limits.maxDepth ((unwrap? ws).getD ws)

/-- What the words are read as, if they fit into the limits. -/
theorem ofWords_cases (h : ofWords limits ws = .ok r) :
    (ws = [] ∧ r = ⟨.group () .and [], []⟩) ∨
      (balanced 0 ws = false ∧ r = ⟨.raw () (source ws), [.unbalanced]⟩) ∨
      (r = ⟨.raw () (source ws), [.timeout (limits.steps + 1)]⟩) ∨
      balanced 0 ws = true ∧ ∃ l warnings, (top limits ws).result = some (l, warnings) ∧
        r = match (l : Option Level) with
          | none => ⟨.raw () (source ws), warnings⟩
          | some l => ⟨.group () l.logic l.children, warnings⟩ := by
  simp only [ofWords] at h
  split_ifs at h with hws hb ht
  · exact .inl ⟨hws, (Except.ok.inj h).symm⟩
  · exact .inr (.inl ⟨hb, (Except.ok.inj h).symm⟩)
  · exact .inr (.inr (.inl (Except.ok.inj h).symm))
  · refine .inr (.inr (.inr ⟨(Bool.not_eq_false _).mp hb, ?_⟩))
    split at h
    · cases h
    · next warnings hl => exact ⟨none, warnings, hl, (Except.ok.inj h).symm⟩
    · next l warnings hl => exact ⟨some l, warnings, hl, (Except.ok.inj h).symm⟩

/-- Words that are kept as a whole are the only child of the root. -/
theorem root_of_isRaw (h : ofWords limits ws = .ok r) (hraw : r.node.isRaw = true) :
    ws ≠ [] ∧ r.root = ⟨(), .and, [.raw () (source ws)]⟩ := by
  have hne : ws ≠ [] := by
    intro hnil
    rw [ofWords, if_pos hnil] at h
    rw [← Except.ok.inj h] at hraw
    exact absurd hraw Bool.false_ne_true
  refine ⟨hne, ?_⟩
  obtain ⟨hnil, -⟩ | ⟨-, rfl⟩ | rfl | ⟨-, l, warnings, -, rfl⟩ := ofWords_cases h
  · exact absurd hnil hne
  · rfl
  · rfl
  · cases l with
    | none => rfl
    | some l => exact absurd hraw Bool.false_ne_true

/-- All other words are nothing, or a level with matching parentheses. -/
theorem understood_cases (h : ofWords limits ws = .ok r) (hraw : r.node.isRaw = false) :
    (ws = [] ∧ r.root = ⟨(), .and, []⟩) ∨ balanced 0 ws = true ∧ ∃ l warnings,
      (top limits ws).result = some (some l, warnings) ∧ r.root = ⟨(), l.logic, l.children⟩ := by
  obtain ⟨hnil, rfl⟩ | ⟨-, rfl⟩ | rfl | ⟨hb, l, warnings, htop, rfl⟩ := ofWords_cases h
  · exact .inl ⟨hnil, rfl⟩
  · exact absurd hraw Bool.true_eq_false.mp
  · exact absurd hraw Bool.true_eq_false.mp
  · cases l with
    | none => exact absurd hraw Bool.true_eq_false.mp
    | some l => exact .inr ⟨hb, l, warnings, htop, rfl⟩

theorem ofText_empty (limits : Limits) : ofText limits "" = .ok ⟨.group () .and [], []⟩ := by
  simp [ofText, ofWords, Word.ofText, Piece.ofText, Word.ofPieces]

theorem ofWords_of_top {l : Level} {warnings : List Warning} (hws : ws ≠ [])
    (hb : balanced 0 ws = true) (hsteps : (top limits ws).steps ≤ limits.steps)
    (ht : (top limits ws).result = some (some l, warnings)) :
    ofWords limits ws = .ok ⟨.group () l.logic l.children, warnings⟩ := by
  unfold top at hsteps ht
  simp only [ofWords, if_neg hws, hb, Bool.true_eq_false, if_false, if_neg (Nat.not_lt.2 hsteps),
    ht]

/-- One pair of parentheses around everything is absorbed. -/
theorem top_of_parenthesized {depth : Nat} {ts : List Token} {l : Level}
    (h : Level.Derives depth ts l) (hn : Token.Numerals ts)
    (hws : ws.map token = .leftParen :: (ts ++ [.rightParen])) :
    balanced 0 ws = true ∧ (top limits ws).Gives (limits.maxDepth < depth) (some l) := by
  obtain ⟨o, body, c, rfl, ho, rfl, hc⟩ := exists_of_map_parenthesized hws
  have hb := h.balanced rfl
  refine ⟨balanced_parenthesized ho hc hb [], ?_⟩
  rw [top, unwrap?_eq_some_iff.2 ⟨o, c, rfl, ho, hc, hb⟩]
  exact readLevel_of_derives h hn rfl _

theorem top_of_derivesText {l : Level} (hn : Token.Numerals (ws.map token))
    (h : DerivesText (ws.map token) l) :
    balanced 0 ws = true ∧ ∃ depth, (top limits ws).Gives (limits.maxDepth < depth) (some l) := by
  generalize hts : ws.map token = ts at h hn
  cases h with
  | @absorbed depth us _ h =>
    obtain ⟨hb, hg⟩ := @top_of_parenthesized limits ws depth us l h hn.tail.left hts
    exact ⟨hb, depth, hg⟩
  | @plain depth _ _ h hp =>
    have hu : unwrap? ws = none := by
      refine Option.eq_none_iff_forall_ne_some.2 fun body hu => ?_
      obtain ⟨depth', l', hbody⟩ := exists_derives_of_unwrap? (hts ▸ h) hu
      obtain ⟨o, c, rfl, ho, hc, -⟩ := unwrap?_eq_some_iff.1 hu
      refine hp _ depth' l' ?_ hbody
      rw [← hts, List.map_cons, List.map_append, ho, List.map_cons, hc, List.map_nil]
    refine ⟨h.balanced hts, depth, ?_⟩
    rw [top, hu]
    exact readLevel_of_derives h hn hts _

/-- A text that can be derived is read as what it denotes, unless it goes beyond the limits. -/
theorem eq_of_derivesText {l : Level} (hn : Token.Numerals (ws.map token))
    (h : ofWords limits ws = .ok r) (ht : ∀ n, .timeout n ∉ r.warnings)
    (hd : DerivesText (ws.map token) l) : r = ⟨.group () l.logic l.children, []⟩ := by
  obtain ⟨hb, depth, hg⟩ := @top_of_derivesText limits ws l hn hd
  obtain ⟨rfl, rfl⟩ | ⟨hb', -⟩ | rfl | ⟨-, l', warnings, htop, rfl⟩ := ofWords_cases h
  · rw [DerivesText.eq_of_nil hd]
  · exact absurd hb (by rw [hb']; exact Bool.false_ne_true)
  · exact absurd List.mem_cons_self (ht _)
  · obtain hg | ⟨-, hg⟩ := hg
    · rw [htop] at hg
      obtain ⟨rfl, rfl⟩ := Prod.mk.inj (Option.some.inj hg)
      rfl
    · rw [htop] at hg
      cases hg

/-- A text that is read without a warning can be derived. -/
theorem exists_derivesText_of_warnings (hn : Token.Numerals (ws.map token))
    (h : ofWords limits ws = .ok r) (hw : r.warnings = []) :
    ∃ l, DerivesText (ws.map token) l ∧ r = ⟨.group () l.logic l.children, []⟩ := by
  obtain ⟨rfl, rfl⟩ | ⟨-, rfl⟩ | rfl | ⟨-, l, warnings, htop, rfl⟩ := ofWords_cases h
  · exact ⟨_, derivesText_nil, rfl⟩
  · cases hw
  · cases hw
  · cases l with
    | none =>
      obtain rfl : warnings = [] := hw
      exact absurd htop readLevel_ne_none
    | some l =>
      obtain rfl : warnings = [] := hw
      refine ⟨l, ?_, rfl⟩
      unfold top at htop
      cases hu : unwrap? ws with
      | some body =>
        obtain ⟨o, c, rfl, ho, hc, -⟩ := unwrap?_eq_some_iff.1 hu
        rw [List.map_cons, List.map_append, ho, List.map_cons, hc, List.map_nil] at hn ⊢
        rw [hu] at htop
        exact .absorbed (derives_of_readLevel hn.tail.left htop)
      | none =>
        rw [hu] at htop
        refine .plain (derives_of_readLevel hn htop) fun us depth l' hts hl' => ?_
        obtain ⟨o, body, c, rfl, ho, rfl, hc⟩ := exists_of_map_parenthesized hts
        rw [unwrap?_eq_some_iff.2 ⟨o, c, rfl, ho, hc, hl'.balanced rfl⟩] at hu
        cases hu

theorem length_getD_unwrap? (ws : List Word) : ((unwrap? ws).getD ws).length ≤ ws.length := by
  cases hu : unwrap? ws with
  | none => exact Nat.le_refl _
  | some body =>
    have := length_of_unwrap? hu
    rw [Option.getD_some]
    omega

theorem steps_top_le (hexp : limits.expired = false)
    (hsteps : ws.length * (limits.maxDepth + 1) ≤ limits.stepBudget) :
    (top limits ws).steps ≤ limits.steps := by
  rw [Limits.steps, hexp]
  exact (steps_readLevel_le _ _).trans
    ((Nat.mul_le_mul_right _ (length_getD_unwrap? ws)).trans hsteps)

/-- There are steps enough for few words, and then only too little room keeps a text from being
read. -/
theorem exists_ofWords (hexp : limits.expired = false)
    (hsteps : ws.length * (limits.maxDepth + 1) ≤ limits.stepBudget)
    (hroom : (top limits ws).result ≠ none) :
    ∃ r, ofWords limits ws = .ok r ∧ ∀ n, .timeout n ∉ r.warnings := by
  have hle : (top limits ws).steps ≤ limits.steps := steps_top_le hexp hsteps
  have hlocal := isLocal_readLevel limits.maxDepth ((unwrap? ws).getD ws)
  unfold top at hle hroom
  simp only [ofWords]
  split_ifs with hws hb ht
  · exact ⟨_, rfl, fun n hn => nomatch hn⟩
  · exact ⟨_, rfl, fun n hn => nomatch List.mem_singleton.1 hn⟩
  · exact absurd hle (Nat.not_le.2 ht)
  · split
    · next hn => exact absurd hn hroom
    · next warnings hl => exact ⟨_, rfl, fun n => hlocal.timeout_notMem hl n⟩
    · next l warnings hl => exact ⟨_, rfl, fun n => hlocal.timeout_notMem hl n⟩

/-- **Understood texts.** Within its limits, the reader warns of nothing and keeps no raw SQL
exactly if the tokens are a level of the grammar, and then gives the tree that they denote. -/
theorem understood_iff_derives (limits : Limits) (text : String) :
    (∀ r, ofText limits text = .ok r → (∀ n, .timeout n ∉ r.warnings) →
      (r.warnings = [] ∧ r.root.RawFree ↔ ∃ depth l, Level.Derives depth (limits.tokens text) l) ∧
        ∀ l, DerivesText (limits.tokens text) l ↔ r = ⟨.group () l.logic l.children, []⟩) ∧
      (limits.expired = false → (limits.tokens text).length < limits.maxDepth →
        (limits.tokens text).length * (limits.maxDepth + 1) ≤ limits.stepBudget →
          ∃ r, ofText limits text = .ok r ∧ ∀ n, .timeout n ∉ r.warnings) := by
  have hn : Token.Numerals (limits.tokens text) := numerals_ofText _ text
  have hderives : ∀ r, ofText limits text = .ok r → r.warnings = [] →
      ∃ l, DerivesText (limits.tokens text) l ∧ r = ⟨.group () l.logic l.children, []⟩ :=
    fun r h hw => exists_derivesText_of_warnings hn h hw
  have hread : ∀ r, ofText limits text = .ok r → (∀ n, .timeout n ∉ r.warnings) →
      ∀ l, DerivesText (limits.tokens text) l → r = ⟨.group () l.logic l.children, []⟩ :=
    fun r h ht l hd => eq_of_derivesText hn h ht hd
  refine ⟨fun r h ht => ⟨⟨?_, ?_⟩, fun l => ⟨hread r h ht l, ?_⟩⟩, fun hexp hlen hsteps => ?_⟩
  · rintro ⟨hw, -⟩
    obtain ⟨l, hd, -⟩ := hderives r h hw
    exact hd.exists_derives
  · rintro ⟨depth, l, hd⟩
    obtain ⟨l', hd'⟩ := exists_derivesText hd
    rw [hread r h ht l' hd']
    exact ⟨rfl, hd'.rawFree⟩
  · intro hr
    obtain ⟨l', hd', hr'⟩ := hderives r h (by rw [hr])
    obtain ⟨-, hk, hcs⟩ := Node.group.inj (congrArg node (hr.symm.trans hr'))
    have hl : l = l' := by
      cases l
      cases l'
      exact Level.mk.injEq .. ▸ ⟨hk, hcs⟩
    rwa [hl]
  · rw [Limits.tokens, List.length_map] at hlen hsteps
    refine exists_ofWords hexp hsteps (readLevel_ne_none_of_length_lt ?_)
    exact (length_getD_unwrap? _).trans_lt hlen

theorem understood_parenthesized :
    (∃ depth l, Level.Derives depth (({} : Limits).tokens "(a = 1 OR ())") l) ∧
      ∃ r, ofText { maxDepth := 9 } "(a = 1 OR ())" = .ok r ∧ ∀ n, .timeout n ∉ r.warnings := by
  have h : ofText {} "(a = 1 OR ())" = .ok ⟨.group () .or
      [.condition () ⟨"", "a", .eq, some (.single (.integer 1)), none, .atWhere⟩], []⟩ := by
    cbv
  refine ⟨((understood_iff_derives {} _).1 _ h (fun _ => List.not_mem_nil)).1.1 ⟨rfl, ?_⟩,
    (understood_iff_derives { maxDepth := 9 } _).2 rfl (by decide +kernel) (by decide +kernel)⟩
  refine List.forall_mem_singleton.2 fun h => ?_
  cases h

end Reading

end SqlFilter
