import SqlFilter.Proofs.Lists
import SqlFilter.Proofs.Token.Spacing
import SqlFilter.Proofs.Tree.Uncommented

/-!
# Texts that are read alike

The reader looks at tokens only. Words of the same tokens are cut at the same places, take the same
steps and are read as trees that differ in nothing but the text of raw SQL, and that text has the
same tokens (`readLevel_alike`). Since layout in front of a token does not change the tokens of a
text, it does not change what the text is read as (`Reading.ofText_insert`).
-/

namespace SqlFilter

open Word

/-! ## Alike -/

variable (escapes : Bool)

/-- The words stand in texts and have the same tokens. -/
structure Word.Alike (ws vs : List Word) : Prop where
  left : InText escapes ws
  right : InText escapes vs
  tokens : ws.map token = vs.map token

/-- The cuts are the same, up to the layout of the words. -/
inductive Split.Alike : Split → Split → Prop
  | parts (k : Logic) {ps qs : List (List Word)} (h : List.Forall₂ (Word.Alike escapes) ps qs) :
      Alike (.parts k ps) (.parts k qs)
  | ambiguous : Alike .ambiguous .ambiguous
  | malformed : Alike .malformed .malformed

/-- The nodes are the same, except that raw SQL may be any text that is lexed as the same tokens. -/
inductive Node.Alike : Node Unit → Node Unit → Prop
  | condition (c : Condition) : Alike (.condition () c) (.condition () c)
  | group (k : Logic) {ns ms : List (Node Unit)} (h : List.Forall₂ Alike ns ms) :
      Alike (.group () k ns) (.group () k ms)
  | raw {s u : String} (h : lexed escapes s = lexed escapes u) : Alike (.raw () s) (.raw () u)

/-- The warnings are the same, except that fragments may be any texts that are lexed as the same
tokens. -/
inductive Warning.Alike : Warning → Warning → Prop
  | ambiguous {s u : String} (h : lexed escapes s = lexed escapes u) :
      Alike (.ambiguous s) (.ambiguous u)
  | unrecognized {s u : String} (h : lexed escapes s = lexed escapes u) :
      Alike (.unrecognized s) (.unrecognized u)
  | unbalanced : Alike .unbalanced .unbalanced
  | timeout (n : Nat) : Alike (.timeout n) (.timeout n)

/-- The levels are the same, up to raw SQL. -/
structure Level.Alike (l m : Level) : Prop where
  logic : l.logic = m.logic
  children : List.Forall₂ (Node.Alike escapes) l.children m.children

/-- The attempts take the same steps, and give the same up to raw SQL. -/
structure Attempt.Alike {α : Type} (R : α → α → Prop) (a b : Attempt α) : Prop where
  steps : a.steps = b.steps
  result : Option.Rel (fun x y => R x.1 y.1 ∧ List.Forall₂ (Warning.Alike escapes) x.2 y.2)
    a.result b.result

/-- The readings are the same, up to raw SQL and the fragments that are warned of. -/
structure Reading.Alike (r s : Reading) : Prop where
  node : Node.Alike escapes r.node s.node
  warnings : List.Forall₂ (Warning.Alike escapes) r.warnings s.warnings

/-- The outcomes are the same error, or readings that are the same up to raw SQL. -/
inductive Reading.SameOutcome : Except Error Reading → Except Error Reading → Prop
  | error (e : Error) : SameOutcome (.error e) (.error e)
  | ok {r s : Reading} (h : Reading.Alike escapes r s) : SameOutcome (.ok r) (.ok s)

variable {escapes}

/-! ## Cuts -/

namespace Word

variable {ws vs : List Word}

theorem InText.of_unwrap? {body : List Word} (h : InText escapes ws)
    (hu : unwrap? ws = some body) : InText escapes body := by
  obtain ⟨o, c, rfl, -⟩ := unwrap?_eq_some_iff.1 hu
  exact (@InText.right escapes [o] _ h).left

theorem InText.of_mem_cut {p : List Word} (h : InText escapes ws)
    (hp : p ∈ (cut 0 false ws).1 :: (cut 0 false ws).2.map Prod.snd) : InText escapes p := by
  obtain ⟨us, rest, rfl⟩ := exists_append_of_mem hp
  exact h.right.left

namespace Alike

theorem length_eq (h : Alike escapes ws vs) : ws.length = vs.length := by
  have := congrArg List.length h.tokens
  rwa [List.length_map, List.length_map] at this

theorem eq_nil_iff (h : Alike escapes ws vs) : ws = [] ↔ vs = [] := by
  rw [← List.length_eq_zero_iff, h.length_eq, List.length_eq_zero_iff]

/-- What is kept of words is lexed as their tokens. -/
theorem lexed_eq (h : Alike escapes ws vs) : lexed escapes (source ws) = lexed escapes (source vs) :=
  calc lexed escapes (source ws)
    _ = ws.map token := (lexed_source h.left).2
    _ = vs.map token := h.tokens
    _ = lexed escapes (source vs) := (lexed_source h.right).2.symm

theorem unwrap? (h : Alike escapes ws vs) :
    Option.Rel (Alike escapes) (Word.unwrap? ws) (Word.unwrap? vs) := by
  cases hu : Word.unwrap? ws with
  | none =>
    rw [unwrap?_eq_none_congr h.tokens hu]
    exact .none
  | some body =>
    obtain ⟨body', hu', htokens⟩ := exists_unwrap?_congr h.tokens hu
    rw [hu']
    exact .some ⟨h.left.of_unwrap? hu, h.right.of_unwrap? hu', htokens.symm⟩

/-- Words of the same tokens are cut into parts of the same tokens. -/
theorem cut (h : Alike escapes ws vs) :
    Alike escapes (Word.cut 0 false ws).1 (Word.cut 0 false vs).1 ∧
      List.Forall₂ (fun x y => x.1 = y.1 ∧ Alike escapes x.2 y.2) (Word.cut 0 false ws).2
        (Word.cut 0 false vs).2 := by
  obtain ⟨hpart, hmore⟩ := cut_congr h.tokens 0 false
  have hws := fun p => @InText.of_mem_cut escapes ws p h.left
  have hvs := fun p => @InText.of_mem_cut escapes vs p h.right
  obtain ⟨hp, hps⟩ := List.forall_mem_cons.1 hws
  obtain ⟨hq, hqs⟩ := List.forall_mem_cons.1 hvs
  refine ⟨⟨hp, hq, hpart⟩, forall₂_of_map_eq hmore ?_⟩
  intro x hx y hy hxy
  obtain ⟨hk, htokens⟩ := Prod.mk.inj hxy
  exact ⟨hk, hps _ (List.mem_map_of_mem hx), hqs _ (List.mem_map_of_mem hy), htokens⟩

end Alike

end Word

namespace Split

theorem check_alike {seen : Option Logic} {part part' : List Word}
    {more more' : List (Logic × List Word)} (hp : Word.Alike escapes part part')
    (hm : List.Forall₂ (fun x y => x.1 = y.1 ∧ Word.Alike escapes x.2 y.2) more more') :
    Alike escapes (check seen part more).1 (check seen part' more').1 ∧
      (check seen part more).2 = (check seen part' more').2 := by
  induction hm generalizing seen part part' with
  | nil =>
    rw [check, check]
    by_cases hnil : part = []
    · rw [if_pos hnil, if_pos (hp.eq_nil_iff.1 hnil)]
      exact ⟨.malformed, rfl⟩
    · rw [if_neg hnil, if_neg (mt hp.eq_nil_iff.2 hnil)]
      exact ⟨.parts _ (.cons hp .nil), hp.length_eq⟩
  | @cons x y more more' hx hm ih =>
    obtain ⟨k, next⟩ := x
    obtain ⟨k', next'⟩ := y
    obtain ⟨rfl, hnext⟩ : k = k' ∧ Word.Alike escapes next next' := hx
    obtain ⟨hrest, hsteps⟩ := @ih (some k) next next' hnext
    rw [check, check]
    by_cases hseen : seen.any (· ≠ k) = true
    · rw [if_pos hseen, if_pos hseen, hp.length_eq]
      exact ⟨.ambiguous, rfl⟩
    rw [if_neg hseen, if_neg hseen]
    by_cases hnil : part = []
    · rw [if_pos hnil, if_pos (hp.eq_nil_iff.1 hnil)]
      exact ⟨.malformed, rfl⟩
    rw [if_neg hnil, if_neg (mt hp.eq_nil_iff.2 hnil)]
    refine ⟨?_, ?_⟩
    · dsimp only
      generalize (check (some k) next more).1 = s at hrest
      generalize (check (some k) next' more').1 = s' at hrest
      cases hrest with
      | parts k hps => exact .parts k (.cons hp hps)
      | ambiguous => exact .ambiguous
      | malformed => exact .malformed
    · show part.length + 1 + (check (some k) next more).2 = _
      rw [hp.length_eq, hsteps]

theorem ofWords_alike {ws vs : List Word} (h : Word.Alike escapes ws vs) :
    Alike escapes (ofWords ws).1 (ofWords vs).1 ∧ (ofWords ws).2 = (ofWords vs).2 := by
  unfold ofWords
  by_cases hnil : ws = []
  · rw [if_pos hnil, if_pos (h.eq_nil_iff.1 hnil)]
    exact ⟨.parts .and .nil, rfl⟩
  · rw [if_neg hnil, if_neg (mt h.eq_nil_iff.2 hnil)]
    exact check_alike h.cut.1 h.cut.2

end Split

/-! ## Reading -/

section Option

variable {α β : Type} {R : α → β → Prop} {x : Option α} {y : Option β}

theorem rel_map {γ δ : Type} {S : γ → δ → Prop} {f : α → γ} {g : β → δ} (h : Option.Rel R x y)
    (hfg : ∀ a b, R a b → S (f a) (g b)) : Option.Rel S (x.map f) (y.map g) := by
  cases h with
  | none => exact .none
  | some h => exact .some (hfg _ _ h)

theorem forall₂_toList (h : Option.Rel R x y) : List.Forall₂ R x.toList y.toList := by
  cases h with
  | none => exact .nil
  | some h => exact .cons h .nil

end Option

theorem Attempt.collect_alike {as bs : List (Attempt (Option (Node Unit)))}
    (h : List.Forall₂ (Attempt.Alike escapes (Option.Rel (Node.Alike escapes))) as bs) :
    Attempt.Alike escapes (List.Forall₂ (Node.Alike escapes)) (collect as) (collect bs) := by
  induction h with
  | nil => exact ⟨rfl, .some ⟨.nil, .nil⟩⟩
  | @cons a b as bs hab _ ih =>
    obtain ⟨hsteps, hresult⟩ := hab
    rw [collect, collect]
    generalize a.result = x at hresult
    generalize b.result = y at hresult
    cases hresult with
    | none => exact ⟨hsteps, .none⟩
    | @some x y hxy =>
      obtain ⟨n, warnings⟩ := x
      obtain ⟨m, warnings'⟩ := y
      obtain ⟨hnode, hwarnings⟩ := hxy
      refine ⟨congrArg₂ (· + ·) hsteps ih.steps, rel_map ih.result fun u v huv => ?_⟩
      exact ⟨List.rel_append (forall₂_toList hnode) huv.1, List.rel_append hwarnings huv.2⟩

section Read

variable {ws vs : List Word}

theorem readPart_alike {inner : List Word → Attempt (Option Level)}
    (hinner : ∀ us us', Word.Alike escapes us us' →
      Attempt.Alike escapes (Option.Rel (Level.Alike escapes)) (inner us) (inner us'))
    (h : Word.Alike escapes ws vs) :
    Attempt.Alike escapes (Option.Rel (Node.Alike escapes)) (readPart inner ws)
      (readPart inner vs) := by
  have hu := h.unwrap?
  unfold readPart
  generalize unwrap? ws = x at hu
  generalize unwrap? vs = y at hu
  cases hu with
  | none =>
    rw [h.tokens]
    cases Condition.ofTokens (vs.map token) with
    | mk c n =>
      cases c with
      | none => exact ⟨rfl, .some ⟨.some (.raw h.lexed_eq), .cons (.unrecognized h.lexed_eq) .nil⟩⟩
      | some c => exact ⟨rfl, .some ⟨.some (.condition c), .nil⟩⟩
  | @some body body' hbody =>
    obtain ⟨hsteps, hresult⟩ := hinner body body' hbody
    refine ⟨hsteps, rel_map hresult ?_⟩
    rintro ⟨l, warnings⟩ ⟨l', warnings'⟩ ⟨hlevel, hwarnings⟩
    refine ⟨?_, hwarnings⟩
    cases hlevel with
    | none => exact .some (.raw hbody.lexed_eq)
    | @some l l' hlevel =>
      obtain ⟨k, ns⟩ := l
      obtain ⟨k', ms⟩ := l'
      obtain ⟨rfl, hchildren⟩ := hlevel
      cases hchildren with
      | nil => exact .none
      | cons hn hns => exact .some (.group k (.cons hn hns))

/-- **Levels** of the same tokens are read alike. -/
theorem readLevel_alike (room : Nat) (h : Word.Alike escapes ws vs) :
    Attempt.Alike escapes (Option.Rel (Level.Alike escapes)) (readLevel room ws)
      (readLevel room vs) := by
  induction room generalizing ws vs with
  | zero => exact ⟨rfl, .none⟩
  | succ room ih =>
    obtain ⟨hsplit, hcount⟩ := Split.ofWords_alike h
    rw [readLevel, readLevel]
    cases hw : Split.ofWords ws with
    | mk s n =>
    cases hv : Split.ofWords vs with
    | mk s' n' =>
    rw [hw, hv] at hsplit hcount
    dsimp only at hsplit hcount
    subst hcount
    cases hsplit with
    | ambiguous => exact ⟨rfl, .some ⟨.none, .cons (.ambiguous h.lexed_eq) .nil⟩⟩
    | malformed => exact ⟨rfl, .some ⟨.none, .cons (.unrecognized h.lexed_eq) .nil⟩⟩
    | @parts k ps qs hps =>
      have hparts : List.Forall₂ (Attempt.Alike escapes (Option.Rel (Node.Alike escapes)))
          (ps.map (readPart (readLevel room))) (qs.map (readPart (readLevel room))) := by
        rw [List.forall₂_map_left_iff, List.forall₂_map_right_iff]
        exact hps.imp fun p q hpq => readPart_alike (fun us us' hus => ih hus) hpq
      obtain ⟨hsteps, hresult⟩ := Attempt.collect_alike hparts
      exact ⟨congrArg (n + ·) hsteps, rel_map hresult fun x y hxy => ⟨.some ⟨rfl, hxy.1⟩, hxy.2⟩⟩

end Read

namespace Reading

variable {limits : Limits} {ws vs : List Word}

theorem top_alike (h : Word.Alike escapes ws vs) :
    Attempt.Alike escapes (Option.Rel (Level.Alike escapes)) (top limits ws) (top limits vs) := by
  refine readLevel_alike limits.maxDepth ?_
  have hu := h.unwrap?
  generalize unwrap? ws = x at hu
  generalize unwrap? vs = y at hu
  cases hu with
  | none => exact h
  | some hbody => exact hbody

theorem ofWords_alike (limits : Limits) (h : Word.Alike escapes ws vs) :
    SameOutcome escapes (ofWords limits ws) (ofWords limits vs) := by
  have hwhole : ∀ {warnings warnings' : List Warning},
      List.Forall₂ (Warning.Alike escapes) warnings warnings' →
        Reading.Alike escapes ⟨.raw () (source ws), warnings⟩ ⟨.raw () (source vs), warnings'⟩ :=
    fun hwarnings => ⟨.raw h.lexed_eq, hwarnings⟩
  obtain ⟨hsteps, hresult⟩ := @top_alike escapes limits ws vs h
  unfold top at hsteps hresult
  simp only [ofWords, balanced_congr h.tokens, hsteps]
  by_cases hnil : ws = []
  · rw [if_pos hnil, if_pos (h.eq_nil_iff.1 hnil)]
    exact .ok ⟨.group .and .nil, .nil⟩
  rw [if_neg hnil, if_neg (mt h.eq_nil_iff.2 hnil)]
  split_ifs
  · exact .ok (hwhole (.cons .unbalanced .nil))
  · exact .ok (hwhole (.cons (.timeout _) .nil))
  · generalize (readLevel limits.maxDepth ((unwrap? ws).getD ws)).result = x at hresult
    generalize (readLevel limits.maxDepth ((unwrap? vs).getD vs)).result = y at hresult
    cases hresult with
    | none => exact .error _
    | @some x y hxy =>
      obtain ⟨l, warnings⟩ := x
      obtain ⟨l', warnings'⟩ := y
      obtain ⟨hlevel, hwarnings⟩ := hxy
      cases hlevel with
      | none => exact .ok (hwhole hwarnings)
      | @some l l' hlevel =>
        obtain ⟨k, ns⟩ := l
        obtain ⟨k', ms⟩ := l'
        obtain ⟨rfl, hchildren⟩ := hlevel
        exact .ok ⟨.group k hchildren, hwarnings⟩

/-- Texts of the same tokens are read alike. -/
theorem ofText_alike (limits : Limits) {text text' : String}
    (h : limits.tokens text = limits.tokens text') :
    SameOutcome limits.dialect.backslashEscapes (ofText limits text) (ofText limits text') :=
  ofWords_alike limits ⟨inText_ofText _ text, inText_ofText _ text', h⟩

/-- **Layout** in front of a token of a text does not change what the text is read as, except for
the layout of raw SQL and of the fragments that are warned of. -/
theorem ofText_insert (limits : Limits) {before behind layout : String}
    (htoken : ∃ l ∈ lex limits.dialect.backslashEscapes (before ++ behind),
      l.start = byteCount before.toList)
    (hlayout : Piece.IsSpacing layout) :
    SameOutcome limits.dialect.backslashEscapes (ofText limits (before ++ behind))
      (ofText limits (before ++ layout ++ behind)) := by
  refine ofText_alike limits ?_
  unfold lex at htoken
  rw [String.toList_append] at htoken
  unfold Limits.tokens Word.ofText
  rw [Piece.map_token_ofPieces, Piece.map_token_ofPieces, String.append_assoc, String.toList_append,
    String.toList_append, String.toList_append]
  exact (hlayout.tokens_insert htoken).symm

/-- A comment leaves a blank in the text of a fragment. -/
theorem ofText_insert_comment :
    (ofText {} "a = 1 AND f(b)").map warnings = .ok [.unrecognized "f(b)"] ∧
      (ofText {} "a = 1 AND f /*x*/ (b)").map warnings = .ok [.unrecognized "f (b)"] ∧
      SameOutcome false (ofText {} "a = 1 AND f(b)") (ofText {} "a = 1 AND f /*x*/ (b)") := by
  refine ⟨by decide +kernel, by decide +kernel, ?_⟩
  have hlex : ∃ l ∈ lex false ("a = 1 AND f" ++ "(b)"),
      l.start = byteCount "a = 1 AND f".toList := by decide +kernel
  have hlayout : Piece.IsSpacing (" /*" ++ "x" ++ "*/ ") := .block (by decide)
  have hplain : "a = 1 AND f(b)" = "a = 1 AND f" ++ "(b)" := by decide +kernel
  have hcomment : "a = 1 AND f /*x*/ (b)" = "a = 1 AND f" ++ (" /*" ++ "x" ++ "*/ ") ++ "(b)" := by
    decide +kernel
  rw [hplain, hcomment]
  exact ofText_insert {} hlex hlayout

end Reading

end SqlFilter
