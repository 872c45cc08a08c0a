import SqlFilter.Proofs.Token.Ended
import SqlFilter.Proofs.Tree.Reread

/-!
# Texts that are joined by a connective

What is read of two texts that are joined by a connective is what is read of each of them, one behind
the other (`Reading.within_joined_iff`). So a fragment that is not understood costs no more than
itself. The parentheses of the texts have to match without enclosing the whole, both have to be clear
levels of no other connective, and no `BETWEEN` may take the `AND` behind it (`Word.Joinable`).
-/

namespace SqlFilter

open Text Piece Word

/-! ## Words that may be joined -/

namespace Word

/-- Whether a `BETWEEN` waits for its `AND` behind the words. -/
def waiting (depth : Nat) (pending : Bool) : List Word → Bool
  | [] => pending
  | w :: ws =>
    match connective? depth pending w with
    | some _ => waiting depth false ws
    | none => waiting (depthAfter depth w) (pendingAfter depth pending w) ws

/-- Words that may be joined to others by the connective. -/
structure Joinable (k : Logic) (ws : List Word) : Prop where
  ne_nil : ws ≠ []
  balanced : balanced 0 ws = true
  /-- They are not in parentheses as a whole. -/
  unwrap?_eq : unwrap? ws = none
  /-- They are a clear level. -/
  clear : (Split.ofWords ws).1.isClear = true
  /-- There is no other connective in the level. -/
  connectives : ∀ x ∈ (cut 0 false ws).2, x.1 = k
  /-- No `BETWEEN` is left without its `AND`. -/
  settled : waiting 0 false ws = false

/-- Induction along words behind which a connective is one: behind each of their own connectives
they start again, and every other word is passed over. -/
theorem settled_induction {motive : Nat → Bool → List Word → Prop} (nil : motive 0 false [])
    (connective : ∀ pending v k ws, connective? 0 pending v = some k → motive 0 false ws →
      motive 0 pending (v :: ws))
    (other : ∀ depth pending v ws, connective? depth pending v = none →
      motive (depthAfter depth v) (pendingAfter depth pending v) ws →
        motive depth pending (v :: ws))
    {depth : Nat} {pending : Bool} {ws : List Word} (hb : balanced depth ws = true)
    (hwait : waiting depth pending ws = false) : motive depth pending ws := by
  induction ws generalizing depth pending with
  | nil =>
    obtain rfl : depth = 0 := of_decide_eq_true hb
    obtain rfl : pending = false := hwait
    exact nil
  | cons v ws ih =>
    rw [waiting] at hwait
    cases hc : connective? depth pending v with
    | some k =>
      rw [hc] at hwait
      obtain ⟨rfl, hrest⟩ := balanced_of_connective? hc hb
      exact connective pending v k ws hc (ih hrest hwait)
    | none =>
      rw [hc] at hwait
      exact other depth pending v ws hc (ih (balanced_cons_iff.1 hb).2 hwait)

section Cut

variable {w : Word} {k : Logic} (hw : w.token = k.token) {depth : Nat} {pending : Bool}
  {ws : List Word} (hb : balanced depth ws = true) (hwait : waiting depth pending ws = false)
  (vs : List Word)

include hw hb hwait

/-- Behind matching parentheses a connective is one, unless a `BETWEEN` waits for it. -/
theorem cut_join : cut depth pending (ws ++ w :: vs) = ((cut depth pending ws).1,
    (cut depth pending ws).2 ++ (k, (cut 0 false vs).1) :: (cut 0 false vs).2) := by
  refine settled_induction (motive := fun depth pending ws =>
    cut depth pending (ws ++ w :: vs) = ((cut depth pending ws).1,
      (cut depth pending ws).2 ++ (k, (cut 0 false vs).1) :: (cut 0 false vs).2))
    ?_ ?_ ?_ hb hwait
  · simp only [List.nil_append, cut, connective?_of_token hw]
  · intro pending v l ws hc ih
    simp only [List.cons_append, cut, hc, ih]
  · intro depth pending v ws hc ih
    simp only [List.cons_append, cut, hc, ih]

theorem waiting_join : waiting depth pending (ws ++ w :: vs) = waiting 0 false vs := by
  refine settled_induction (motive := fun depth pending ws =>
    waiting depth pending (ws ++ w :: vs) = waiting 0 false vs) ?_ ?_ ?_ hb hwait
  · rw [List.nil_append, waiting, connective?_of_token hw]
  · intro pending v l ws hc ih
    rw [List.cons_append, waiting, hc, ih]
  · intro depth pending v ws hc ih
    rw [List.cons_append, waiting, hc, ih]

end Cut

theorem waiting_behind (gap : List Piece) (depth : Nat) (pending : Bool) (ws : List Word) :
    waiting depth pending (behind gap ws) = waiting depth pending ws := by
  cases ws <;> rfl

@[simp] theorem length_behind (gap : List Piece) (ws : List Word) :
    (behind gap ws).length = ws.length := by
  cases ws <;> rfl

end Word

/-! ## Cuts of joined words -/

namespace Split

/-- The cut with another layout before the first part. -/
def behind (gap : List Piece) : Split → Split
  | parts k (p :: ps) => parts k (Word.behind gap p :: ps)
  | other => other

theorem check_behind (gap : List Piece) (seen : Option Logic) (part : List Word)
    (more : List (Logic × List Word)) : check seen (Word.behind gap part) more =
      ((check seen part more).1.behind gap, (check seen part more).2) := by
  have hnil := Word.behind_eq_nil_iff gap part
  cases more with
  | nil =>
    rw [check, check]
    by_cases h : part = []
    · rw [if_pos h, if_pos (hnil.2 h)]
      rfl
    · rw [if_neg h, if_neg (mt hnil.1 h), Word.length_behind]
      rfl
  | cons x more =>
    obtain ⟨k, next⟩ := x
    rw [check, check, Word.length_behind]
    by_cases hseen : seen.any (· ≠ k) = true
    · rw [if_pos hseen, if_pos hseen]
      rfl
    rw [if_neg hseen, if_neg hseen]
    by_cases h : part = []
    · rw [if_pos h, if_pos (hnil.2 h)]
      rfl
    · rw [if_neg h, if_neg (mt hnil.1 h)]
      refine Prod.ext ?_ rfl
      dsimp only
      cases (check (some k) next more).1 <;> rfl

theorem ofWords_behind (gap : List Piece) (ws : List Word) :
    ofWords (Word.behind gap ws) = ((ofWords ws).1.behind gap, (ofWords ws).2) := by
  unfold ofWords
  by_cases h : ws = []
  · rw [if_pos h, if_pos ((Word.behind_eq_nil_iff gap ws).2 h)]
    rfl
  · rw [if_neg h, if_neg (mt (Word.behind_eq_nil_iff gap ws).1 h), Word.cut_behind]
    exact check_behind gap none _ _

/-- All the parts and all the words of a clear level are known from the cut. -/
theorem eq_cut_of_ofWords {ws : List Word} {k : Logic} {ps : List (List Word)} {n : Nat}
    (hws : ws ≠ []) (h : ofWords ws = (.parts k ps, n)) :
    ps = (Word.cut 0 false ws).1 :: (Word.cut 0 false ws).2.map Prod.snd ∧ (∀ p ∈ ps, p ≠ []) ∧
      n = (Word.cut 0 false ws).1.length + weight (Word.cut 0 false ws).2 := by
  rw [ofWords, if_neg hws] at h
  obtain ⟨hcut, hne, -⟩ := eq_of_check h
  exact ⟨hcut, hne, snd_check_eq h⟩

/-- The parts of joined words are those of the words on either side. -/
theorem ofWords_join {k l l' : Logic} {ws vs : List Word} {w : Word} {ps qs : List (List Word)}
    {n m : Nat} (hws : Joinable k ws) (hvs : Joinable k vs) (hw : w.token = k.token)
    (hps : ofWords ws = (.parts l ps, n)) (hqs : ofWords vs = (.parts l' qs, m)) :
    ofWords (ws ++ w :: vs) = (.parts k (ps ++ qs), n + 1 + m) := by
  obtain ⟨rfl, hpne, rfl⟩ := eq_cut_of_ofWords hws.ne_nil hps
  obtain ⟨rfl, hqne, rfl⟩ := eq_cut_of_ofWords hvs.ne_nil hqs
  have hne : ws ++ w :: vs ≠ [] := List.append_ne_nil_of_right_ne_nil ws (List.cons_ne_nil w vs)
  obtain ⟨hpart, hpne⟩ := List.forall_mem_cons.1 hpne
  obtain ⟨hnext, hqne⟩ := List.forall_mem_cons.1 hqne
  have hmore : ∀ x ∈ (Word.cut 0 false ws).2 ++ (k, (Word.cut 0 false vs).1) ::
      (Word.cut 0 false vs).2, x.1 = k ∧ x.2 ≠ [] := by
    refine List.forall_mem_append.2 ⟨fun x hx => ?_, List.forall_mem_cons.2 ⟨⟨rfl, hnext⟩, ?_⟩⟩
    · exact ⟨hws.connectives x hx, hpne _ (List.mem_map_of_mem hx)⟩
    · exact fun x hx => ⟨hvs.connectives x hx, hqne _ (List.mem_map_of_mem hx)⟩
  have hfst := @check_eq none _ _ k hpart hmore (.inr ⟨rfl, fun hnil => absurd hnil (by simp)⟩)
  rw [ofWords, if_neg hne, Word.cut_join hw hws.balanced hws.settled]
  refine Prod.ext (hfst.trans ?_) ((snd_check_eq (Prod.ext hfst rfl)).trans ?_)
  · rw [List.map_append, List.map_cons, List.cons_append]
  · simp only [weight, List.map_append, List.map_cons, List.sum_append, List.sum_cons]
    omega

end Split

/-! ## Joined words -/

namespace Word.Joinable

variable {k : Logic} {ws vs : List Word}

theorem exists_parts (h : Joinable k ws) : ∃ l ps n, Split.ofWords ws = (.parts l ps, n) := by
  have hclear := h.clear
  rcases hsplit : Split.ofWords ws with ⟨l | _ | _, n⟩
  · exact ⟨_, _, n, rfl⟩
  · rw [hsplit] at hclear
    cases hclear
  · rw [hsplit] at hclear
    cases hclear

theorem behind (h : Joinable k ws) (gap : List Piece) : Joinable k (behind gap ws) := by
  refine ⟨(behind_eq_nil_iff gap ws).not.2 h.ne_nil, ?_, ?_, ?_, ?_, ?_⟩
  · rw [balanced_congr (map_token_behind gap ws), h.balanced]
  · rw [unwrap?_behind, h.unwrap?_eq]
  · rw [Split.isClear_congr (map_token_behind gap ws), h.clear]
  · rw [cut_behind]
    exact h.connectives
  · rw [waiting_behind, h.settled]

/-- Words that are joined may be joined on. -/
theorem join (hws : Joinable k ws) (hvs : Joinable k vs) {w : Word} (hw : w.token = k.token) :
    Joinable k (ws ++ w :: vs) := by
  obtain ⟨l, ps, n, hps⟩ := hws.exists_parts
  obtain ⟨l', qs, m, hqs⟩ := hvs.exists_parts
  have hcut := cut_join hw hws.balanced hws.settled vs
  refine ⟨List.append_ne_nil_of_right_ne_nil ws (List.cons_ne_nil w vs), ?_, ?_, ?_, ?_, ?_⟩
  · rw [balanced_append_zero hws.balanced, balanced_token hw, hvs.balanced]
  · -- the cut would pass over parentheses around the whole without meeting the connective
    refine Option.eq_none_iff_forall_ne_some.2 fun body hbody => ?_
    obtain ⟨o, c, heq, ho, hc, hb⟩ := unwrap?_eq_some_iff.1 hbody
    rw [heq, cut_last (carry_parenthesized ho hc hb false)] at hcut
    exact absurd (congrArg Prod.snd hcut).symm (by simp)
  · rw [Split.ofWords_join hws hvs hw hps hqs]
    rfl
  · rw [hcut]
    exact List.forall_mem_append.2
      ⟨hws.connectives, List.forall_mem_cons.2 ⟨rfl, hvs.connectives⟩⟩
  · rw [waiting_join hw hws.balanced hws.settled, hvs.settled]

/-- Words that may be joined are understood as a level if there is room for it. -/
theorem exists_level (h : Joinable k ws) {room : Nat} {l : Option Level} {warnings : List Warning}
    (hl : (readLevel room ws).result = some (l, warnings)) : ∃ l', l = some l' := by
  cases room with
  | zero => cases hl
  | succ room =>
    obtain ⟨-, hclear⟩ | ⟨k, ps, n, ns, rfl, -, -⟩ := readLevel_cases hl
    · exact absurd (h.clear.symm.trans hclear) Bool.true_eq_false.mp
    · exact ⟨_, rfl⟩

end Word.Joinable

/-! ## Reading joined words -/

@[simp] theorem readLevel_behind (room : Nat) (gap : List Piece) (ws : List Word) :
    readLevel room (behind gap ws) = readLevel room ws := by
  cases room with
  | zero => rfl
  | succ room =>
    rw [readLevel, readLevel, Split.ofWords_behind]
    cases Split.ofWords ws with
    | mk s n =>
      cases s with
      | ambiguous => simp only [Split.behind, source_behind]
      | malformed => simp only [Split.behind, source_behind]
      | parts k ps =>
        cases ps with
        | nil => rfl
        | cons p ps => simp only [Split.behind, List.map_cons, readPart_behind]

section Read

variable {k : Logic} {ws vs : List Word} {w : Word} (hws : Joinable k ws) (hvs : Joinable k vs)
  (hw : w.token = k.token) (room : Nat)

/-- The words of a level are looked at before its parts are read. -/
theorem steps_readLevel_of_parts {l : Logic} {ps : List (List Word)} {n : Nat}
    (h : Split.ofWords ws = (.parts l ps, n)) : (readLevel (room + 1) ws).steps =
      n + (Attempt.collect (ps.map (readPart (readLevel room)))).steps := by
  rw [readLevel, h]

include hws hvs hw

/-- Joined words are read as the members on either side. -/
theorem result_readLevel_join_iff {l : Option Level} {warnings : List Warning} :
    (readLevel room (ws ++ w :: vs)).result = some (l, warnings) ↔
      ∃ l₁ l₂ w₁ w₂, (readLevel room ws).result = some (some l₁, w₁) ∧
        (readLevel room vs).result = some (some l₂, w₂) ∧
        l = some ⟨k, l₁.children ++ l₂.children⟩ ∧ warnings = w₁ ++ w₂ := by
  cases room with
  | zero =>
    constructor
    · exact nofun
    · rintro ⟨_, _, _, _, h, -⟩
      cases h
  | succ room =>
    obtain ⟨i, ps, n, hps⟩ := hws.exists_parts
    obtain ⟨j, qs, m, hqs⟩ := hvs.exists_parts
    have hjoin := Split.ofWords_join hws hvs hw hps hqs
    rw [result_readLevel_of_parts (congrArg Prod.fst hjoin), List.map_append,
      Attempt.result_collect_append, result_readLevel_of_parts (congrArg Prod.fst hps),
      result_readLevel_of_parts (congrArg Prod.fst hqs)]
    constructor
    · intro h
      obtain ⟨⟨ns, warnings'⟩, hjoined, heq⟩ := Option.map_eq_some_iff.1 h
      obtain ⟨rfl, rfl⟩ := Prod.mk.inj heq
      obtain ⟨⟨ns₁, w₁⟩, h₁, hrest⟩ := Option.bind_eq_some_iff.1 hjoined
      obtain ⟨⟨ns₂, w₂⟩, h₂, heq⟩ := Option.map_eq_some_iff.1 hrest
      obtain ⟨rfl, rfl⟩ := Prod.mk.inj heq
      rw [h₁, h₂]
      exact ⟨⟨i, ns₁⟩, ⟨j, ns₂⟩, w₁, w₂, rfl, rfl, rfl, rfl⟩
    · rintro ⟨l₁, l₂, w₁, w₂, h₁, h₂, rfl, rfl⟩
      obtain ⟨⟨ns₁, w₁'⟩, hns₁, heq₁⟩ := Option.map_eq_some_iff.1 h₁
      obtain ⟨⟨ns₂, w₂'⟩, hns₂, heq₂⟩ := Option.map_eq_some_iff.1 h₂
      obtain ⟨hl₁, rfl⟩ := Prod.mk.inj heq₁
      obtain ⟨hl₂, rfl⟩ := Prod.mk.inj heq₂
      rw [hns₁, hns₂, ← Option.some.inj hl₁, ← Option.some.inj hl₂]
      rfl

/-- Reading joined words takes the steps for the words on either side and one for the connective. -/
theorem steps_readLevel_join (h : (readLevel room ws).result ≠ none) :
    (readLevel room (ws ++ w :: vs)).steps =
      (readLevel room ws).steps + 1 + (readLevel room vs).steps := by
  cases room with
  | zero => exact absurd rfl h
  | succ room =>
    obtain ⟨i, ps, n, hps⟩ := hws.exists_parts
    obtain ⟨j, qs, m, hqs⟩ := hvs.exists_parts
    have hfirst : (Attempt.collect (ps.map (readPart (readLevel room)))).result ≠ none := by
      intro hnone
      rw [result_readLevel_of_parts (congrArg Prod.fst hps), hnone] at h
      exact h rfl
    rw [steps_readLevel_of_parts room (Split.ofWords_join hws hvs hw hps hqs), List.map_append,
      Attempt.steps_collect_append hfirst, steps_readLevel_of_parts room hps,
      steps_readLevel_of_parts room hqs]
    omega

end Read

/-! ## Reading joined texts -/

/-- Ended text that is joined to another is cut into its own words, the connective, and the words of
the other text. -/
theorem Word.exists_ofText_joined {escapes : Bool} {s : String} (hs : Ended escapes s.toList)
    (k : Logic) (t : String) : ∃ w g, w.token = k.token ∧
      ofText escapes (s ++ " " ++ k.name ++ " " ++ t) =
        ofText escapes s ++ w :: behind g (ofText escapes t) := by
  obtain ⟨ks, hks, hktoken⟩ := k.spells_name escapes
  obtain ⟨w, ks, rfl, hw, hnil⟩ := List.map_eq_cons_iff.1 hktoken
  obtain rfl := List.map_eq_nil_iff.1 hnil
  have hcomment : w.token ≠ .comment := (hks.plain w (List.mem_singleton_self w)).1
  have htext : (s ++ " " ++ k.name ++ " " ++ t).toList =
      s.toList ++ ' ' :: (k.name.toList ++ ' ' :: t.toList) := by
    simp only [String.toList_append, List.append_assoc]
    rfl
  have hpieces : Piece.ofText escapes (' ' :: (k.name.toList ++ ' ' :: t.toList)) =
      .blank [' '] :: .token w.token w.chars :: Piece.ofText escapes (' ' :: t.toList) := by
    rw [ofText_space (hks.solid.append _).head, hks.closed _ (delimited_cons.2 (by decide))]
    rfl
  obtain ⟨g, hg⟩ := hs.exists_words_append (delimited_cons.2 (by decide) :
    Delimited (' ' :: (k.name.toList ++ ' ' :: t.toList))) []
  obtain ⟨g', hg'⟩ := @exists_ofPieces_cons_blank escapes ' ' (by decide) [] t.toList
  refine ⟨{ w with before := g }, g', hw, ?_⟩
  rw [Word.ofText, htext, hg, hpieces, ofPieces, ofPieces, if_neg hcomment, hg']
  rfl

namespace Reading

/-- What the text is read as if no limit is hit. -/
def Within (limits : Limits) (text : String) (r : Reading) : Prop :=
  ofText limits text = .ok r ∧ ∀ n, .timeout n ∉ r.warnings

/-- The number of steps that reading the text takes. -/
def steps (limits : Limits) (text : String) : Nat :=
  (top limits (Word.ofText limits.dialect.backslashEscapes text)).steps

/-- Words that are read without a timeout take no more steps than allowed. -/
theorem steps_top_le_of_ofWords {limits : Limits} {ws : List Word} {r : Reading}
    (h : ofWords limits ws = .ok r) (ht : ∀ n, .timeout n ∉ r.warnings) (hne : ws ≠ [])
    (hb : balanced 0 ws = true) : (top limits ws).steps ≤ limits.steps := by
  by_contra hsteps
  unfold top at hsteps
  simp only [ofWords, if_neg hne, hb, Bool.true_eq_false, if_false,
    if_pos (Nat.not_le.1 hsteps)] at h
  obtain rfl := Except.ok.inj h
  exact ht _ (List.mem_singleton_self _)

/-- An operand is read as a level, if no limit is hit. -/
theorem within_iff_of_joinable {limits : Limits} {k : Logic} {text : String} {r : Reading}
    (h : Joinable k (Word.ofText limits.dialect.backslashEscapes text)) :
    Within limits text r ↔ steps limits text ≤ limits.steps ∧ ∃ l warnings,
      (readLevel limits.maxDepth (Word.ofText limits.dialect.backslashEscapes text)).result =
          some (some l, warnings) ∧
        r = ⟨.group () l.logic l.children, warnings⟩ := by
  unfold Within steps ofText
  generalize Word.ofText limits.dialect.backslashEscapes text = ws at h
  have htop : top limits ws = readLevel limits.maxDepth ws := by
    rw [top, h.unwrap?_eq]
    rfl
  constructor
  · rintro ⟨hr, htimeout⟩
    refine ⟨steps_top_le_of_ofWords hr htimeout h.ne_nil h.balanced, ?_⟩
    -- the words are neither empty nor unbalanced, so they are read as a level
    obtain ⟨hnil, -⟩ | ⟨hb, -⟩ | rfl | ⟨-, l, warnings, hl, rfl⟩ := ofWords_cases hr
    · exact absurd hnil h.ne_nil
    · exact absurd (h.balanced.symm.trans hb) Bool.true_eq_false.mp
    · exact absurd (List.mem_singleton_self _) (htimeout _)
    · rw [htop] at hl
      obtain ⟨l, rfl⟩ := h.exists_level hl
      exact ⟨l, warnings, hl, rfl⟩
  · rintro ⟨hsteps, l, warnings, hl, rfl⟩
    rw [← htop] at hl
    refine ⟨ofWords_of_top h.ne_nil h.balanced hsteps hl, fun n => ?_⟩
    exact (isLocal_readLevel limits.maxDepth _).timeout_notMem hl n

/-- **Joined texts.** Where no limit is hit, what is read of two operands that are joined by their
connective is the members and the warnings of the one in front of those of the other. This is so as
long as the steps for both of them and one more are allowed. -/
theorem within_joined_iff (limits : Limits) (k : Logic) {s t : String}
    (hs : Joinable k (Word.ofText limits.dialect.backslashEscapes s))
    (hended : Ended limits.dialect.backslashEscapes s.toList)
    (ht : Joinable k (Word.ofText limits.dialect.backslashEscapes t)) (r : Reading) :
    Within limits (s ++ " " ++ k.name ++ " " ++ t) r ↔
      ∃ rs rt, Within limits s rs ∧ Within limits t rt ∧
        steps limits s + 1 + steps limits t ≤ limits.steps ∧
        r = ⟨.group () k (rs.root.children ++ rt.root.children), rs.warnings ++ rt.warnings⟩ := by
  obtain ⟨w, g, hw, hwords⟩ := exists_ofText_joined hended k t
  have htg := ht.behind g
  have hjoined := hs.join htg hw
  rw [← hwords] at hjoined
  have hsteps : ∀ {l : Level} {warnings : List Warning},
      (readLevel limits.maxDepth (Word.ofText limits.dialect.backslashEscapes s)).result =
        some (some l, warnings) → steps limits (s ++ " " ++ k.name ++ " " ++ t) =
          steps limits s + 1 + steps limits t := by
    intro l warnings hl
    have := steps_readLevel_join hs htg hw limits.maxDepth (by rw [hl]; exact nofun)
    rw [readLevel_behind, ← hwords] at this
    unfold steps top
    rw [hjoined.unwrap?_eq, hs.unwrap?_eq, ht.unwrap?_eq]
    exact this
  have hread := fun l warnings =>
    @result_readLevel_join_iff k _ _ w hs htg hw limits.maxDepth l warnings
  simp only [readLevel_behind, ← hwords] at hread
  rw [within_iff_of_joinable hjoined]
  simp only [within_iff_of_joinable hs, within_iff_of_joinable ht]
  constructor
  · rintro ⟨hle, l, warnings, hl, rfl⟩
    obtain ⟨l₁, l₂, w₁, w₂, h₁, h₂, heq, rfl⟩ := (hread _ _).1 hl
    obtain rfl := Option.some.inj heq
    rw [hsteps h₁] at hle
    exact ⟨_, _, ⟨by omega, l₁, w₁, h₁, rfl⟩, ⟨by omega, l₂, w₂, h₂, rfl⟩, hle, rfl⟩
  · rintro ⟨rs, rt, ⟨-, l₁, w₁, h₁, rfl⟩, ⟨-, l₂, w₂, h₂, rfl⟩, hle, rfl⟩
    rw [← hsteps h₁] at hle
    exact ⟨hle, _, _, (hread _ _).2 ⟨l₁, l₂, w₁, w₂, h₁, h₂, rfl, rfl⟩, rfl⟩

theorem within_joined_fragment : ∃ rs rt, Within {} "a = 1 OR f(b)" rs ∧ Within {} "c = 2" rt ∧
    rs.warnings = [.unrecognized "f(b)"] ∧ rt.warnings = [] ∧
      Within {} "a = 1 OR f(b) OR c = 2"
        ⟨.group () .or (rs.root.children ++ rt.root.children), [.unrecognized "f(b)"]⟩ := by
  have hs : Within {} "a = 1 OR f(b)" ⟨.group () .or [
      .condition () ⟨"", "a", .eq, some (.single (.integer 1)), none, .atWhere⟩,
      .raw () "f(b)"], [.unrecognized "f(b)"]⟩ := by
    refine ⟨?_, by simp⟩
    cbv
  have ht : Within {} "c = 2" ⟨.group () .and [
      .condition () ⟨"", "c", .eq, some (.single (.integer 2)), none, .atWhere⟩], []⟩ := by
    refine ⟨?_, by simp⟩
    cbv
  have htext : "a = 1 OR f(b) OR c = 2" =
      "a = 1 OR f(b)" ++ " " ++ Logic.or.name ++ " " ++ "c = 2" := by
    decide +kernel
  refine ⟨_, _, hs, ht, rfl, rfl, ?_⟩
  rw [htext]
  refine (within_joined_iff {} .or ?_ (by decide +kernel) ?_ _).2
    ⟨_, _, hs, ht, by decide +kernel, rfl⟩
  · constructor <;> decide +kernel
  · constructor <;> decide +kernel

end Reading

end SqlFilter
