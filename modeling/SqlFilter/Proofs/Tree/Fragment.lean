import SqlFilter.Proofs.Token.Source
import SqlFilter.Proofs.Tree.Grammar
import SqlFilter.Proofs.Tree.Kept

/-!
# What is kept as raw SQL

The text of a part or of a whole level that is not understood is kept. Read on its own, it shows the
reader what the part or the level did (`Word.Kept`), since how words are cut depends on their tokens
only. All raw SQL below a level is of this kind (`rawsKept_readLevel`), if no literal is left open.
-/

namespace SqlFilter

open Piece

namespace Word

variable {ws vs : List Word}

/-! ## Cuts and tokens -/

section Token

variable {w v : Word} (h : w.token = v.token) (depth : Nat) (pending : Bool)

include h

theorem connective?_congr : connective? depth pending w = connective? depth pending v := by
  unfold connective?
  rw [h]

theorem depthAfter_congr : depthAfter depth w = depthAfter depth v := by
  unfold depthAfter
  rw [h]

theorem pendingAfter_congr : pendingAfter depth pending w = pendingAfter depth pending v := by
  unfold pendingAfter
  rw [h]

end Token

theorem balanced_congr (h : ws.map token = vs.map token) (depth : Nat) :
    balanced depth ws = balanced depth vs := by
  induction ws generalizing vs depth with
  | nil => rw [List.map_eq_nil_iff.1 h.symm]
  | cons w ws ih =>
    obtain ⟨v, vs, rfl, hv, hvs⟩ := List.map_eq_cons_iff.1 h.symm
    simp only [balanced, hv, ih hvs.symm]

/-- Words of the same tokens are cut at the same places. -/
theorem cut_congr (h : ws.map token = vs.map token) (depth : Nat) (pending : Bool) :
    (cut depth pending ws).1.map token = (cut depth pending vs).1.map token ∧
      (cut depth pending ws).2.map (Prod.map id (List.map token)) =
        (cut depth pending vs).2.map (Prod.map id (List.map token)) := by
  induction ws generalizing vs depth pending with
  | nil => rw [List.map_eq_nil_iff.1 h.symm]; exact ⟨rfl, rfl⟩
  | cons w ws ih =>
    obtain ⟨v, vs, rfl, hv, hvs⟩ := List.map_eq_cons_iff.1 h.symm
    rw [cut, cut, connective?_congr hv, depthAfter_congr hv, pendingAfter_congr hv]
    cases connective? depth pending w with
    | some k =>
      obtain ⟨hpart, hmore⟩ := ih hvs.symm depth false
      exact ⟨rfl, congrArg₂ List.cons (Prod.ext rfl hpart) hmore⟩
    | none =>
      obtain ⟨hpart, hmore⟩ := ih hvs.symm (depthAfter depth w) (pendingAfter depth pending w)
      exact ⟨congrArg₂ List.cons hv.symm hpart, hmore⟩

theorem exists_unwrap?_congr (h : ws.map token = vs.map token) {body : List Word}
    (hu : unwrap? ws = some body) :
    ∃ body', unwrap? vs = some body' ∧ body'.map token = body.map token := by
  obtain ⟨o, c, rfl, ho, hc, hb⟩ := unwrap?_eq_some_iff.1 hu
  rw [List.map_cons, List.map_append] at h
  obtain ⟨o', rest, rfl, ho', hrest⟩ := List.map_eq_cons_iff.1 h.symm
  obtain ⟨body', cs, rfl, hbody, hcs⟩ := List.map_eq_append_iff.1 hrest
  obtain ⟨c', cs, rfl, hc', hcs⟩ := List.map_eq_cons_iff.1 hcs
  obtain rfl := List.map_eq_nil_iff.1 hcs
  refine ⟨body', unwrap?_eq_some_iff.2 ⟨o', c', rfl, ?_, ?_, ?_⟩, hbody⟩
  · rw [ho', ho]
  · rw [hc', hc]
  · rw [balanced_congr hbody, hb]

theorem unwrap?_eq_none_congr (h : ws.map token = vs.map token) (hu : unwrap? ws = none) :
    unwrap? vs = none := by
  refine Option.eq_none_iff_forall_ne_some.2 fun body hbody => ?_
  obtain ⟨body', hbody', -⟩ := exists_unwrap?_congr h.symm hbody
  cases hu.symm.trans hbody'

end Word

/-- Whether a level is cut into parts that are joined by one connective. -/
def Split.isClear : Split → Bool
  | parts _ _ => true
  | _ => false

namespace Split

theorem isClear_check_congr {seen : Option Logic} {part part' : List Word}
    {more more' : List (Logic × List Word)} (hp : part.map Word.token = part'.map Word.token)
    (hm : more.map (Prod.map id (List.map Word.token)) =
      more'.map (Prod.map id (List.map Word.token))) :
    (check seen part more).1.isClear = (check seen part' more').1.isClear := by
  have hnil : part = [] ↔ part' = [] := by
    rw [← List.map_eq_nil_iff (f := Word.token), hp, List.map_eq_nil_iff]
  induction more generalizing seen part part' more' with
  | nil =>
    rw [List.map_eq_nil_iff.1 hm.symm, check, check]
    by_cases h : part = []
    · rw [if_pos h, if_pos (hnil.1 h)]
    · rw [if_neg h, if_neg (hnil.not.1 h)]
      rfl
  | cons x more ih =>
    obtain ⟨k, next⟩ := x
    obtain ⟨⟨k', next'⟩, more', rfl, hx, htail⟩ := List.map_eq_cons_iff.1 hm.symm
    obtain ⟨hk, hnext⟩ := Prod.mk.inj hx
    obtain rfl : k' = k := hk
    have hrest := @ih (some k') next next' more' hnext.symm htail.symm (by
      rw [← List.map_eq_nil_iff (f := Word.token), ← hnext, List.map_eq_nil_iff])
    have hstep : ∀ (outcome : Split) (part : List Word),
        (match outcome with
          | parts k ps => parts k (part :: ps)
          | other => other).isClear = outcome.isClear := by
      intro outcome part
      cases outcome <;> rfl
    rw [check, check]
    by_cases hs : seen.any (· ≠ k') = true
    · rw [if_pos hs, if_pos hs]
    · rw [if_neg hs, if_neg hs]
      by_cases h : part = []
      · rw [if_pos h, if_pos (hnil.1 h)]
      · rw [if_neg h, if_neg (hnil.not.1 h)]
        exact (hstep _ part).trans (hrest.trans (hstep _ part').symm)

theorem isClear_congr {ws vs : List Word} (h : ws.map Word.token = vs.map Word.token) :
    (ofWords ws).1.isClear = (ofWords vs).1.isClear := by
  have hnil : ws = [] ↔ vs = [] := by
    rw [← List.map_eq_nil_iff (f := Word.token), h, List.map_eq_nil_iff]
  obtain ⟨hpart, hmore⟩ := Word.cut_congr h 0 false
  unfold ofWords
  by_cases hw : ws = []
  · rw [if_pos hw, if_pos (hnil.1 hw)]
  · rw [if_neg hw, if_neg (hnil.not.1 hw)]
    exact isClear_check_congr hpart hmore

/-- The parts of a level are what it is cut into. -/
theorem mem_of_ofWords {ws : List Word} {k : Logic} {ps : List (List Word)} {n : Nat}
    (h : ofWords ws = (parts k ps, n)) {p : List Word} (hp : p ∈ ps) :
    p ≠ [] ∧ p ∈ (Word.cut 0 false ws).1 :: (Word.cut 0 false ws).2.map Prod.snd := by
  unfold ofWords at h
  split_ifs at h with hw
  · obtain ⟨-, rfl⟩ := parts.inj (congrArg Prod.fst h)
    exact absurd hp List.not_mem_nil
  · obtain ⟨rfl, hne, -, -⟩ := eq_of_check h
    exact ⟨hne p hp, hp⟩

end Split

/-! ## The parts of a level -/

namespace Word

variable {ws : List Word}

theorem balanced_cons_iff {depth : Nat} {w : Word} : balanced depth (w :: ws) = true ↔
    (w.token = .rightParen → depth ≠ 0) ∧ balanced (depthAfter depth w) ws = true := by
  rw [balanced, depthAfter]
  by_cases hl : w.token = .leftParen
  · simp [hl]
  · by_cases hr : w.token = .rightParen <;> simp [hl, hr]

/-- Connectives are met where no parenthesis is open. -/
theorem balanced_of_connective? {depth : Nat} {pending : Bool} {w : Word} {k : Logic}
    (hc : connective? depth pending w = some k) (hb : balanced depth (w :: ws) = true) :
    depth = 0 ∧ balanced 0 ws = true := by
  have hdepth : depth = 0 := by
    by_contra hd
    rw [connective?_of_pos hd] at hc
    cases hc
  subst hdepth
  rw [balanced_token (token_of_connective? hc)] at hb
  exact ⟨rfl, hb⟩

/-- A part is cut no further, and its parentheses match if those of the level do. -/
theorem cut_part (depth : Nat) (pending : Bool) (hb : balanced depth ws = true) :
    (balanced depth (cut depth pending ws).1 = true ∧
      cut depth pending (cut depth pending ws).1 = ((cut depth pending ws).1, [])) ∧
    ∀ p ∈ (cut depth pending ws).2.map Prod.snd, balanced 0 p = true ∧ cut 0 false p = (p, []) := by
  induction ws generalizing depth pending with
  | nil => exact ⟨⟨hb, rfl⟩, fun p hp => absurd hp List.not_mem_nil⟩
  | cons w ws ih =>
    cases hc : connective? depth pending w with
    | some k =>
      obtain ⟨rfl, hws⟩ := balanced_of_connective? hc hb
      obtain ⟨hpart, hmore⟩ := ih 0 false hws
      simp only [cut, hc, List.map_cons]
      exact ⟨⟨rfl, trivial⟩, List.forall_mem_cons.2 ⟨hpart, hmore⟩⟩
    | none =>
      obtain ⟨hd, hws⟩ := balanced_cons_iff.1 hb
      obtain ⟨⟨hpart, hcut⟩, hmore⟩ := ih _ (pendingAfter depth pending w) hws
      simp only [cut, hc, hcut]
      exact ⟨⟨balanced_cons_iff.2 ⟨hd, hpart⟩, trivial⟩, hmore⟩

/-- A part stands in one piece in the level. -/
theorem exists_append_of_mem_cut (depth : Nat) (pending : Bool) :
    (∃ vs, ws = (cut depth pending ws).1 ++ vs) ∧
      ∀ p ∈ (cut depth pending ws).2.map Prod.snd, ∃ us vs, ws = us ++ (p ++ vs) := by
  induction ws generalizing depth pending with
  | nil => exact ⟨⟨[], rfl⟩, fun p hp => absurd hp List.not_mem_nil⟩
  | cons w ws ih =>
    have hlater : ∀ {p us vs : List Word}, ws = us ++ (p ++ vs) →
        ∃ us vs, w :: ws = us ++ (p ++ vs) := by
      rintro p us vs rfl
      exact ⟨w :: us, vs, rfl⟩
    cases hc : connective? depth pending w with
    | some k =>
      obtain ⟨⟨vs, hvs⟩, hmore⟩ := ih depth false
      simp only [cut, hc, List.map_cons]
      refine ⟨⟨w :: ws, rfl⟩, List.forall_mem_cons.2 ⟨@hlater _ [] vs hvs, fun p hp => ?_⟩⟩
      obtain ⟨us, vs, hp⟩ := hmore p hp
      exact hlater hp
    | none =>
      obtain ⟨⟨vs, hvs⟩, hmore⟩ := ih (depthAfter depth w) (pendingAfter depth pending w)
      simp only [cut, hc]
      refine ⟨⟨vs, congrArg (w :: ·) hvs⟩, fun p hp => ?_⟩
      obtain ⟨us, vs, hp⟩ := hmore p hp
      exact hlater hp

section Mem

variable {p : List Word} (hp : p ∈ (cut 0 false ws).1 :: (cut 0 false ws).2.map Prod.snd)

include hp

theorem cut_of_mem (hb : balanced 0 ws = true) : balanced 0 p = true ∧ cut 0 false p = (p, []) := by
  obtain ⟨hfirst, hmore⟩ := cut_part 0 false hb
  rcases List.mem_cons.1 hp with rfl | hp
  · exact hfirst
  · exact hmore p hp

theorem exists_append_of_mem : ∃ us vs, ws = us ++ (p ++ vs) := by
  obtain ⟨⟨rest, hrest⟩, hmid⟩ := @exists_append_of_mem_cut ws 0 false
  rcases List.mem_cons.1 hp with rfl | hp
  · exact ⟨[], rest, hrest⟩
  · exact hmid p hp

end Mem

/-! ## Kept text -/

variable {escapes : Bool}

/-- The words stand in a text, their parentheses match, and no literal among them is left open. -/
structure Intact (escapes : Bool) (ws : List Word) : Prop where
  inText : InText escapes ws
  balanced : balanced 0 ws = true
  closed : ∀ w ∈ ws, w.isOpen = false

theorem Intact.mid {us vs : List Word} (h : Intact escapes (us ++ (ws ++ vs)))
    (hb : Word.balanced 0 ws = true) : Intact escapes ws :=
  ⟨h.inText.right.left, hb,
    (List.forall_mem_append.1 (List.forall_mem_append.1 h.closed).2).1⟩

theorem Intact.body (h : Intact escapes ws) {body : List Word} (hu : unwrap? ws = some body) :
    Intact escapes body := by
  obtain ⟨o, c, rfl, -, -, hb⟩ := unwrap?_eq_some_iff.1 hu
  exact @Intact.mid body escapes [o] [c] h hb

theorem Intact.part (h : Intact escapes ws) {k : Logic} {ps : List (List Word)} {n : Nat}
    (hs : Split.ofWords ws = (.parts k ps, n)) {p : List Word} (hp : p ∈ ps) :
    p ≠ [] ∧ Intact escapes p ∧ cut 0 false p = (p, []) := by
  obtain ⟨hne, hmem⟩ := Split.mem_of_ofWords hs hp
  obtain ⟨hb, hcut⟩ := cut_of_mem hmem h.balanced
  obtain ⟨us, vs, rfl⟩ := exists_append_of_mem hmem
  exact ⟨hne, h.mid hb, hcut⟩

/-- A part of a level that is no condition and not in parentheses. -/
structure IsFragment (ws : List Word) : Prop where
  cut_eq : cut 0 false ws = (ws, [])
  unwrap?_eq : unwrap? ws = none
  ofTokens_eq : (Condition.ofTokens (ws.map token)).1 = none

/-- Text that is kept: that of a fragment, or of a level that is not clear. -/
def Kept (escapes : Bool) (s : String) : Prop :=
  ∃ ws, Written escapes s.toList ws ∧ balanced 0 ws = true ∧
    (IsFragment ws ∨ (Split.ofWords ws).1.isClear = false)

theorem cut_eq_congr {vs : List Word} (h : ws.map token = vs.map token)
    (hcut : cut 0 false ws = (ws, [])) : cut 0 false vs = (vs, []) := by
  obtain ⟨hpart, hmore⟩ := cut_congr h 0 false
  obtain ⟨⟨rest, hrest⟩, -⟩ := @exists_append_of_mem_cut vs 0 false
  rw [hcut] at hpart hmore
  have hlen := congrArg List.length hrest
  have htokens := congrArg List.length (h.symm.trans hpart)
  rw [List.length_append] at hlen
  rw [List.length_map, List.length_map] at htokens
  obtain rfl : rest = [] := List.length_eq_zero_iff.1 (by omega)
  rw [List.append_nil] at hrest
  exact Prod.ext hrest.symm (List.map_eq_nil_iff.1 hmore.symm)

theorem kept_fragment (h : Intact escapes ws) (hne : ws ≠ []) (hf : IsFragment ws) :
    Kept escapes (source ws) := by
  obtain ⟨zs, hzs, htokens⟩ := exists_written h.inText hne h.closed
  refine ⟨zs, hzs, ?_, .inl ⟨cut_eq_congr htokens.symm hf.cut_eq,
    unwrap?_eq_none_congr htokens.symm hf.unwrap?_eq, ?_⟩⟩
  · rw [balanced_congr htokens, h.balanced]
  · rw [htokens, hf.ofTokens_eq]

theorem kept_level (h : Intact escapes ws) (hs : (Split.ofWords ws).1.isClear = false) :
    Kept escapes (source ws) := by
  have hne : ws ≠ [] := by
    rintro rfl
    exact absurd hs (by decide)
  obtain ⟨zs, hzs, htokens⟩ := exists_written h.inText hne h.closed
  refine ⟨zs, hzs, ?_, .inr ?_⟩
  · rw [balanced_congr htokens, h.balanced]
  · rw [Split.isClear_congr htokens, hs]

end Word

/-! ## Raw SQL below a level -/

/-- All raw SQL at or below the node is kept text. -/
def Node.RawsKept (escapes : Bool) (n : Node Unit) : Prop :=
  ∀ i s, .raw i s ∈ n.leafNodes → Word.Kept escapes s

theorem Node.mem_allLeafNodes {ι : Type} {l : Node ι} {ns : List (Node ι)} :
    l ∈ allLeafNodes ns ↔ ∃ n ∈ ns, l ∈ n.leafNodes := by
  induction ns with
  | nil => exact ⟨fun h => absurd h List.not_mem_nil, fun ⟨n, hn, _⟩ => absurd hn List.not_mem_nil⟩
  | cons n ns ih => simp [allLeafNodes, ih]

theorem Node.rawsKept_group {escapes : Bool} {i : Unit} {k : Logic} {cs : List (Node Unit)} :
    (Node.group i k cs).RawsKept escapes ↔ ∀ n ∈ cs, n.RawsKept escapes := by
  constructor
  · intro h n hn j s hs
    exact h j s (mem_allLeafNodes.2 ⟨n, hn, hs⟩)
  · intro h j s hs
    obtain ⟨n, hn, hs⟩ := mem_allLeafNodes.1 hs
    exact h n hn j s hs

section Read

open Word

variable {escapes : Bool} {ws : List Word} {inner : List Word → Attempt (Option Level)}

/-- What a part may be read as. -/
inductive ReadAs (inner : List Word → Attempt (Option Level)) (ws : List Word) : Node Unit → Prop
  | level {body : List Word} {warnings : List Warning} (hu : unwrap? ws = some body)
      (h : (inner body).result = some (none, warnings)) : ReadAs inner ws (.raw () (source body))
  | group {body : List Word} {k : Logic} {cs : List (Node Unit)} {warnings : List Warning}
      (hu : unwrap? ws = some body) (h : (inner body).result = some (some ⟨k, cs⟩, warnings)) :
      ReadAs inner ws (.group () k cs)
  | condition (c : Condition) : ReadAs inner ws (.condition () c)
  | fragment (hu : unwrap? ws = none) (h : (Condition.ofTokens (ws.map token)).1 = none) :
      ReadAs inner ws (.raw () (source ws))

theorem readAs_of_readPart {n : Node Unit} {warnings : List Warning}
    (h : (readPart inner ws).result = some (some n, warnings)) : ReadAs inner ws n := by
  obtain ⟨body, hu, hl, hn⟩ | ⟨body, l, hu, hl, hn⟩ | ⟨c, -, -, hn, -⟩ | ⟨hu, hc, hn, -⟩ :=
    readPart_outcomes h
  · obtain rfl := Option.some.inj hn
    exact .level hu hl
  · obtain ⟨k, _ | ⟨m, ms⟩⟩ := l
    · cases hn
    · obtain rfl := Option.some.inj hn
      exact .group hu hl
  · obtain rfl := Option.some.inj hn
    exact .condition c
  · obtain rfl := Option.some.inj hn
    exact .fragment hu hc

theorem readAs_of_collect {ps : List (List Word)} {ns : List (Node Unit)} {warnings : List Warning}
    (h : (Attempt.collect (ps.map (readPart inner))).result = some (ns, warnings)) :
    ∀ n ∈ ns, ∃ p ∈ ps, ReadAs inner p n :=
  forall_of_collect_readPart (fun p hp _ _ hn => ⟨p, hp, readAs_of_readPart hn⟩) h

/-- A level is understood just if it is clear, and then its members are what its parts are read
as. -/
theorem readLevel_cases {room : Nat} {l : Option Level} {warnings : List Warning}
    (h : (readLevel (room + 1) ws).result = some (l, warnings)) :
    l = none ∧ (Split.ofWords ws).1.isClear = false ∨
      ∃ k ps n ns, l = some ⟨k, ns⟩ ∧ Split.ofWords ws = (.parts k ps, n) ∧
        (Attempt.collect (ps.map (readPart (readLevel room)))).result = some (ns, warnings) := by
  obtain ⟨rfl, ⟨hs, -⟩ | ⟨hs, -⟩⟩ | h := readLevel_outcomes h
  · exact .inl ⟨rfl, by rw [hs]; rfl⟩
  · exact .inl ⟨rfl, by rw [hs]; rfl⟩
  · exact .inr h

/-- What there is to say of the raw SQL of a level: a level that is not understood is not clear. -/
def RawsKept (escapes : Bool) (ws : List Word) : Option Level → Prop
  | none => (Split.ofWords ws).1.isClear = false
  | some l => ∀ n ∈ l.children, n.RawsKept escapes

theorem ReadAs.rawsKept {n : Node Unit} (hn : ReadAs inner ws n)
    (hinner : ∀ vs, Intact escapes vs → ∀ l w, (inner vs).result = some (l, w) →
      RawsKept escapes vs l)
    (h : Intact escapes ws) (hne : ws ≠ []) (hcut : cut 0 false ws = (ws, [])) :
    n.RawsKept escapes := by
  have raw : ∀ {s}, Kept escapes s → (Node.raw () s).RawsKept escapes := by
    intro s hs i s' hmem
    rw [Node.leafNodes, List.mem_singleton] at hmem
    rwa [(Node.raw.inj hmem).2]
  cases hn with
  | level hu hl => exact raw (kept_level (h.body hu) (hinner _ (h.body hu) _ _ hl))
  | group hu hl => exact Node.rawsKept_group.2 (hinner _ (h.body hu) _ _ hl)
  | condition c =>
    intro i s hmem
    rw [Node.leafNodes, List.mem_singleton] at hmem
    cases hmem
  | fragment hu hc => exact raw (kept_fragment h hne ⟨hcut, hu, hc⟩)

/-- **Raw SQL** below a level is the text of fragments and of levels that are not clear. -/
theorem rawsKept_readLevel (room : Nat) (h : Intact escapes ws) {l : Option Level}
    {warnings : List Warning} (hl : (readLevel room ws).result = some (l, warnings)) :
    RawsKept escapes ws l := by
  induction room generalizing ws l warnings with
  | zero => cases hl
  | succ room ih =>
    obtain ⟨rfl, hclear⟩ | ⟨k, ps, n, ns, rfl, hs, hns⟩ := readLevel_cases hl
    · exact hclear
    · intro m hm
      obtain ⟨p, hp, hread⟩ := readAs_of_collect hns m hm
      obtain ⟨hne, hpart, hcut⟩ := h.part hs hp
      exact hread.rawsKept (fun vs hvs l w hl => ih hvs hl) hpart hne hcut

end Read

/-! ## Depth -/

theorem Node.maxDepth_le_iff {ι : Type} {ns : List (Node ι)} {d : Nat} :
    maxDepth ns ≤ d ↔ ∀ n ∈ ns, n.depth ≤ d := by
  induction ns with
  | nil => exact ⟨fun _ n hn => absurd hn List.not_mem_nil, fun _ => Nat.zero_le d⟩
  | cons n ns ih => rw [maxDepth, Nat.max_le, ih, List.forall_mem_cons]

/-- What is read is nested no deeper than there is room. -/
theorem depth_readLevel_le (room : Nat) {ws : List Word} {l : Level} {warnings : List Warning}
    (hl : (readLevel room ws).result = some (some l, warnings)) :
    1 + Node.maxDepth l.children ≤ room := by
  induction room generalizing ws l warnings with
  | zero => cases hl
  | succ room ih =>
    obtain ⟨hnone, -⟩ | ⟨k, ps, n, ns, hsome, hs, hns⟩ := readLevel_cases hl
    · cases hnone
    · obtain rfl := Option.some.inj hsome
      rw [Nat.add_comm]
      refine Nat.succ_le_succ (Node.maxDepth_le_iff.2 fun m hm => ?_)
      obtain ⟨p, -, hread⟩ := readAs_of_collect hns m hm
      cases hread with
      | group hu hl => exact ih hl
      | level | condition | fragment => exact Nat.zero_le _

end SqlFilter
