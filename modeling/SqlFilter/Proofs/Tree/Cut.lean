import Mathlib
import SqlFilter.Tree.Split

/-!
# Where a level is cut

A level is cut at its top-level connectives. What the cut passes over without meeting one is
described by the state behind it (`Word.carry`): a pair of matching parentheses leaves the state
as it was. The parts of a level together with its connectives are the level again
(`Word.map_token_cut`).
-/

namespace SqlFilter

/-- The connective as a token. -/
def Logic.token : Logic → Token
  | and => .keyword .and
  | or => .keyword .or

namespace Word

/-! ## Parentheses -/

theorem balanced_append {depth : Nat} {ws : List Word} (h : balanced depth ws = true)
    (extra : Nat) (vs : List Word) : balanced (depth + extra) (ws ++ vs) = balanced extra vs := by
  induction ws generalizing depth with
  | nil =>
    obtain rfl : depth = 0 := of_decide_eq_true h
    rw [Nat.zero_add, List.nil_append]
  | cons w ws ih =>
    rw [balanced] at h
    rw [List.cons_append, balanced]
    split_ifs at h ⊢
    · rw [Nat.add_right_comm, ih h]
    · obtain ⟨hd, hws⟩ := Bool.and_eq_true_iff.1 h
      have hd : depth ≠ 0 := of_decide_eq_true hd
      rw [show depth + extra - 1 = depth - 1 + extra by omega, ih hws]
      simp [hd]
    · exact ih h

theorem eq_append_of_enclosed? {depth : Nat} {ws body : List Word}
    (h : enclosed? depth ws = some body) :
    ∃ w, ws = body ++ [w] ∧ w.token = .rightParen ∧ balanced depth body = true := by
  induction ws generalizing depth body with
  | nil => cases h
  | cons v ws ih =>
    rw [enclosed?] at h
    split_ifs at h with hl hr hd hws
    · obtain ⟨rest, hrest, rfl⟩ := Option.map_eq_some_iff.1 h
      obtain ⟨w, rfl, hw, hb⟩ := ih hrest
      exact ⟨w, rfl, hw, by rw [balanced, if_pos hl, hb]⟩
    · obtain ⟨rest, hrest, rfl⟩ := Option.map_eq_some_iff.1 h
      obtain ⟨w, rfl, hw, hb⟩ := ih hrest
      exact ⟨w, rfl, hw, by rw [balanced, if_neg hl, if_pos hr, hb]; simpa using hd⟩
    · obtain rfl := Option.some.inj h
      obtain rfl : depth = 0 := not_not.1 hd
      exact ⟨v, by rw [hws]; rfl, hr, rfl⟩
    · obtain ⟨rest, hrest, rfl⟩ := Option.map_eq_some_iff.1 h
      obtain ⟨w, rfl, hw, hb⟩ := ih hrest
      exact ⟨w, rfl, hw, by rw [balanced, if_neg hl, if_neg hr, hb]⟩

theorem enclosed?_append {depth : Nat} {body : List Word} (h : balanced depth body = true)
    {w : Word} (hw : w.token = .rightParen) : enclosed? depth (body ++ [w]) = some body := by
  induction body generalizing depth with
  | nil =>
    obtain rfl : depth = 0 := of_decide_eq_true h
    simp [enclosed?, hw]
  | cons v body ih =>
    rw [balanced] at h
    rw [List.cons_append, enclosed?]
    split_ifs at h ⊢
    · rw [ih h]
      rfl
    · rw [ih (Bool.and_eq_true_iff.1 h).2]
      rfl
    · exact absurd h (by simp_all)
    · exact absurd h (by simp_all)
    · rw [ih h]
      rfl

/-- What is enclosed is what stands between two parentheses and is balanced itself. -/
theorem unwrap?_eq_some_iff {ws body : List Word} :
    unwrap? ws = some body ↔ ∃ o c, ws = o :: (body ++ [c]) ∧ o.token = .leftParen ∧
      c.token = .rightParen ∧ balanced 0 body = true := by
  constructor
  · intro h
    cases ws with
    | nil => cases h
    | cons o ws =>
      rw [unwrap?] at h
      split_ifs at h with ho
      obtain ⟨c, rfl, hc, hb⟩ := eq_append_of_enclosed? h
      exact ⟨o, c, rfl, ho, hc, hb⟩
  · rintro ⟨o, c, rfl, ho, hc, hb⟩
    rw [unwrap?, if_pos ho, enclosed?_append hb hc]

/-! ## Passing over words -/

/-- The state of the cut behind the words: the number of open parentheses and whether a `BETWEEN`
waits for its `AND`. There is none if a connective is met. -/
def carry (depth : Nat) (pending : Bool) : List Word → Option (Nat × Bool)
  | [] => some (depth, pending)
  | w :: ws =>
    match connective? depth pending w with
    | some _ => none
    | none => carry (depthAfter depth w) (pendingAfter depth pending w) ws

theorem carry_cons {depth : Nat} {pending : Bool} {w : Word}
    (h : connective? depth pending w = none) (ws : List Word) :
    carry depth pending (w :: ws) =
      carry (depthAfter depth w) (pendingAfter depth pending w) ws := by
  rw [carry, h]

section Passed

variable {depth depth' : Nat} {pending pending' : Bool} {ws : List Word}
  (h : carry depth pending ws = some (depth', pending'))

include h

/-- Induction along words that are passed over, from the state behind them. -/
theorem carry_induction {motive : Nat → Bool → List Word → Prop} (nil : motive depth' pending' [])
    (cons : ∀ depth pending w ws, connective? depth pending w = none →
      motive (depthAfter depth w) (pendingAfter depth pending w) ws →
        motive depth pending (w :: ws)) : motive depth pending ws := by
  induction ws generalizing depth pending with
  | nil =>
    obtain ⟨rfl, rfl⟩ := Prod.mk.inj (Option.some.inj h)
    exact nil
  | cons w ws ih =>
    cases hc : connective? depth pending w with
    | some k =>
      rw [carry, hc] at h
      cases h
    | none =>
      rw [carry_cons hc] at h
      exact cons depth pending w ws hc (ih h)

theorem carry_append (vs : List Word) :
    carry depth pending (ws ++ vs) = carry depth' pending' vs := by
  refine carry_induction (motive := fun depth pending ws =>
    carry depth pending (ws ++ vs) = carry depth' pending' vs) h rfl ?_
  intro depth pending w ws hc ih
  rw [List.cons_append, carry_cons hc, ih]

/-- What is passed over belongs to the part that comes next. -/
theorem cut_append (vs : List Word) : cut depth pending (ws ++ vs) =
    (ws ++ (cut depth' pending' vs).1, (cut depth' pending' vs).2) := by
  refine carry_induction (motive := fun depth pending ws => cut depth pending (ws ++ vs) =
    (ws ++ (cut depth' pending' vs).1, (cut depth' pending' vs).2)) h rfl ?_
  intro depth pending w ws hc ih
  simp only [List.cons_append, cut, hc, ih]

end Passed

theorem connective?_of_pos {depth : Nat} (h : depth ≠ 0) (pending : Bool) (w : Word) :
    connective? depth pending w = none := if_pos h

theorem pendingAfter_of_pos {depth : Nat} (h : depth ≠ 0) (pending : Bool) (w : Word) :
    pendingAfter depth pending w = pending := if_pos h

/-- Matching parentheses inside others are passed over. -/
theorem carry_of_balanced {depth : Nat} {ws : List Word} (h : balanced depth ws = true)
    (extra : Nat) (pending : Bool) :
    carry (depth + (extra + 1)) pending ws = some (extra + 1, pending) := by
  induction ws generalizing depth with
  | nil =>
    obtain rfl : depth = 0 := of_decide_eq_true h
    rw [carry, Nat.zero_add]
  | cons w ws ih =>
    have hpos : depth + (extra + 1) ≠ 0 := Nat.succ_ne_zero _
    rw [carry_cons (connective?_of_pos hpos pending w), pendingAfter_of_pos hpos, depthAfter]
    rw [balanced] at h
    split_ifs at h ⊢
    · rw [Nat.add_right_comm, ih h]
    · obtain ⟨hd, hws⟩ := Bool.and_eq_true_iff.1 h
      have hd : depth ≠ 0 := of_decide_eq_true hd
      rw [show depth + (extra + 1) - 1 = depth - 1 + (extra + 1) by omega, ih hws]
    · exact ih h

/-- A pair of parentheses at the top is passed over. -/
theorem carry_parenthesized {o c : Word} {body : List Word} (ho : o.token = .leftParen)
    (hc : c.token = .rightParen) (hb : balanced 0 body = true) (pending : Bool) :
    carry 0 pending (o :: (body ++ [c])) = some (0, pending) := by
  have hopen : connective? 0 pending o = none := by simp [connective?, ho]
  have hbody := carry_of_balanced hb 0 pending
  rw [Nat.zero_add, Nat.zero_add] at hbody
  rw [carry_cons hopen, show depthAfter 0 o = 1 by simp [depthAfter, ho],
    show pendingAfter 0 pending o = pending by simp [pendingAfter, ho], carry_append hbody,
    carry_cons (connective?_of_pos Nat.one_ne_zero pending c), pendingAfter_of_pos Nat.one_ne_zero,
    show depthAfter 1 c = 0 by simp [depthAfter, hc]]
  rfl

/-! ## The parts -/

theorem token_of_connective? {depth : Nat} {pending : Bool} {w : Word} {k : Logic}
    (h : connective? depth pending w = some k) : w.token = k.token := by
  unfold connective? at h
  split_ifs at h with _ hw _ hw
  · rw [hw, ← Option.some.inj h]
    rfl
  · rw [hw, ← Option.some.inj h]
    rfl

theorem cut_last {p : List Word} (h : carry 0 false p = some (0, false)) :
    cut 0 false p = (p, []) := by
  have := cut_append h []
  rwa [List.append_nil, cut, List.append_nil] at this

theorem connective?_of_token {w : Word} {k : Logic} (hw : w.token = k.token) :
    connective? 0 false w = some k := by
  cases k <;> simp [connective?, hw, Logic.token]

theorem cut_joined {p : List Word} (h : carry 0 false p = some (0, false)) {w : Word} {k : Logic}
    (hw : w.token = k.token) (ws : List Word) :
    cut 0 false (p ++ w :: ws) = (p, (k, (cut 0 false ws).1) :: (cut 0 false ws).2) := by
  simp only [cut_append h, cut, connective?_of_token hw, List.append_nil]

/-- The parts and the connectives are the level. -/
theorem map_token_cut (depth : Nat) (pending : Bool) (ws : List Word) :
    ws.map token = (cut depth pending ws).1.map token ++
      (cut depth pending ws).2.flatMap fun x => x.1.token :: x.2.map token := by
  induction ws generalizing depth pending with
  | nil => rfl
  | cons w ws ih =>
    cases hc : connective? depth pending w with
    | some k =>
      simp only [cut, hc, List.map_cons, List.map_nil, List.nil_append, List.flatMap_cons,
        List.cons_append, token_of_connective? hc]
      rw [← ih]
    | none =>
      simp only [cut, hc, List.map_cons, List.cons_append]
      rw [← ih]

end Word

namespace Split

/-- What is known of the connective so far: it is `k`, or there is none yet and `k` is what a single
part goes with. -/
def Agrees (seen : Option Logic) (more : List (Logic × List Word)) (k : Logic) : Prop :=
  seen = some k ∨ seen = none ∧ (more = [] → k = .and)

theorem Agrees.any_eq_false {seen : Option Logic} {more : List (Logic × List Word)} {k : Logic}
    (h : Agrees seen more k) : seen.any (· ≠ k) = false := by
  obtain rfl | ⟨rfl, -⟩ := h
  · simp
  · rfl

theorem eq_of_check {seen : Option Logic} {part : List Word} {more : List (Logic × List Word)}
    {k : Logic} {ps : List (List Word)} {n : Nat} (h : check seen part more = (parts k ps, n)) :
    ps = part :: more.map Prod.snd ∧ (∀ p ∈ ps, p ≠ []) ∧ (∀ x ∈ more, x.1 = k) ∧
      Agrees seen more k := by
  induction more generalizing seen part ps n with
  | nil =>
    rw [check] at h
    split_ifs at h with hp
    · cases congrArg Prod.fst h
    · obtain ⟨rfl, rfl⟩ := parts.inj (congrArg Prod.fst h)
      refine ⟨rfl, fun p hmem => List.mem_singleton.1 hmem ▸ hp, nofun, ?_⟩
      cases seen with
      | none => exact .inr ⟨rfl, fun _ => rfl⟩
      | some s => exact .inl rfl
  | cons x more ih =>
    obtain ⟨k₀, next⟩ := x
    rw [check] at h
    split_ifs at h with hseen hp
    · cases congrArg Prod.fst h
    · cases congrArg Prod.fst h
    · have hout := congrArg Prod.fst h
      dsimp only at hout
      split at hout
      · next k' ps' hrest =>
        obtain ⟨rfl, rfl⟩ := parts.inj hout
        obtain ⟨rfl, hne, hmore, hk⟩ := ih (Prod.ext hrest rfl)
        -- the rest was checked behind this connective, so it is the one of all
        obtain rfl : k₀ = k' := by
          obtain hk | ⟨hk, -⟩ := hk
          · exact Option.some.inj hk
          · cases hk
        refine ⟨rfl, List.forall_mem_cons.2 ⟨hp, hne⟩, List.forall_mem_cons.2 ⟨rfl, hmore⟩, ?_⟩
        cases seen with
        | none => exact .inr ⟨rfl, nofun⟩
        | some s => exact .inl (by simpa using hseen)
      · next hrest => exact absurd hout (hrest _ _)

theorem check_eq {seen : Option Logic} {part : List Word} {more : List (Logic × List Word)}
    {k : Logic} (hp : part ≠ []) (hps : ∀ x ∈ more, x.1 = k ∧ x.2 ≠ [])
    (hseen : Agrees seen more k) :
    (check seen part more).1 = parts k (part :: more.map Prod.snd) := by
  induction more generalizing seen part with
  | nil =>
    rw [check, if_neg hp]
    obtain rfl | ⟨rfl, hk⟩ := hseen
    · rfl
    · rw [hk rfl]
      rfl
  | cons x more ih =>
    obtain ⟨k₀, next⟩ := x
    obtain ⟨⟨rfl, hnext⟩, hmore⟩ := List.forall_mem_cons.1 hps
    have hrest := @ih (some k₀) next hnext hmore (.inl rfl)
    rw [check, if_neg (by rw [hseen.any_eq_false]; exact Bool.false_ne_true), if_neg hp]
    simp only [hrest, List.map_cons]

/-- Parts joined by one connective make up a clear level. -/
theorem ofWords_eq_of_cut {ws p : List Word} {ps : List (List Word)} {k : Logic}
    (hcut : Word.cut 0 false ws = (p, ps.map (k, ·))) (hne : ∀ q ∈ p :: ps, q ≠ [])
    (hk : ps = [] → k = .and) : (ofWords ws).1 = .parts k (p :: ps) := by
  have hws : ws ≠ [] := by
    rintro rfl
    exact hne p List.mem_cons_self (congrArg Prod.fst hcut).symm
  obtain ⟨hp, hps⟩ := List.forall_mem_cons.1 hne
  have hmore : ∀ x ∈ ps.map (k, ·), x.1 = k ∧ x.2 ≠ [] := by
    intro x hx
    obtain ⟨q, hq, rfl⟩ := List.mem_map.1 hx
    exact ⟨rfl, hps q hq⟩
  have hsnd : (ps.map (k, ·)).map Prod.snd = ps := by
    rw [List.map_map]
    exact List.map_id ps
  rw [ofWords, if_neg hws, hcut]
  exact (check_eq hp hmore (.inr ⟨rfl, fun h => hk (List.map_eq_nil_iff.1 h)⟩)).trans
    (by rw [hsnd])

/-- Parts joined by one connective, or a single part. -/
theorem eq_of_ofWords {ws : List Word} {k : Logic} {ps : List (List Word)} {n : Nat}
    (h : ofWords ws = (parts k ps, n)) :
    ws = [] ∧ k = .and ∧ ps = [] ∨
      ∃ part more, ps = part :: more ∧ (more = [] → k = .and) ∧ (∀ p ∈ ps, p ≠ []) ∧
        ws.map Word.token =
          part.map Word.token ++ more.flatMap fun p => k.token :: p.map Word.token := by
  unfold ofWords at h
  split_ifs at h with hw
  · obtain ⟨rfl, rfl⟩ := parts.inj (congrArg Prod.fst h)
    exact .inl ⟨hw, rfl, rfl⟩
  · obtain ⟨rfl, hne, hk, hseen⟩ := eq_of_check h
    refine .inr ⟨_, _, rfl, ?_, hne, ?_⟩
    · intro hmore
      obtain hseen | ⟨-, hseen⟩ := hseen
      · cases hseen
      · exact hseen (List.map_eq_nil_iff.1 hmore)
    · have hmap : (Word.cut 0 false ws).2.map (fun x => x.1.token :: x.2.map Word.token) =
          (Word.cut 0 false ws).2.map (fun x => k.token :: x.2.map Word.token) :=
        List.map_congr_left fun x hx => by rw [hk x hx]
      rw [Word.map_token_cut 0 false ws, List.flatMap_map, List.flatMap_def, List.flatMap_def, hmap]

end Split

end SqlFilter
