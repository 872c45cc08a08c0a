import SqlFilter.Proofs.Tree.Fragment
import SqlFilter.Proofs.Tree.Places

/-!
# Sound places

The reading by places never fails, and gives what the reader gives (`Reading.watch_sound`). It is
the parentheses that carry this: only those of the text as a whole are checked, but neither stripping
a pair of them nor cutting a level at its connectives tears a pair apart, so that they match in every
stretch that is visited.
-/

namespace SqlFilter

open Word

/-! ## Matching parentheses -/

namespace Word

/-- How often a token occurs. -/
def occurrences (t : Token) (ws : List Word) : Nat := (ws.map token).count t

/-- The parentheses come in pairs: nowhere are more of them closed than opened, and at the end as
many. -/
def Paired (ws : List Word) : Prop :=
  (∀ us, us <+: ws → occurrences .rightParen us ≤ occurrences .leftParen us) ∧
    occurrences .rightParen ws = occurrences .leftParen ws

theorem occurrences_cons (t : Token) (w : Word) (ws : List Word) :
    occurrences t (w :: ws) = occurrences t ws + if w.token = t then 1 else 0 := by
  simp only [occurrences, List.map_cons, List.count_cons, beq_iff_eq]

/-- A word in front shifts what is closed against what is opened as it does the depth. -/
theorem occurrences_shift {depth : Nat} {w : Word} (hd : w.token = .rightParen → depth ≠ 0)
    (ws : List Word) :
    depth + occurrences .leftParen (w :: ws) + occurrences .rightParen ws =
      depthAfter depth w + occurrences .leftParen ws + occurrences .rightParen (w :: ws) := by
  rw [occurrences_cons, occurrences_cons, depthAfter]
  by_cases hl : w.token = .leftParen
  · simp only [hl, if_true, reduceCtorEq, if_false]
    omega
  · by_cases hr : w.token = .rightParen
    · have := hd hr
      simp only [hr, if_true, reduceCtorEq, if_false]
      omega
    · simp only [hl, hr, if_false]
      omega

theorem balanced_iff_occurrences {depth : Nat} {ws : List Word} : balanced depth ws = true ↔
    (∀ us, us <+: ws → occurrences .rightParen us ≤ depth + occurrences .leftParen us) ∧
      occurrences .rightParen ws = depth + occurrences .leftParen ws := by
  induction ws generalizing depth with
  | nil =>
    have hnil : ∀ t, occurrences t [] = 0 := fun t => rfl
    simp [balanced, List.prefix_nil, hnil, eq_comm]
  | cons w ws ih =>
    rw [balanced_cons_iff, ih]
    constructor
    · rintro ⟨hd, hpre, htotal⟩
      refine ⟨fun us hus => ?_, ?_⟩
      · rcases List.prefix_cons_iff.1 hus with rfl | ⟨us, rfl, hus⟩
        · exact Nat.zero_le _
        · have hshift := occurrences_shift hd us
          have := hpre us (List.cons_prefix_cons.1 hus).2
          omega
      · have hshift := occurrences_shift hd ws
        omega
    · rintro ⟨hpre, htotal⟩
      have hd : w.token = .rightParen → depth ≠ 0 := by
        rintro hr rfl
        have hfirst := hpre [w] ⟨ws, rfl⟩
        rw [occurrences_cons, occurrences_cons, hr] at hfirst
        exact absurd hfirst (by decide)
      refine ⟨hd, fun us hus => ?_, ?_⟩
      · have hshift := occurrences_shift hd us
        have := hpre (w :: us) (List.cons_prefix_cons.2 ⟨rfl, hus⟩)
        omega
      · have hshift := occurrences_shift hd ws
        omega

theorem balanced_iff_paired {ws : List Word} : balanced 0 ws = true ↔ Paired ws := by
  rw [balanced_iff_occurrences]
  simp only [Nat.zero_add]
  rfl

theorem unwrap?_eq_none {o c : Word} {body : List Word}
    (h : ¬(o.token = .leftParen ∧ c.token = .rightParen)) :
    unwrap? (o :: (body ++ [c])) = none := by
  refine Option.eq_none_iff_forall_ne_some.2 fun inner hinner => ?_
  obtain ⟨o', c', heq, ho, hc, -⟩ := unwrap?_eq_some_iff.1 hinner
  obtain ⟨rfl, htail⟩ := List.cons.inj heq
  obtain ⟨-, hlast⟩ := List.append_inj' htail rfl
  obtain rfl := List.singleton_inj.1 hlast
  exact h ⟨ho, hc⟩

theorem depthAfter_connective {w : Word} {k : Logic} (hw : w.token = k.token) (depth : Nat) :
    Word.depthAfter depth w = depth := by
  cases k <;> simp [Word.depthAfter, hw, Logic.token]

end Word

namespace Split

/-- What follows with one more part in front. -/
def withPart (p : List Word) : Split → Split
  | .parts k ps => .parts k (p :: ps)
  | other => other

theorem check_cons (seen : Option Logic) (part : List Word) (k : Logic) (next : List Word)
    (more : List (Logic × List Word)) : check seen part ((k, next) :: more) =
      if seen.any (· ≠ k) then (.ambiguous, part.length + 1)
      else if part = [] then (.malformed, 1)
      else (withPart part (check (some k) next more).1,
        part.length + 1 + (check (some k) next more).2) := rfl

theorem eq_of_check_some {k k' : Logic} {part : List Word} {more : List (Logic × List Word)}
    {ps : List (List Word)} {n : Nat} (h : check (some k) part more = (.parts k' ps, n)) :
    k' = k := by
  obtain ⟨-, -, -, hk | ⟨hnone, -⟩⟩ := eq_of_check h
  · exact (Option.some.inj hk).symm
  · cases hnone

end Split

/-! ## Sound visits -/

/-- The parts follow one another from place `lo` up to place `hi`, each but the last one with the
connective behind it. -/
inductive Tiles (ws : List Word) (k : Logic) (hi : Nat) : (lo : Nat) → List Stretch → Prop
  | last {lo : Nat} : Tiles ws k hi lo [⟨lo, hi⟩]
  | more {lo mid : Nat} {w : Word} {rs : List Stretch} (hget : ws[mid]? = some w)
    (hw : w.token = k.token) (htiles : Tiles ws k hi (mid + 1) rs) :
    Tiles ws k hi lo (⟨lo, mid⟩ :: rs)

/-- The stretch lies within the words, and its parentheses match. -/
structure Stretch.Sound (r : Stretch) (ws : List Word) : Prop where
  lo_le : r.lo ≤ r.hi
  hi_le : r.hi ≤ ws.length
  paired : Paired (r.words ws)

/-- The stretch is made up of the parts with the connective between them. There are no parts only of
a stretch without words. -/
structure Stretch.MadeUp (r : Stretch) (ws : List Word) (k : Logic) (rs : List Stretch) : Prop where
  tiles : rs = [] ∧ r.lo = r.hi ∨ Tiles ws k r.hi r.lo rs
  parts : ∀ p ∈ rs, p.lo < p.hi ∧ p.Sound ws

/-- The visit is to a sound stretch, where parentheses matter, and what a stretch is cut into makes
it up. -/
def Visit.Sound (ws : List Word) : Visit → Prop
  | level r => r.Sound ws
  | split r outcome => r.Sound ws ∧ ∀ k rs, outcome = .parts k rs → r.MadeUp ws k rs
  | wraps r => r.Sound ws
  | condition r => r.Sound ws
  | source r => r.lo ≤ r.hi ∧ r.hi ≤ ws.length

/-- What the stretch is cut into, as words. -/
def Division.words (ws : List Word) : Division → Split
  | parts k rs => .parts k (rs.map (·.words ws))
  | ambiguous => .ambiguous
  | malformed => .malformed

/-- Parts that are not empty come one after the other. -/
theorem Tiles.bounds {ws : List Word} {k : Logic} {lo hi : Nat} {rs : List Stretch}
    (h : Tiles ws k hi lo rs) (hne : ∀ p ∈ rs, p.lo < p.hi) : lo < hi ∧ ∀ p ∈ rs, p.hi ≤ hi := by
  induction h with
  | last => exact ⟨hne _ List.mem_cons_self, List.forall_mem_singleton.2 (Nat.le_refl _)⟩
  | more hget hw htiles ih =>
    obtain ⟨hfirst, hrest⟩ := List.forall_mem_cons.1 hne
    obtain ⟨hlt, hle⟩ := ih hrest
    dsimp only at hfirst
    exact ⟨by omega, List.forall_mem_cons.2 ⟨by dsimp only; omega, hle⟩⟩

/-- The parts in front of place `start` are `done`, and the division goes on from there as the cut of
the words does. -/
inductive Divides (ws : List Word) (start hi : Nat) (done : List Stretch) : Division → Split → Prop
  | parts {k : Logic} {rs : List Stretch} (htiles : Tiles ws k hi start rs) :
    Divides ws start hi done (.parts k (done ++ rs)) (.parts k (rs.map (·.words ws)))
  | ambiguous : Divides ws start hi done .ambiguous .ambiguous
  | malformed : Divides ws start hi done .malformed .malformed

/-- A part with a connective behind it goes in front of the parts that follow. -/
theorem Divides.part {ws : List Word} {start mid hi : Nat} {done : List Stretch} {d : Division}
    {o : Split} {w : Word} {k : Logic} (h : Divides ws (mid + 1) hi (done ++ [⟨start, mid⟩]) d o)
    (hget : ws[mid]? = some w) (hw : w.token = k.token) (hk : ∀ k' ps, o = .parts k' ps → k' = k) :
    Divides ws start hi done d (Split.withPart (Stretch.words ⟨start, mid⟩ ws) o) := by
  cases h with
  | parts htiles =>
    obtain rfl := hk _ _ rfl
    rw [← List.append_cons]
    exact .parts (.more hget hw htiles)
  | ambiguous => exact .ambiguous
  | malformed => exact .malformed

theorem Divides.words_eq {ws : List Word} {start hi : Nat} {d : Division} {o : Split}
    (h : Divides ws start hi [] d o) : d.words ws = o := by
  cases h <;> rfl

theorem Divides.tiles {ws : List Word} {start hi : Nat} {k : Logic} {rs : List Stretch} {o : Split}
    (h : Divides ws start hi [] (.parts k rs) o) : Tiles ws k hi start rs := by
  cases h with
  | parts htiles => exact htiles

theorem Stretch.Covers.sound {r : Stretch} {ws vs : List Word} (h : r.Covers ws vs)
    (hb : balanced 0 vs = true) : r.Sound ws :=
  ⟨h.le.1, h.le.2, by rw [h.words_eq]; exact balanced_iff_paired.1 hb⟩

namespace Scanned

open Watched

variable {s : Scanned} {P : Visit → Prop}

/-! ## Words and text -/

theorem yields_wordAt {i hi : Nat} {w : Word} {vs : List Word}
    (h : Stretch.Covers ⟨i, hi⟩ s.words (w :: vs)) : Yields P (s.wordAt i) w :=
  .ofOption h.getElem?_lo

theorem yields_wordsAt {i hi : Nat} {vs : List Word} (h : Stretch.Covers ⟨i, hi⟩ s.words vs) :
    Yields P (s.wordsAt hi i) vs := by
  induction vs generalizing i with
  | nil =>
    rw [wordsAt, if_neg h.not_lt]
    exact .pure _
  | cons w vs ih =>
    rw [wordsAt, if_pos h.lt]
    exact (yields_wordAt h).bind ((ih h.tail).bind (.pure _))

/-- The text of every stretch is cut out as that of its words. -/
def Faithful (s : Scanned) : Prop :=
  ∀ r vs, Stretch.Covers r s.words vs → s.source? r = some (source vs)

theorem faithful_ofText (escapes : Bool) (text : String) : (ofText escapes text).Faithful :=
  fun _ _ h => source?_ofText h

theorem Faithful.yields_sourceAt (hs : s.Faithful) {r : Stretch} {vs : List Word}
    (h : r.Covers s.words vs) : Yields (Visit.Sound s.words) (s.sourceAt r) (source vs) :=
  (Yields.visit (show Visit.Sound s.words (.source r) from h.le)).bind (.ofOption (hs r vs h))

theorem yields_conditionAt {r : Stretch} {vs : List Word} (h : r.Covers s.words vs)
    (hb : balanced 0 vs = true) :
    Yields (Visit.Sound s.words) (s.conditionAt r) (Condition.ofTokens (vs.map token)) :=
  (Yields.visit (show Visit.Sound s.words (.condition r) from h.sound hb)).bind
    ((yields_wordsAt h).bind (.pure _))

/-! ## Pairs of parentheses -/

/-- The depth counts the parenthesis at the front as well. -/
theorem yields_closesAt {i hi depth : Nat} {vs : List Word}
    (h : Stretch.Covers ⟨i, hi⟩ s.words vs) :
    Yields P (s.closesAt hi i (depth + 1)) (enclosed? depth vs).isSome := by
  induction vs generalizing i depth with
  | nil =>
    rw [closesAt, if_neg h.not_lt]
    exact .pure _
  | cons w vs ih =>
    rw [closesAt, if_pos h.lt]
    refine (yields_wordAt h).bind ((Yields.depthAfter fun _ => Nat.succ_ne_zero depth).bind ?_)
    rw [enclosed?, Word.depthAfter]
    by_cases hl : w.token = .leftParen
    · have hr : w.token ≠ .rightParen := by
        rw [hl]
        decide
      rw [if_pos hl, if_pos hl, if_neg fun hclose => hr hclose.1, Option.isSome_map]
      exact ih h.tail
    · by_cases hr : w.token = .rightParen
      · rw [if_neg hl, if_neg hl, if_pos hr, if_pos hr, Nat.succ_sub_one]
        cases depth with
        | zero =>
          -- This is the parenthesis that belongs to the one at the front.
          have hhi : hi = i + (vs.length + 1) := h.hi_eq
          have hlast : decide (i + 1 = hi) =
              (if vs = [] then some ([] : List Word) else none).isSome := by
            cases vs with
            | nil => exact decide_eq_true hhi.symm
            | cons v vs =>
              rw [List.length_cons] at hhi
              exact decide_eq_false (by omega)
          rw [if_pos ⟨hr, rfl⟩, if_neg (not_not.2 rfl), hlast]
          exact .pure _
        | succ depth =>
          rw [if_neg fun hclose => Nat.succ_ne_zero depth hclose.2, if_pos (Nat.succ_ne_zero depth),
            Option.isSome_map]
          exact ih h.tail
      · rw [if_neg hl, if_neg hl, if_neg hr, if_neg hr, if_neg fun hclose => hr hclose.1,
          Option.isSome_map]
        exact ih h.tail

theorem yields_wrapsAt {r : Stretch} {vs : List Word} (h : r.Covers s.words vs)
    (hb : balanced 0 vs = true) :
    Yields (Visit.Sound s.words) (s.wrapsAt r) (unwrap? vs).isSome := by
  refine (Yields.visit (show Visit.Sound s.words (.wraps r) from h.sound hb)).bind ?_
  obtain ⟨lo, hi⟩ := r
  have hhi : hi = lo + vs.length := h.hi_eq
  dsimp only
  cases vs with
  | nil =>
    rw [if_pos (by rw [hhi]; exact Nat.lt_add_of_pos_right (by decide))]
    exact .pure _
  | cons o vs =>
    rcases List.eq_nil_or_concat' vs with rfl | ⟨body, c, rfl⟩
    · have hnone : (unwrap? [o]).isSome = false := by
        rw [unwrap?]
        split_ifs <;> rfl
      rw [if_pos (by rw [hhi]; exact Nat.lt_succ_self _), hnone]
      exact .pure _
    · rw [List.length_cons, List.length_append, List.length_singleton] at hhi
      have hlast : s.words[hi - 1]? = some c := by
        have hc := @Stretch.Covers.right s.words (o :: body) [c] lo hi h
        rw [show hi - 1 = lo + (o :: body).length by rw [List.length_cons]; omega]
        exact hc.getElem?_lo
      rw [if_neg (by omega)]
      refine (yields_wordAt h).bind ((Yields.ofOption hlast).bind ?_)
      split_ifs with hpair
      · rw [closesAt, if_pos h.lt]
        have hopen : Word.depthAfter 0 o = 1 := if_pos hpair.1
        have hr : o.token ≠ .rightParen := by
          rw [hpair.1]
          decide
        refine (yields_wordAt h).bind ((Yields.depthAfter fun hclose => absurd hclose hr).bind ?_)
        rw [if_neg fun hclose => hr hclose.1, hopen, unwrap?, if_pos hpair.1]
        exact yields_closesAt h.tail
      · rw [unwrap?_eq_none hpair]
        exact .pure _

/-- What a pair of parentheses encloses. -/
theorem exists_inside {r : Stretch} {vs body : List Word} (h : r.Covers s.words vs)
    (hu : unwrap? vs = some body) : ∃ inside, Yields P (insideOf r) inside ∧
      inside.Covers s.words body ∧ balanced 0 body = true := by
  obtain ⟨lo, hi⟩ := r
  obtain ⟨o, c, rfl, -, -, hb⟩ := unwrap?_eq_some_iff.1 hu
  have hhi : hi = lo + (o :: (body ++ [c])).length := h.hi_eq
  rw [List.length_cons, List.length_append, List.length_singleton] at hhi
  have hpos : hi ≠ 0 := by omega
  have hbody := h.tail.left
  rw [show lo + 1 + body.length = hi - 1 by omega] at hbody
  exact ⟨⟨lo + 1, hi - 1⟩, (Yields.pred hpos).bind (.pure _), hbody, hb⟩

/-- A pair of parentheses around the words is stripped. -/
theorem exists_strippedAt {r : Stretch} {vs : List Word} (h : r.Covers s.words vs)
    (hb : balanced 0 vs = true) :
    ∃ inside, Yields (Visit.Sound s.words) (s.strippedAt r) inside ∧
      inside.Covers s.words ((unwrap? vs).getD vs) ∧
      balanced 0 ((unwrap? vs).getD vs) = true := by
  have hwraps := yields_wrapsAt h hb
  cases hu : unwrap? vs with
  | some body =>
    rw [hu] at hwraps
    obtain ⟨inside, hinside, hbody, hbalanced⟩ := exists_inside h hu
    exact ⟨inside, hwraps.bind hinside, hbody, hbalanced⟩
  | none =>
    rw [hu] at hwraps
    exact ⟨r, hwraps.bind (.pure r), h, hb⟩

/-! ## Cutting -/

section Step

variable {lo hi i depth start : Nat} {w : Word} {vs : List Word} {pending : Bool}
  {seen : Option Logic} {done : List Stretch} {x : Division × Nat}
  (h : Stretch.Covers ⟨i, hi⟩ s.words (w :: vs)) (hd : w.token = .rightParen → depth ≠ 0)

include h hd

theorem yields_splitFrom_pass (hc : connective? depth pending w = none)
    (hx : Yields P (s.splitFrom lo hi (i + 1) (Word.depthAfter depth w)
      (pendingAfter depth pending w) seen start done) x) :
    Yields P (s.splitFrom lo hi i depth pending seen start done) x := by
  rw [splitFrom, if_pos h.lt]
  refine (yields_wordAt h).bind ((Yields.depthAfter hd).bind ?_)
  rw [hc]
  exact hx

theorem yields_splitFrom_connective {k : Logic} (hc : connective? depth pending w = some k)
    (hx : Yields P (if seen.any (· ≠ k) then pure (.ambiguous, i + 1 - lo)
      else if start = i then pure (.malformed, i + 1 - lo)
      else s.splitFrom lo hi (i + 1) depth false (some k) (i + 1) (done ++ [⟨start, i⟩])) x) :
    Yields P (s.splitFrom lo hi i depth pending seen start done) x := by
  rw [splitFrom, if_pos h.lt]
  refine (yields_wordAt h).bind ((Yields.depthAfter hd).bind ?_)
  rw [hc, depthAfter_connective (token_of_connective? hc)]
  exact hx

end Step

/-- Where the stretch ends, the words behind the last connective are the last part. -/
theorem exists_splitFrom_last {lo hi start : Nat} {part : List Word} {seen : Option Logic}
    {done : List Stretch} (h : Stretch.Covers ⟨start, hi⟩ s.words part) (hlo : lo ≤ start)
    (hlt : lo < hi) (depth : Nat) (pending : Bool) :
    ∃ d, Divides s.words start hi done d (Split.check seen part []).1 ∧
      Yields P (s.splitFrom lo hi (start + part.length) depth pending seen start done)
        (d, start - lo + (Split.check seen part []).2) := by
  have hhi : hi = start + part.length := h.hi_eq
  rw [splitFrom, if_neg (Nat.not_lt.2 hhi.le), Split.check]
  by_cases hpart : part = []
  · have hstart : start = hi := by rw [hhi, hpart]; rfl
    rw [if_pos hpart, if_pos hstart, if_neg fun hnone => hlt.ne hnone.2, ← hstart]
    exact ⟨_, .malformed, .pure _⟩
  · have hpos := List.length_pos_iff.2 hpart
    have hdiv := @Divides.parts s.words start hi done (seen.getD .and) _ .last
    rw [List.map_singleton, h.words_eq] at hdiv
    rw [if_neg hpart, if_neg (by omega), show hi - lo = start - lo + part.length by omega]
    exact ⟨_, hdiv, .pure _⟩

/-- The words behind the last connective are `part`, and `vs` are still to come. What is left to cut
gives what the check of the remaining parts gives, with the steps counted from place `lo`. -/
theorem exists_splitFrom {lo hi start depth : Nat} {part vs : List Word} {pending : Bool}
    {seen : Option Logic} {done : List Stretch} {o : Split × Nat}
    (h : Stretch.Covers ⟨start, hi⟩ s.words (part ++ vs)) (hb : balanced depth vs = true)
    (hlo : lo ≤ start) (hlt : lo < hi)
    (ho : Split.check seen (part ++ (cut depth pending vs).1) (cut depth pending vs).2 = o) :
    ∃ d, Divides s.words start hi done d o.1 ∧
      Yields P (s.splitFrom lo hi (start + part.length) depth pending seen start done)
        (d, start - lo + o.2) := by
  induction vs generalizing start depth part pending seen done o with
  | nil =>
    rw [cut, List.append_nil] at ho
    rw [List.append_nil] at h
    subst ho
    exact exists_splitFrom_last h hlo hlt depth pending
  | cons w vs ih =>
    obtain ⟨hd, hws⟩ := balanced_cons_iff.1 hb
    have hw := h.right
    cases hc : connective? depth pending w with
    | none =>
      -- The word joins the part, which then ends one place further on.
      simp only [cut, hc] at ho
      rw [List.append_cons] at h ho
      obtain ⟨d, hdiv, hy⟩ := @ih start _ (part ++ [w]) _ seen done o h hws hlo ho
      rw [List.length_append, List.length_singleton, ← Nat.add_assoc] at hy
      exact ⟨d, hdiv, yields_splitFrom_pass hw hd hc hy⟩
    | some k =>
      have hpart : Stretch.words ⟨start, start + part.length⟩ s.words = part := h.left.words_eq
      have hsteps : start + part.length + 1 - lo = start - lo + (part.length + 1) := by omega
      obtain ⟨rfl, hvs⟩ := balanced_of_connective? hc hb
      simp only [cut, hc, List.append_nil, Split.check_cons] at ho
      split_ifs at ho with hseen hnil
      · subst ho
        refine ⟨_, .ambiguous, yields_splitFrom_connective hw hd hc ?_⟩
        rw [if_pos hseen, hsteps]
        exact .pure _
      · subst ho
        refine ⟨_, .malformed, yields_splitFrom_connective hw hd hc ?_⟩
        rw [if_neg hseen, if_pos (by rw [hnil]; rfl), hsteps, hnil]
        exact .pure _
      · -- The part is done, and an empty one starts behind the connective.
        have hpos := List.length_pos_iff.2 hnil
        obtain ⟨d, hdiv, hy⟩ := @ih (start + part.length + 1) 0 [] false (some k)
          (done ++ [⟨start, start + part.length⟩]) _ hw.tail hvs (by omega) rfl
        rw [List.nil_append] at hdiv hy
        subst ho
        refine ⟨d, ?_, yields_splitFrom_connective hw hd hc ?_⟩
        · have hfront := hdiv.part hw.getElem?_lo (token_of_connective? hc) fun k' ps hps =>
            Split.eq_of_check_some (Prod.ext hps rfl)
          rw [hpart] at hfront
          exact hfront
        · rw [if_neg hseen, if_neg (by omega), ← Nat.add_assoc, ← hsteps]
          exact hy

/-- The parts of a level make it up. -/
theorem madeUp {r : Stretch} {vs : List Word} {k : Logic} {rs : List Stretch} {o : Split × Nat}
    (h : r.Covers s.words vs) (hb : balanced 0 vs = true) (ho : Split.ofWords vs = o)
    (hdiv : Divides s.words r.lo r.hi [] (.parts k rs) o.1) : r.MadeUp s.words k rs := by
  have hsplit : Split.ofWords vs = (.parts k (rs.map (·.words s.words)), o.2) :=
    ho.trans (Prod.ext hdiv.words_eq.symm rfl)
  have hmem : ∀ p ∈ rs, p.words s.words ≠ [] ∧ balanced 0 (p.words s.words) = true := by
    intro p hp
    obtain ⟨hne, hcut⟩ := Split.mem_of_ofWords hsplit (List.mem_map_of_mem hp)
    exact ⟨hne, (cut_of_mem hcut hb).1⟩
  have hlt : ∀ p ∈ rs, p.lo < p.hi := fun p hp => Stretch.lt_of_words_ne (hmem p hp).1
  obtain ⟨-, hhi⟩ := hdiv.tiles.bounds hlt
  refine ⟨.inr hdiv.tiles, fun p hp => ⟨hlt p hp, (hlt p hp).le, ?_, ?_⟩⟩
  · exact (hhi p hp).trans h.le.2
  · exact balanced_iff_paired.1 (hmem p hp).2

theorem yields_splitAt {r : Stretch} {d : Division} {n : Nat} (hr : r.Sound s.words)
    (hmade : ∀ k rs, d = .parts k rs → r.MadeUp s.words k rs)
    (hy : Yields (Visit.Sound s.words) (s.splitFrom r.lo r.hi r.lo 0 false none r.lo []) (d, n)) :
    Yields (Visit.Sound s.words) (s.splitAt r) (d, n) := by
  have hvisit : Visit.Sound s.words (.split r d) := ⟨hr, hmade⟩
  exact hy.bind ((Yields.visit hvisit).bind (.pure _))

theorem exists_splitAt {r : Stretch} {vs : List Word} (h : r.Covers s.words vs)
    (hb : balanced 0 vs = true) :
    ∃ d, Yields (Visit.Sound s.words) (s.splitAt r) (d, (Split.ofWords vs).2) ∧
      d.words s.words = (Split.ofWords vs).1 ∧ ∀ k rs, d = .parts k rs → r.MadeUp s.words k rs := by
  by_cases hvs : vs = []
  · subst hvs
    have hhi : r.lo = r.hi := h.hi_eq.symm
    have hmade : ∀ k rs, Division.parts .and [] = .parts k rs → r.MadeUp s.words k rs := by
      intro k rs hparts
      obtain ⟨rfl, rfl⟩ := Division.parts.inj hparts
      exact ⟨.inl ⟨rfl, hhi⟩, fun p hp => absurd hp List.not_mem_nil⟩
    refine ⟨.parts .and [], yields_splitAt (h.sound hb) hmade ?_, rfl, hmade⟩
    rw [splitFrom, if_neg (Nat.not_lt.2 hhi.ge), if_pos hhi, if_pos ⟨rfl, hhi⟩, hhi, Nat.sub_self]
    exact .pure _
  · have hlt : r.lo < r.hi := by
      have hpos := List.length_pos_iff.2 hvs
      have hhi := h.hi_eq
      omega
    have hcheck : Split.check none ([] ++ (cut 0 false vs).1) (cut 0 false vs).2 =
        Split.ofWords vs := by
      rw [Split.ofWords, if_neg hvs]
      rfl
    obtain ⟨d, hdiv, hy⟩ := @exists_splitFrom s (Visit.Sound s.words) r.lo r.hi r.lo 0 [] vs false
      none [] _ h hb (Nat.le_refl _) hlt hcheck
    rw [Nat.sub_self, Nat.zero_add] at hy
    have hmade : ∀ k rs, d = .parts k rs → r.MadeUp s.words k rs := by
      rintro k rs rfl
      exact madeUp h hb rfl hdiv
    exact ⟨d, yields_splitAt (h.sound hb) hmade hy, hdiv.words_eq, hmade⟩

/-! ## Levels -/

section Levels

variable (hs : s.Faithful)

include hs

theorem Faithful.yields_partAt {inner : Stretch → Watched (Attempt (Option Level))}
    {level : List Word → Attempt (Option Level)}
    (hinner : ∀ {r vs}, Stretch.Covers r s.words vs → balanced 0 vs = true →
      Yields (Visit.Sound s.words) (inner r) (level vs))
    {r : Stretch} {vs : List Word} (h : r.Covers s.words vs) (hb : balanced 0 vs = true) :
    Yields (Visit.Sound s.words) (s.partAt inner r) (readPart level vs) := by
  refine (yields_wrapsAt h hb).bind ?_
  cases hu : unwrap? vs with
  | some body =>
    obtain ⟨inside, hinside, hbody, hbalanced⟩ := exists_inside (P := Visit.Sound s.words) h hu
    refine hinside.bind ((hinner hbody hbalanced).bind ?_)
    rw [readPart, hu]
    dsimp only
    obtain ⟨steps, _ | ⟨_ | ⟨k, _ | ⟨c, cs⟩⟩, warnings⟩⟩ := level body
    · exact .pure _
    · exact (hs.yields_sourceAt hbody).bind (.pure _)
    · exact .pure _
    · exact .pure _
  | none =>
    refine (yields_conditionAt h hb).bind ?_
    rw [readPart, hu]
    dsimp only
    obtain ⟨_ | c, n⟩ := Condition.ofTokens (vs.map token)
    · exact (hs.yields_sourceAt h).bind (.pure _)
    · exact .pure _

theorem Faithful.yields_levelAt (room : Nat) {r : Stretch} {vs : List Word}
    (h : r.Covers s.words vs) (hb : balanced 0 vs = true) :
    Yields (Visit.Sound s.words) (s.levelAt room r) (readLevel room vs) := by
  induction room generalizing r vs with
  | zero =>
    exact (Yields.visit (show Visit.Sound s.words (.level r) from h.sound hb)).bind (.pure _)
  | succ room ih =>
    refine (Yields.visit (show Visit.Sound s.words (.level r) from h.sound hb)).bind ?_
    obtain ⟨d, hy, hwords, hmade⟩ := exists_splitAt h hb
    refine hy.bind ?_
    rw [readLevel]
    generalize Split.ofWords vs = x at hwords ⊢
    obtain ⟨o, n⟩ := x
    obtain rfl : d.words s.words = o := hwords
    cases d with
    | ambiguous => exact (hs.yields_sourceAt h).bind (.pure _)
    | malformed => exact (hs.yields_sourceAt h).bind (.pure _)
    | parts k rs =>
      have hparts : List.Forall₂ (Yields (Visit.Sound s.words))
          (rs.map (s.partAt (s.levelAt room)))
          ((rs.map (·.words s.words)).map (readPart (readLevel room))) := by
        rw [List.map_map, List.forall₂_map_left_iff, List.forall₂_map_right_iff, List.forall₂_same]
        intro p hp
        obtain ⟨-, hsound⟩ := (hmade k rs rfl).parts p hp
        exact hs.yields_partAt ih (Stretch.covers_words hsound.lo_le hsound.hi_le)
          (balanced_iff_paired.2 hsound.paired)
      exact (Yields.collect hparts).bind (.pure _)

theorem Faithful.yields_readingAt (limits : Limits) :
    Yields (Visit.Sound s.words) (s.readingAt limits) (Reading.ofWords limits s.words) := by
  have hall := Stretch.covers_all s.words
  unfold readingAt Reading.ofWords
  by_cases hnil : s.words = []
  · rw [if_pos hnil, if_pos hnil]
    exact .pure _
  · rw [if_neg hnil, if_neg hnil]
    refine (hs.yields_sourceAt hall).bind ?_
    by_cases hb : balanced 0 s.words = true
    · obtain ⟨r, hy, hr, hbalanced⟩ := exists_strippedAt hall hb
      have hne : balanced 0 s.words ≠ false := by
        rw [hb]
        decide
      rw [if_neg hne, if_neg hne]
      refine hy.bind ((hs.yields_levelAt limits.maxDepth hr hbalanced).bind ?_)
      dsimp only
      generalize readLevel limits.maxDepth _ = level
      obtain ⟨steps, _ | ⟨_ | l, warnings⟩⟩ := level <;> dsimp only <;> split_ifs <;> exact .pure _
    · rw [if_pos (Bool.eq_false_of_not_eq_true hb), if_pos (Bool.eq_false_of_not_eq_true hb)]
      exact .pure _

end Levels

end Scanned

/-- **Reading by places** never fails: no place is out of range, no count falls below zero, and no
offset is inside a character. It gives what the reader gives. Every stretch that it visits lies
within the words of the text; the parentheses match in those that it reads as a level or a
condition, cuts, or looks for parentheses around; and the parts that a stretch is cut into are sound
as well, are not empty, and make up the stretch with the connective between them. -/
theorem Reading.watch_sound (limits : Limits) (text : String) :
    (Reading.watch limits text).result = some (Reading.ofText limits text) ∧
      ∀ v ∈ (Reading.watch limits text).visits,
        v.Sound (Word.ofText limits.dialect.backslashEscapes text) := by
  obtain ⟨hresult, hvisits⟩ :=
    (Scanned.faithful_ofText limits.dialect.backslashEscapes text).yields_readingAt limits
  exact ⟨hresult, hvisits⟩

/-- A group with a part missing. -/
example : (Reading.watch {} "(a OR)").visits = [.source ⟨0, 4⟩, .wraps ⟨0, 4⟩, .level ⟨1, 3⟩,
    .split ⟨1, 3⟩ .malformed, .source ⟨1, 3⟩] := by
  cbv

end SqlFilter
