import SqlFilter.Proofs.Tree.Accepted
import SqlFilter.Proofs.Tree.Meter
import SqlFilter.Proofs.Tree.Printed
import SqlFilter.Proofs.Tree.Watched

/-!
# The meter and the count

Reading with a meter comes to what the reader comes to, which counts the steps of a text as a whole
and compares them with the limits only at the end (`Reading.meterWords_eq`). Each piece of the
metered reader follows an attempt: it makes the steps of the attempt one by one, and ends as the
attempt does unless they are too many before. Pieces that follow attempts are put together by
`Metered.Follows.bind`.
-/

namespace SqlFilter

open Word

theorem Word.cut_cons_of_none {depth : Nat} {pending : Bool} {w : Word}
    (h : connective? depth pending w = none) (ws : List Word) : cut depth pending (w :: ws) =
      (w :: (cut (depthAfter depth w) (pendingAfter depth pending w) ws).1,
        (cut (depthAfter depth w) (pendingAfter depth pending w) ws).2) := by
  rw [cut, h]

theorem Word.cut_cons_of_some {depth : Nat} {pending : Bool} {w : Word} {k : Logic}
    (h : connective? depth pending w = some k) (ws : List Word) :
    cut depth pending (w :: ws) = ([], (k, (cut depth false ws).1) :: (cut depth false ws).2) := by
  rw [cut, h]

namespace Split

/-- What follows with more parts in front. -/
def withParts (done : List (List Word)) : Split → Split
  | .parts k ps => .parts k (done ++ ps)
  | other => other

theorem withParts_nil (s : Split) : withParts [] s = s := by
  cases s <;> rfl

theorem withParts_append (done : List (List Word)) (p : List Word) (s : Split) :
    withParts (done ++ [p]) s = withParts done (withPart p s) := by
  cases s with
  | parts k ps => rw [withParts, withPart, withParts, List.append_assoc, List.singleton_append]
  | ambiguous | malformed => rfl

end Split

namespace Metered

/-! ## Computations that follow an attempt -/

section Follows

variable {α β : Type} (limits : Limits)

/-- How a computation that follows an attempt ends, if it begins at the meter `m`: with the result
and the warnings of the attempt, at a level too many, or where the steps run out. -/
inductive Ends (a : Attempt α) (m : Meter) : Except Stop α × Meter → Prop
  | done {x : α} {warnings : List Warning} (h : a.result = some (x, warnings))
      (hle : m.steps + a.steps ≤ limits.steps) :
      Ends a m (.ok x, ⟨m.steps + a.steps, m.warnings ++ warnings⟩)
  | tooDeep {warnings : List Warning} (h : a.result = none)
      (hle : m.steps + a.steps ≤ limits.steps) :
      Ends a m (.error (.failed (.nestingTooDeep (limits.maxDepth + 1) limits.maxDepth)),
        ⟨m.steps + a.steps, warnings⟩)
  | timeout {warnings : List Warning} (hlt : limits.steps < m.steps + a.steps) :
      Ends a m (.error .timeout, ⟨limits.steps + 1, warnings⟩)

/-- The computation makes the steps of the attempt and comes to its result, as far as the limits let
it. -/
def Follows (x : Metered α) (a : Attempt α) : Prop :=
  ∀ m : Meter, m.steps ≤ limits.steps → Ends limits a m (x m)

variable {limits}

theorem Follows.pure (x : α) : Follows limits (Pure.pure x) ⟨0, some (x, [])⟩ := by
  intro m hm
  have hdone := @Ends.done α limits ⟨0, some (x, [])⟩ m x [] rfl hm
  rw [List.append_nil] at hdone
  exact hdone

/-- What follows makes its steps behind those made so far. -/
theorem Follows.bind {x : Metered α} {n : Nat} {v : α} {warnings : List Warning}
    (hx : Follows limits x ⟨n, some (v, warnings)⟩) {f : α → Metered β} {k : Nat}
    {r r' : Option (β × List Warning)} (hf : Follows limits (f v) ⟨k, r⟩)
    (hr : r.map (fun y => (y.1, warnings ++ y.2)) = r') :
    Follows limits (x >>= f) ⟨n + k, r'⟩ := by
  subst hr
  intro m hm
  have hxm := hx m hm
  generalize hout : x m = out at hxm
  cases hxm with
  | done h hle =>
    obtain ⟨rfl, rfl⟩ := Prod.mk.inj (Option.some.inj h)
    have hfm := hf ⟨m.steps + n, m.warnings ++ warnings⟩ hle
    rw [bind_of_ok hout]
    generalize f v ⟨m.steps + n, m.warnings ++ warnings⟩ = out at hfm
    cases hfm with
    | done h hle =>
      dsimp only at h hle ⊢
      rw [Nat.add_assoc] at hle ⊢
      rw [List.append_assoc]
      exact .done (by rw [h]; rfl) hle
    | tooDeep h hle =>
      dsimp only at h hle ⊢
      rw [Nat.add_assoc] at hle ⊢
      exact .tooDeep (by rw [h]; rfl) hle
    | timeout hlt =>
      dsimp only at hlt
      exact .timeout (by dsimp only; omega)
  | tooDeep h => cases h
  | timeout hlt =>
    dsimp only at hlt
    rw [bind_of_error hout]
    exact .timeout (by dsimp only; omega)

/-- What comes first warns of nothing. -/
theorem Follows.bind_silent {x : Metered α} {n : Nat} {v : α}
    (hx : Follows limits x ⟨n, some (v, [])⟩) {f : α → Metered β} {k : Nat}
    {r : Option (β × List Warning)} (hf : Follows limits (f v) ⟨k, r⟩) :
    Follows limits (x >>= f) ⟨n + k, r⟩ :=
  hx.bind hf Option.map_id'

/-- What comes last only returns. -/
theorem Follows.bind_pure {x : Metered α} {n : Nat} {v : α} {warnings : List Warning}
    (hx : Follows limits x ⟨n, some (v, warnings)⟩) {f : α → Metered β} {y : β}
    (hf : f v = Pure.pure y) : Follows limits (x >>= f) ⟨n, some (y, warnings)⟩ := by
  have hpure : Follows limits (f v) ⟨0, some (y, [])⟩ := by
    rw [hf]
    exact .pure y
  exact hx.bind hpure (by rw [Option.map_some, List.append_nil])

/-- Nothing is done behind a level too many. -/
theorem Follows.bind_none {x : Metered α} {n : Nat} (hx : Follows limits x ⟨n, none⟩)
    (f : α → Metered β) : Follows limits (x >>= f) ⟨n, none⟩ := by
  intro m hm
  have hxm := hx m hm
  generalize hout : x m = out at hxm
  cases hxm with
  | done h => cases h
  | tooDeep h hle =>
    rw [bind_of_error hout]
    exact .tooDeep rfl hle
  | timeout hlt =>
    rw [bind_of_error hout]
    exact .timeout hlt

theorem Follows.warn (w : Warning) : Follows limits (warn w) ⟨0, some ((), [w])⟩ :=
  fun _ hm => .done rfl hm

/-- What comes last only notes a warning. -/
theorem Follows.bind_warn {x : Metered α} {n : Nat} {v : α}
    (hx : Follows limits x ⟨n, some (v, [])⟩) {f : α → Metered β} {w : Warning} {y : β}
    (hf : f v = do Metered.warn w; Pure.pure y) :
    Follows limits (x >>= f) ⟨n, some (y, [w])⟩ := by
  have hwarn : Follows limits (f v) ⟨0, some (y, [w])⟩ := by
    rw [hf]
    exact (Follows.warn w).bind_pure rfl
  exact hx.bind_silent hwarn

/-- The reading stops at the first step too many. -/
theorem stopsAt_succ_iff {n : Nat} (hn : n ≤ limits.steps) :
    limits.StopsAt (n + 1) ↔ n = limits.steps := by
  -- the clock is looked at every 64 steps, so that a time that is over stops the 64th step first
  unfold Limits.StopsAt
  unfold Limits.steps Limits.clockInterval at *
  cases hexp : limits.expired with
  | false =>
    rw [hexp, if_neg Bool.false_ne_true] at hn
    rw [if_neg Bool.false_ne_true, or_iff_left fun h => Bool.false_ne_true h.2]
    omega
  | true =>
    rw [hexp, if_pos rfl] at hn
    rw [if_pos rfl, and_iff_left rfl]
    omega

theorem Follows.tick : Follows limits (tick limits) ⟨1, some ((), [])⟩ := by
  intro m hm
  unfold Metered.tick
  dsimp only
  by_cases hlast : m.steps = limits.steps
  · rw [if_pos ((stopsAt_succ_iff hm).2 hlast), hlast]
    exact .timeout (by dsimp only; omega)
  · rw [if_neg fun h => hlast ((stopsAt_succ_iff hm).1 h)]
    have hdone := @Ends.done Unit limits ⟨1, some ((), [])⟩ m () [] rfl (by dsimp only; omega)
    rw [List.append_nil] at hdone
    exact hdone

/-- One step more in front. -/
theorem Follows.tick_bind {f : Unit → Metered β} {n : Nat} {r : Option (β × List Warning)}
    (hf : Follows limits (f ()) ⟨n, r⟩) :
    Follows limits (Metered.tick limits >>= f) ⟨n + 1, r⟩ := by
  have h := Follows.tick.bind_silent hf
  rwa [Nat.add_comm] at h

end Follows

/-! ## Conditions -/

section Reads

variable {α β : Type} (limits : Limits)

/-- The computation comes to the value and the tokens behind it, with a step for each token in front
of them. -/
def Reads (x : Metered (α × List Token)) (ts : List Token) (r : α × List Token) : Prop :=
  ∃ n, ts.length = n + r.2.length ∧ Follows limits x ⟨n, some (r, [])⟩

variable {limits}

theorem Reads.pure (x : α) (ts : List Token) : Reads limits (Pure.pure (x, ts)) ts (x, ts) :=
  ⟨0, (Nat.zero_add _).symm, .pure _⟩

theorem Reads.bind {x : Metered (α × List Token)} {ts : List Token} {r : α × List Token}
    (hx : Reads limits x ts r) {f : α × List Token → Metered (β × List Token)}
    {r' : β × List Token} (hf : Reads limits (f r) r.2 r') : Reads limits (x >>= f) ts r' := by
  obtain ⟨n, hn, hx⟩ := hx
  obtain ⟨n', hn', hf⟩ := hf
  exact ⟨n + n', by omega, hx.bind_silent hf⟩

theorem reads_next_cons (t : Token) (ts : List Token) :
    Reads limits (next limits (t :: ts)) (t :: ts) (some t, ts) :=
  ⟨1, by rw [List.length_cons, Nat.add_comm], Follows.tick_bind (.pure _)⟩

theorem reads_eat_self (t : Token) (ts : List Token) :
    Reads limits (eat limits t (t :: ts)) (t :: ts) (true, ts) := by
  refine ⟨1, by rw [List.length_cons, Nat.add_comm], ?_⟩
  rw [eat, if_pos rfl]
  exact .tick_bind (.pure _)

theorem reads_eat_of_ne {t : Token} {ts : List Token} (h : ts.head? ≠ some t) :
    Reads limits (eat limits t ts) ts (false, ts) := by
  cases ts with
  | nil => exact .pure _ _
  | cons u us =>
    rw [eat, if_neg fun hu => h (congrArg some hu)]
    exact .pure _ _

/-- A token is taken if it is there, and what comes next depends on that. -/
theorem reads_eat_bind {t : Token} {ts : List Token}
    {f : Bool × List Token → Metered (β × List Token)} {r : β × List Token}
    (there : ∀ us, ts = t :: us → Reads limits (f (true, us)) us r)
    (other : ts.head? ≠ some t → Reads limits (f (false, ts)) ts r) :
    Reads limits (eat limits t ts >>= f) ts r := by
  by_cases h : ts.head? = some t
  · obtain ⟨us, rfl⟩ := List.head?_eq_some_iff.1 h
    exact (reads_eat_self t us).bind (there us rfl)
  · exact (reads_eat_of_ne h).bind (other h)

theorem reads_literal (ts : List Token) :
    Reads limits (literal limits ts) ts (Literal.read ts) := by
  unfold literal
  refine reads_eat_bind ?_ fun hminus => ?_
  · rintro ts rfl
    cases ts with
    | nil => exact .bind (.pure _ _) (.pure _ _)
    | cons t ts =>
      have hread : Literal.read (.minus :: t :: ts) = (literalOf true (some t), ts) := by
        cases t with
        | keyword k => cases k <;> rfl
        | _ => rfl
      rw [hread]
      exact (reads_next_cons _ _).bind (.pure _ _)
  · cases ts with
    | nil => exact .bind (.pure _ _) (.pure _ _)
    | cons t ts =>
      have hread : Literal.read (t :: ts) = (literalOf false (some t), ts) := by
        cases t with
        | keyword k => cases k <;> rfl
        | minus => exact absurd rfl hminus
        | _ => rfl
      rw [hread]
      exact (reads_next_cons _ _).bind (.pure _ _)

theorem readItems_none {ts rest : List Token} (h : Literal.read ts = (none, rest)) :
    Literal.readItems ts = (none, rest) := by
  rw [Literal.readItems]
  split <;> simp_all

theorem readItems_other {ts rest : List Token} {l : Literal} (h : Literal.read ts = (some l, rest))
    (hclose : rest.head? ≠ some .rightParen) (hcomma : rest.head? ≠ some .comma) :
    Literal.readItems ts = (none, rest) := by
  rw [Literal.readItems]
  split
  · next heq => cases h.symm.trans heq
  · next heq =>
    obtain ⟨-, rfl⟩ := Prod.mk.inj (h.symm.trans heq)
    exact absurd rfl hclose
  · next heq =>
    obtain ⟨-, rfl⟩ := Prod.mk.inj (h.symm.trans heq)
    exact absurd rfl hcomma
  · next heq => rw [(Prod.mk.inj (h.symm.trans heq)).2]

/-- An item is a token at least, so that there are no more of them than tokens. -/
theorem reads_items {bound : Nat} {ts : List Token} (h : ts.length ≤ bound) :
    Reads limits (items limits bound ts) ts (Literal.readItems ts) := by
  induction bound generalizing ts with
  | zero =>
    obtain rfl := List.length_eq_zero_iff.1 (Nat.le_zero.1 h)
    rw [readItems_none rfl]
    exact .pure _ _
  | succ bound ih =>
    refine (reads_literal ts).bind ?_
    rcases hr : Literal.read ts with ⟨_ | l, rest⟩
    · rw [readItems_none hr]
      exact .pure _ _
    · have hlt : rest.length < ts.length := by
        have := Literal.length_read_lt (show (Literal.read ts).1 = some l by rw [hr])
        rwa [hr] at this
      refine reads_eat_bind ?_ fun hclose => reads_eat_bind ?_ fun hcomma => ?_
      · rintro rest rfl
        rw [Literal.readItems_last hr]
        exact .pure _ _
      · rintro rest rfl
        rw [Literal.readItems_more hr]
        rw [List.length_cons] at hlt
        have hmore := @ih rest (by omega)
        exact hmore.bind (.pure _ _)
      · rw [readItems_other hr hclose hcomma]
        exact .pure _ _

theorem reads_list (ts : List Token) : Reads limits (list limits ts) ts (Literal.readList ts) := by
  unfold list
  refine reads_eat_bind ?_ fun hopen => ?_
  · rintro ts rfl
    exact reads_items (Nat.le_refl _)
  · have hread : Literal.readList ts = (none, ts) := by
      unfold Literal.readList
      split
      · exact absurd rfl hopen
      · rfl
    rw [hread]
    exact .pure _ _

theorem reads_path {bound : Nat} {ts : List Token} (h : ts.length ≤ bound) :
    Reads limits (path limits bound ts) ts (Condition.readPath ts) := by
  induction bound generalizing ts with
  | zero =>
    obtain rfl := List.length_eq_zero_iff.1 (Nat.le_zero.1 h)
    exact .pure _ _
  | succ bound ih =>
    cases ts with
    | nil => exact .bind (.pure _ _) (.pure _ _)
    | cons t ts =>
      refine (reads_next_cons t ts).bind ?_
      dsimp only [Option.bind_some]
      cases ht : t.identifier? with
      | none =>
        have hread : Condition.readPath (t :: ts) = (none, ts) := by
          rw [Condition.readPath.eq_def]
          simp only [ht]
        rw [hread]
        exact .pure _ _
      | some s =>
        refine reads_eat_bind ?_ fun hdot => ?_
        · rintro ts rfl
          rw [Condition.readPath_dot ht]
          rw [List.length_cons, List.length_cons] at h
          have hmore := @ih ts (by omega)
          exact hmore.bind (.pure _ _)
        · rw [Condition.readPath_last ht hdot]
          exact .pure _ _

theorem readOperator_not {ts : List Token} (h : ts.head? ≠ some (.keyword .within)) :
    Condition.readOperator (.keyword .not :: ts) = (none, ts) := by
  unfold Condition.readOperator
  split <;> simp_all

theorem readOperator_is_not {ts : List Token} (h : ts.head? ≠ some (.keyword .null)) :
    Condition.readOperator (.keyword .is :: .keyword .not :: ts) = (none, ts) := by
  rw [Condition.readOperator]
  exact fun us hus => h (by rw [hus]; rfl)

theorem readOperator_is {ts : List Token} (hnot : ts.head? ≠ some (.keyword .not))
    (hnull : ts.head? ≠ some (.keyword .null)) :
    Condition.readOperator (.keyword .is :: ts) = (none, ts) := by
  unfold Condition.readOperator
  split <;> simp_all

theorem reads_operator (ts : List Token) :
    Reads limits (operator limits ts) ts (Condition.readOperator ts) := by
  cases ts with
  | nil => exact .bind (.pure _ _) (.pure _ _)
  | cons t ts =>
    refine (reads_next_cons t ts).bind ?_
    cases t with
    | keyword k =>
      cases k with
      | not =>
        refine reads_eat_bind ?_ fun hin => ?_
        · rintro ts rfl
          exact .pure _ _
        · rw [readOperator_not hin]
          exact .pure _ _
      | is =>
        refine reads_eat_bind ?_ fun hnot => reads_eat_bind ?_ fun hnull => ?_
        · rintro ts rfl
          refine reads_eat_bind ?_ fun hnull => ?_
          · rintro ts rfl
            exact .pure _ _
          · rw [readOperator_is_not hnull]
            exact .pure _ _
        · rintro ts rfl
          exact .pure _ _
        · rw [readOperator_is hnot hnull]
          exact .pure _ _
      | _ => exact .pure _ _
    | _ => exact .pure _ _

theorem readBounds_of_ne {ts rest : List Token} {low : Literal}
    (h : Literal.read ts = (some low, rest)) (hand : rest.head? ≠ some (.keyword .and)) :
    Condition.readBounds ts = (none, rest) := by
  unfold Condition.readBounds
  rw [h]
  split
  · next heq =>
    obtain ⟨-, rfl⟩ := Prod.mk.inj heq
    exact absurd rfl hand
  · next heq => rw [(Prod.mk.inj heq).2]

theorem reads_bounds (ts : List Token) :
    Reads limits (bounds limits ts) ts (Condition.readBounds ts) := by
  refine (reads_literal ts).bind ?_
  rcases hr : Literal.read ts with ⟨_ | low, rest⟩
  · have hread : Condition.readBounds ts = (none, rest) := by
      unfold Condition.readBounds
      rw [hr]
    rw [hread]
    exact .pure _ _
  · refine reads_eat_bind ?_ fun hand => ?_
    · rintro rest rfl
      have hread : Condition.readBounds ts =
          ((Literal.read rest).1.map (low, ·), (Literal.read rest).2) := by
        unfold Condition.readBounds
        rw [hr]
      rw [hread]
      exact (reads_literal rest).bind (.pure _ _)
    · rw [readBounds_of_ne hr hand]
      exact .pure _ _

theorem reads_operand (op : Operator) (ts : List Token) :
    Reads limits (operand limits op ts) ts (Condition.readOperand op ts) := by
  unfold operand Condition.readOperand
  cases op.shape with
  | nullCheck => exact .pure _ _
  | list => exact (reads_list ts).bind (.pure _ _)
  | bounds => exact (reads_bounds ts).bind (.pure _ _)
  | single => exact (reads_literal ts).bind (.pure _ _)

theorem reads_comparison (table column : String) (ts : List Token) :
    Reads limits (comparison limits table column ts) ts
      (Condition.readComparison table column ts) := by
  unfold Condition.readComparison
  refine (reads_operator ts).bind ?_
  rcases Condition.readOperator ts with ⟨_ | op, rest⟩
  · exact .pure _ _
  · exact (reads_operand op rest).bind (.pure _ _)

/-- **Conditions** are read with a step for each token that is taken. -/
theorem reads_condition (ts : List Token) :
    Reads limits (condition limits ts) ts (Condition.read ts) := by
  unfold Condition.read
  refine (reads_path (Nat.le_refl ts.length)).bind ?_
  rcases Condition.readPath ts with ⟨_ | _ | ⟨table, _ | ⟨column, _ | ⟨name, names⟩⟩⟩, rest⟩
  · exact .pure _ _
  · exact .pure _ _
  · exact reads_comparison "" table rest
  · exact reads_comparison table column rest
  · exact .pure _ _

end Reads

/-! ## Levels -/

section Levels

variable {limits : Limits}

/-- The words of a level that are looked at are those of the part so far and, one by one, those that
the cut meets. -/
theorem follows_cutFrom (depth : Nat) (pending : Bool) (seen : Option Logic)
    (done : List (List Word)) (part ws : List Word) :
    ∃ n, (Split.check seen (part ++ (cut depth pending ws).1) (cut depth pending ws).2).2 =
        part.length + n ∧
      Follows limits (cutFrom limits depth pending seen done part ws) ⟨n, some (Split.withParts done
        (Split.check seen (part ++ (cut depth pending ws).1) (cut depth pending ws).2).1, [])⟩ := by
  -- `check` counts a part as a whole when it ends, `cutFrom` word by word: `part` is what is ahead
  induction ws generalizing depth pending seen done part with
  | nil =>
    rw [cut, List.append_nil, Split.check, cutFrom]
    split_ifs with hpart
    · rw [hpart]
      exact ⟨0, rfl, .pure _⟩
    · exact ⟨0, rfl, .pure _⟩
  | cons w ws ih =>
    rw [cutFrom]
    cases hk : connective? depth pending w with
    | none =>
      obtain ⟨n, hn, hcut⟩ :=
        ih (depthAfter depth w) (pendingAfter depth pending w) seen done (part ++ [w])
      rw [Word.cut_cons_of_none hk, List.append_cons]
      refine ⟨n + 1, ?_, .tick_bind hcut⟩
      rw [hn, List.length_append, List.length_singleton]
      omega
    | some k =>
      rw [Word.cut_cons_of_some hk, List.append_nil, Split.check_cons]
      dsimp only
      split_ifs with hother hpart
      · exact ⟨1, rfl, .tick_bind (.pure _)⟩
      · rw [hpart]
        exact ⟨1, rfl, .tick_bind (.pure _)⟩
      · obtain ⟨n, hn, hcut⟩ := ih depth false (some k) (done ++ [part]) []
        rw [List.nil_append, List.length_nil, Nat.zero_add] at hn
        rw [List.nil_append, Split.withParts_append] at hcut
        exact ⟨n + 1, by rw [hn]; omega, .tick_bind hcut⟩

theorem follows_split (ws : List Word) : Follows limits (split limits ws)
    ⟨(Split.ofWords ws).2, some ((Split.ofWords ws).1, [])⟩ := by
  unfold split Split.ofWords
  split_ifs with hws
  · exact .pure _
  · obtain ⟨n, hn, hcut⟩ := @follows_cutFrom limits 0 false none [] [] ws
    rw [List.nil_append, List.length_nil, Nat.zero_add] at hn
    rw [List.nil_append, Split.withParts_nil, ← hn] at hcut
    exact hcut

theorem follows_part {inner : List Word → Metered (Option Level)}
    {level : List Word → Attempt (Option Level)}
    (hinner : ∀ ws, Follows limits (inner ws) (level ws)) (ws : List Word) :
    Follows limits (part limits inner ws) (readPart level ws) := by
  unfold part readPart
  cases unwrap? ws with
  | some body =>
    have hlevel := hinner body
    dsimp only
    generalize level body = a at hlevel ⊢
    obtain ⟨steps, _ | ⟨l, warnings⟩⟩ := a
    · exact hlevel.bind_none _
    · rcases l with _ | ⟨k, _ | ⟨n, ns⟩⟩ <;> exact hlevel.bind_pure rfl
  | none =>
    obtain ⟨n, hn, hcondition⟩ := @reads_condition limits (ws.map token)
    rw [Condition.ofTokens]
    generalize Condition.read (ws.map token) = r at hn hcondition ⊢
    obtain ⟨c, rest⟩ := r
    dsimp only at hn hcondition ⊢
    -- the steps of a part are the tokens that the condition takes
    obtain rfl : (ws.map token).length - rest.length = n := by omega
    cases hc : if rest = [] then c else none with
    | some c => exact hcondition.bind_pure (by dsimp only; rw [hc])
    | none => exact hcondition.bind_warn (by dsimp only; rw [hc])

theorem follows_members {xs : List (Metered (Option (Node Unit)))}
    {as : List (Attempt (Option (Node Unit)))} (h : List.Forall₂ (Follows limits) xs as) :
    Follows limits (members xs) (Attempt.collect as) := by
  induction h with
  | nil => exact .pure _
  | @cons x a xs as hx _ ih =>
    rw [members, Attempt.collect]
    obtain ⟨steps, _ | ⟨n, warnings⟩⟩ := a
    · exact hx.bind_none _
    · dsimp only
      generalize Attempt.collect as = rest at ih ⊢
      obtain ⟨steps', _ | ⟨ns, more⟩⟩ := rest
      · exact hx.bind (ih.bind_none _) rfl
      · exact hx.bind (ih.bind_pure rfl) rfl

/-- **Levels** are counted on the way down as there is room for them. -/
theorem follows_level {depth room : Nat} (h : depth + room = limits.maxDepth + 1) (ws : List Word) :
    Follows limits (level limits depth ws) (readLevel room ws) := by
  induction room generalizing depth ws with
  | zero =>
    -- no room is left, so the depth is one more than is allowed
    obtain rfl : depth = limits.maxDepth + 1 := h
    rw [level]
    split
    · next e he =>
      rw [checkDepth, if_pos (Nat.lt_succ_self _)] at he
      obtain rfl := Except.error.inj he
      exact fun m hm => .tooDeep rfl hm
    · next hd => exact absurd (le_of_checkDepth hd) (Nat.not_succ_le_self _)
  | succ room ih =>
    have hd : checkDepth depth limits.maxDepth = .ok depth := checkDepth_of_le (by omega)
    rw [level]
    split
    · next he =>
      rw [hd] at he
      cases he
    · have hsplit := @follows_split limits ws
      rw [readLevel]
      generalize Split.ofWords ws = s at hsplit ⊢
      obtain ⟨⟨k, ps⟩ | _ | _, n⟩ := s
      · have hparts : List.Forall₂ (Follows limits)
            (ps.map (part limits (level limits (depth + 1))))
            (ps.map (readPart (readLevel room))) := by
          rw [List.forall₂_map_left_iff, List.forall₂_map_right_iff, List.forall₂_same]
          exact fun p _ => follows_part (ih (by omega)) p
        have hmembers := follows_members hparts
        dsimp only
        generalize Attempt.collect (ps.map (readPart (readLevel room))) = a at hmembers ⊢
        obtain ⟨steps, _ | ⟨ns, warnings⟩⟩ := a
        · exact hsplit.bind_silent (hmembers.bind_none _)
        · exact hsplit.bind_silent (hmembers.bind_pure rfl)
      · exact hsplit.bind_warn rfl
      · exact hsplit.bind_warn rfl

/-- The check of the depth at the end finds nothing. -/
theorem depth_level_le {ws : List Word} {l : Level} {m : Meter}
    (h : level limits 1 ws {} = (.ok (some l), m)) :
    1 + Node.maxDepth l.children ≤ limits.maxDepth := by
  have hends := follows_level (Nat.add_comm 1 limits.maxDepth) ws {} (Nat.zero_le _)
  rw [h] at hends
  cases hends with
  | done hl => exact depth_readLevel_le _ hl

end Levels

end Metered

/-! ## Whole texts -/

namespace Reading

/-- The number of steps that reading the words to the end takes. -/
def needed (limits : Limits) (ws : List Word) : Nat :=
  if ws = [] then 0 else if balanced 0 ws = false then 0 else (top limits ws).steps

/-- **The meter** runs along without a trace: the outcome is that of the reader, and the steps are
made that reading to the end takes, as far as the limits allow, and one too many at most. -/
theorem meterWords_eq (limits : Limits) (ws : List Word) :
    meterWords limits ws = ⟨ofWords limits ws, min (needed limits ws) (limits.steps + 1)⟩ := by
  unfold meterWords ofWords needed top
  split_ifs with hnil hb
  · rw [Nat.zero_min]
  · rw [Nat.zero_min]
  · have hends := Metered.follows_level (Nat.add_comm 1 limits.maxDepth) ((unwrap? ws).getD ws) {}
      (Nat.zero_le _)
    generalize hout : Metered.level limits 1 ((unwrap? ws).getD ws) {} = out at hends ⊢
    generalize readLevel limits.maxDepth ((unwrap? ws).getD ws) = a at hends ⊢
    cases hends with
    | @done l warnings hl hle =>
      rw [Nat.zero_add] at hle
      rw [if_neg (Nat.not_lt.2 hle), Nat.min_eq_left (Nat.le_succ_of_le hle), hl]
      cases l with
      | none => simp
      | some l =>
        -- the depth was checked on the way down, so the check at the end passes
        simp [checkDepth_of_le (Metered.depth_level_le hout), Except.map]
    | tooDeep hnone hle =>
      rw [Nat.zero_add] at hle
      rw [if_neg (Nat.not_lt.2 hle), Nat.min_eq_left (Nat.le_succ_of_le hle), hnone]
      simp
    | timeout hlt =>
      rw [Nat.zero_add] at hlt
      rw [if_pos hlt, Nat.min_eq_right hlt]

theorem outcome_meter (limits : Limits) (text : String) :
    (meter limits text).outcome = ofText limits text := by
  rw [meter, meterWords_eq]
  rfl

end Reading

end SqlFilter
