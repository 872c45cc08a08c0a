import SqlFilter.Proofs.Tree.Metered

/-!
# The budget of steps

The number of steps that a text needs does not depend on the budget. A smaller budget cuts the
reading off, which is reported, and any other one makes no difference (`Reading.meter_cut_off`). As
no word is looked at more than once in a level and once more in a condition, a budget that is large
enough can be told from the number of words and of levels (`Reading.steps_meter_le`).
-/

namespace SqlFilter

open Word

namespace Limits

theorem steps_eq {l : Limits} (h : l.expired = false) : l.steps = l.stepBudget := by
  rw [steps, h, if_neg Bool.false_ne_true]

/-- The limits with another budget of steps. -/
def withBudget (l : Limits) (budget : Nat) : Limits := { l with stepBudget := budget }

theorem steps_withBudget {l : Limits} (h : l.expired = false) (budget : Nat) :
    (l.withBudget budget).steps = budget :=
  steps_eq (show (l.withBudget budget).expired = false from h)

end Limits

namespace Reading

variable {limits : Limits} {ws : List Word}

theorem needed_le (limits : Limits) (ws : List Word) :
    needed limits ws ≤ ws.length * (limits.maxDepth + 1) := by
  unfold needed
  split_ifs
  · exact Nat.zero_le _
  · exact Nat.zero_le _
  · exact (steps_readLevel_le _ _).trans (Nat.mul_le_mul_right _ (length_getD_unwrap? ws))

/-- Words that need more steps than there are are kept as a whole. -/
theorem ofWords_of_lt_needed (h : limits.steps < needed limits ws) :
    ofWords limits ws = .ok ⟨.raw () (source ws), [.timeout (limits.steps + 1)]⟩ := by
  unfold needed top at h
  unfold ofWords
  split_ifs at h ⊢
  · exact absurd h (Nat.not_lt_zero _)
  · exact absurd h (Nat.not_lt_zero _)
  · exact if_pos h

/-- Only the room for levels matters if there are steps enough. -/
theorem ofWords_congr {limits' : Limits} (hdepth : limits.maxDepth = limits'.maxDepth)
    (h : needed limits ws ≤ limits.steps) (h' : needed limits ws ≤ limits'.steps) :
    ofWords limits ws = ofWords limits' ws := by
  unfold needed top at h h'
  unfold ofWords
  rw [← hdepth]
  split_ifs at h h' ⊢
  · rfl
  · rfl
  · dsimp only
    rw [if_neg (Nat.not_lt.2 h), if_neg (Nat.not_lt.2 h')]

theorem timeout_notMem_of_needed_le {r : Reading} (h : needed limits ws ≤ limits.steps)
    (hr : ofWords limits ws = .ok r) (n : Nat) : .timeout n ∉ r.warnings := by
  have hlocal := isLocal_readLevel limits.maxDepth ((unwrap? ws).getD ws)
  unfold needed top at h
  simp only [ofWords] at hr
  split_ifs at h hr with hws hb ht
  · rw [← Except.ok.inj hr]
    exact List.not_mem_nil
  · rw [← Except.ok.inj hr]
    intro hn
    cases List.mem_singleton.1 hn
  · exact absurd ht (Nat.not_lt.2 h)
  · split at hr
    · cases hr
    · next hl =>
      rw [← Except.ok.inj hr]
      exact hlocal.timeout_notMem hl n
    · next hl =>
      rw [← Except.ok.inj hr]
      exact hlocal.timeout_notMem hl n

/-- **The budget** only cuts off: with a smaller one a text is either kept as a whole, with a
warning that tells that the first step too many was reached, or read as with a larger one, step by
step. -/
theorem meter_cut_off (hexp : limits.expired = false) {b b' : Nat} (hb : b ≤ b') (text : String) :
    let run := fun budget => meter (limits.withBudget budget) text
    let ws := Word.ofText limits.dialect.backslashEscapes text
    (∀ budget, (run budget).outcome = ofText (limits.withBudget budget) text) ∧
      (run b = ⟨.ok ⟨.raw () (source ws), [.timeout (b + 1)]⟩, b + 1⟩ ∨ run b = run b') := by
  intro run ws
  have hrun : ∀ budget, run budget =
      ⟨ofWords (limits.withBudget budget) ws, min (needed limits ws) (budget + 1)⟩ := by
    intro budget
    show meterWords _ ws = _
    rw [meterWords_eq, Limits.steps_withBudget hexp]
    rfl
  refine ⟨fun budget => outcome_meter _ text, ?_⟩
  rw [hrun, hrun]
  by_cases hlt : b < needed limits ws
  · have hread := @ofWords_of_lt_needed (limits.withBudget b) ws
      (by rw [Limits.steps_withBudget hexp]; exact hlt)
    rw [Limits.steps_withBudget hexp] at hread
    rw [hread, Nat.min_eq_right hlt]
    exact .inl rfl
  · have hle : needed limits ws ≤ b := Nat.not_lt.1 hlt
    have hread : ofWords (limits.withBudget b) ws = ofWords (limits.withBudget b') ws := by
      refine ofWords_congr rfl ?_ ?_
      · rw [Limits.steps_withBudget hexp]
        exact hle
      · rw [Limits.steps_withBudget hexp]
        exact hle.trans hb
    rw [hread, Nat.min_eq_left (Nat.le_succ_of_le hle),
      Nat.min_eq_left (Nat.le_succ_of_le (hle.trans hb))]
    exact .inr rfl

/-- The last step is the one that is missing. -/
theorem meter_cut_off_last :
    let run := fun budget => meter (({} : Limits).withBudget budget) "a = 1 AND (b = 2 OR c = 3)"
    run 28 = ⟨.ok ⟨.raw () "a = 1 AND (b = 2 OR c = 3)", [.timeout 29]⟩, 29⟩ ∧
      run 29 = run 100 := by
  intro run
  obtain ⟨houtcome, h28⟩ :=
    @meter_cut_off {} rfl 28 100 (by decide) "a = 1 AND (b = 2 OR c = 3)"
  obtain ⟨-, h29⟩ := @meter_cut_off {} rfl 29 100 (by decide) "a = 1 AND (b = 2 OR c = 3)"
  have hwarnings : ∀ budget, (run budget).outcome.map warnings =
      (ofText (({} : Limits).withBudget budget) "a = 1 AND (b = 2 OR c = 3)").map warnings :=
    fun budget => congrArg _ (houtcome budget)
  refine ⟨h28.elim (fun h => h.trans ?_) fun h => ?_, h29.elim (fun h => ?_) id⟩
  · have hsource : source (Word.ofText ({} : Limits).dialect.backslashEscapes
        "a = 1 AND (b = 2 OR c = 3)") = "a = 1 AND (b = 2 OR c = 3)" := by
      decide +kernel
    rw [hsource]
  · have hsame : (run 28).outcome.map warnings = (run 100).outcome.map warnings :=
      congrArg (fun x => x.outcome.map warnings) h
    rw [hwarnings, hwarnings] at hsame
    exact absurd hsame (by decide +kernel)
  · have hsame : (run 29).outcome.map warnings = .ok [.timeout 30] :=
      congrArg (fun x => x.outcome.map warnings) h
    rw [hwarnings] at hsame
    exact absurd hsame (by decide +kernel)

/-- **Steps** are bounded by the tokens times one more than the levels, however deep the text is
nested and however malformed it is, so that with as large a budget the steps never run out. -/
theorem steps_meter_le (limits : Limits) (text : String) :
    let bound := (limits.tokens text).length * (limits.maxDepth + 1)
    (meter limits text).outcome = ofText limits text ∧ (meter limits text).steps ≤ bound ∧
      (limits.expired = false → bound ≤ limits.stepBudget →
        ∀ r, ofText limits text = .ok r → ∀ n, .timeout n ∉ r.warnings) := by
  intro bound
  have hneeded : needed limits (Word.ofText limits.dialect.backslashEscapes text) ≤ bound := by
    have hle := needed_le limits (Word.ofText limits.dialect.backslashEscapes text)
    rwa [← List.length_map (f := token)] at hle
  have hmeter := meterWords_eq limits (Word.ofText limits.dialect.backslashEscapes text)
  refine ⟨outcome_meter limits text, ?_, fun hexp hbound r hr => ?_⟩
  · rw [meter, hmeter]
    exact (Nat.min_le_left _ _).trans hneeded
  · refine timeout_notMem_of_needed_le ?_ hr
    rw [Limits.steps_eq hexp]
    exact hneeded.trans hbound

/-- A level that is malformed. -/
theorem steps_meter_le_malformed :
    ∃ r, ofText { maxDepth := 2, stepBudget := 42 } "a = 1 AND (b = OR c) = (3)" = .ok r ∧
      ∀ n, .timeout n ∉ r.warnings := by
  have hok : (ofText { maxDepth := 2, stepBudget := 42 } "a = 1 AND (b = OR c) = (3)").isOk =
      true := by
    decide +kernel
  cases hr : ofText { maxDepth := 2, stepBudget := 42 } "a = 1 AND (b = OR c) = (3)" with
  | error e =>
    rw [hr] at hok
    cases hok
  | ok r =>
    exact ⟨r, rfl, (steps_meter_le { maxDepth := 2, stepBudget := 42 } _).2.2 rfl
      (by decide +kernel) r hr⟩

end Reading

end SqlFilter
