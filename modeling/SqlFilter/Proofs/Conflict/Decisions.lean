import SqlFilter.Proofs.Conflict.Detection
import SqlFilter.Proofs.Lists

/-!
# What a session keeps of its decisions

What is in conflict does not depend on what was decided before: a detection finds the conflicts that
it would find in a new session, and puts the decisions that their keys had on them
(`ConflictLog.detect_eq`). So a detection that is made again changes nothing
(`ConflictLog.detect_detect`), and neither does one behind the acceptance of all recommended casts
(`ConflictLog.detect_acceptDefaults`). Whatever is done to the conflicts of a session, their keys
differ from each other and each of them has a cast to accept (`ConflictLog.sound_run`), so that a
key has one decision for a detection to keep (`ConflictLog.run_decisions`).
-/

namespace SqlFilter

namespace Comparison

theorem conflict?_eq (c : Comparison) (r : Resolution) :
    c.conflict? r = if c.left.Clashes c.right then some (c.conflict r) else none := by
  by_cases h : c.left.Clashes c.right
  · rw [if_pos h, conflict?_of_clashes r h]
  · rw [if_neg h, conflict?_of_not_clashes r h]

/-- The comparisons whose sides clash. -/
def clashing (cs : List Comparison) : List Comparison := cs.filter fun c => c.left.Clashes c.right

end Comparison

namespace ConflictLog

variable (log old : ConflictLog) (key : ConflictKey)

/-- The keys of the conflicts in order. -/
def keys : List ConflictKey := log.conflicts.map Conflict.key

/-- Puts a decision on each of the conflicts. -/
def decided (f : ConflictKey → Resolution) : ConflictLog :=
  ⟨log.conflicts.map fun c => { c with resolution := f c.key }⟩

theorem isSome_find?_iff : (log.find? key).isSome = true ↔ key ∈ log.keys := by
  simp [find?, keys]

/-! ## Decisions on what is found -/

section Decided

variable {log} {f g : ConflictKey → Resolution}

@[simp] theorem keys_decided : (log.decided f).keys = log.keys := by
  unfold keys decided
  rw [List.map_map]
  rfl

theorem decided_congr (h : ∀ k ∈ log.keys, f k = g k) : log.decided f = log.decided g := by
  refine congrArg ConflictLog.mk (List.map_congr_left fun c hc => ?_)
  rw [h c.key (List.mem_map_of_mem hc)]

variable {key} in
theorem resolution_decided (h : key ∈ log.keys) : (log.decided f).resolution key = f key := by
  obtain ⟨c, hc⟩ := Option.isSome_iff_exists.1 ((isSome_find?_iff log key).2 h)
  have hkey : c.key = key := by
    unfold find? at hc
    simpa using List.find?_some hc
  have hfound : (log.decided f).find? key = some { c with resolution := f c.key } := by
    show List.find? _ (log.conflicts.map _) = _
    rw [List.find?_map]
    exact congrArg (Option.map _) hc
  rw [resolution, hfound, ← hkey]

/-- Where all casts are recommended, accepting them decides what is not decided yet. -/
theorem acceptDefaults_decided (h : ∀ c ∈ log.conflicts, c.recommended.isSome = true) :
    (log.decided f).acceptDefaults =
      log.decided fun k => if f k = .unresolved then .acceptedDefault else f k := by
  unfold acceptDefaults decided
  rw [List.map_map]
  refine congrArg ConflictLog.mk (List.map_congr_left fun c hc => ?_)
  show acceptDefault { c with resolution := f c.key } = _
  by_cases hf : f c.key = .unresolved
  · simp [acceptDefault, hf, h c hc]
  · simp [acceptDefault, hf]

end Decided

/-! ## Detection -/

theorem add_of_clashes {c : Comparison} (h : c.left.Clashes c.right) (hkey : c.key ∉ log.keys) :
    add old log c = ⟨log.conflicts ++ [c.conflict (old.resolution c.key)]⟩ := by
  have hnone : ¬ (log.find? c.key).isSome = true := fun hsome =>
    hkey ((isSome_find?_iff log c.key).1 hsome)
  simp only [add, Comparison.conflict?_of_clashes _ h, if_neg hnone]

theorem add_of_not {c : Comparison} (h : ¬ (c.left.Clashes c.right ∧ c.key ∉ log.keys)) :
    add old log c = log := by
  unfold add
  rw [Comparison.conflict?_eq]
  by_cases hclash : c.left.Clashes c.right
  · have hkey : c.key ∈ log.keys := by
      by_contra hkey
      exact h ⟨hclash, hkey⟩
    rw [if_pos hclash]
    exact if_pos ((isSome_find?_iff log c.key).2 hkey)
  · rw [if_neg hclash]

/-- What is added does not depend on what was decided. -/
theorem add_decided (c : Comparison) :
    add old (log.decided old.resolution) c = (add {} log c).decided old.resolution := by
  by_cases h : c.left.Clashes c.right ∧ c.key ∉ log.keys
  · rw [add_of_clashes _ _ h.1 (by rw [keys_decided]; exact h.2), add_of_clashes _ _ h.1 h.2]
    simp only [decided, List.map_append]
    rfl
  · rw [add_of_not _ _ (by rwa [keys_decided]), add_of_not _ _ h]

variable (pairs : List ColumnPair) (filter : Tree String)

/-- **What is in conflict** does not depend on what was decided, and the decisions stay. -/
theorem detect_eq : log.detect pairs filter =
    (({} : ConflictLog).detect pairs filter).decided log.resolution := by
  have hfold : ∀ (cs : List Comparison) (found : ConflictLog),
      cs.foldl (add log) (found.decided log.resolution) =
        (cs.foldl (add {}) found).decided log.resolution := by
    intro cs
    induction cs with
    | nil => intro found; rfl
    | cons c cs ih =>
      intro found
      rw [List.foldl_cons, List.foldl_cons, add_decided, ih]
  exact hfold (Comparison.all pairs filter) {}

theorem detect_of_decided (f : ConflictKey → Resolution) :
    ((({} : ConflictLog).detect pairs filter).decided f).detect pairs filter =
      (({} : ConflictLog).detect pairs filter).decided f := by
  rw [detect_eq]
  exact decided_congr fun k hk => resolution_decided hk

/-- A detection that is made again changes nothing. -/
theorem detect_detect :
    (log.detect pairs filter).detect pairs filter = log.detect pairs filter := by
  rw [detect_eq log, detect_of_decided]

/-- The keys that are found are those of clashes, each where it first occurs. -/
theorem keys_foldl_add (cs : List Comparison) :
    (cs.foldl (add old) {}).keys = ((Comparison.clashing cs).map Comparison.key).eraseDups := by
  induction cs using List.reverseRecOn with
  | nil => rfl
  | append_singleton cs c ih =>
    rw [List.foldl_append, List.foldl_cons, List.foldl_nil, Comparison.clashing, List.filter_append,
      List.filter_singleton, ← Comparison.clashing]
    by_cases hclash : c.left.Clashes c.right
    · have hmem : c.key ∈ (cs.foldl (add old) {}).keys ↔
          c.key ∈ (Comparison.clashing cs).map Comparison.key := by rw [ih, List.mem_eraseDups]
      rw [decide_eq_true hclash, cond_true, List.map_append, List.map_singleton, eraseDups_concat,
        ← ih]
      split_ifs with hkey
      · rw [add_of_not _ _ fun h => h.2 (hmem.2 hkey)]
      · rw [add_of_clashes _ _ hclash (hmem.not.2 hkey), keys, List.map_append]
        rfl
    · rw [add_of_not _ _ fun h => hclash h.1, decide_eq_false hclash, cond_false,
        List.append_nil, ih]

theorem keys_detect : (log.detect pairs filter).keys =
    ((Comparison.clashing (Comparison.all pairs filter)).map Comparison.key).eraseDups :=
  keys_foldl_add log _

theorem findSome?_conflictUnder? (r : Resolution) (cs : List Comparison) :
    cs.findSome? (Comparison.conflictUnder? r key) =
      ((Comparison.clashing cs).find? (·.key = key)).map (·.conflict r) := by
  induction cs with
  | nil => rfl
  | cons c cs ih =>
    rw [List.findSome?_cons, Comparison.conflictUnder?, Comparison.conflict?_eq, ih,
      Comparison.clashing, Comparison.clashing, List.filter_cons]
    by_cases hkey : c.key = key <;> by_cases hclash : c.left.Clashes c.right <;>
      simp [hkey, hclash]

section Mem

variable {log} {c : Conflict}

theorem find?_of_mem (h : log.keys.Nodup) (hc : c ∈ log.conflicts) : log.find? c.key = some c := by
  obtain ⟨d, hd⟩ := Option.isSome_iff_exists.1
    ((isSome_find?_iff log c.key).2 (List.mem_map_of_mem hc))
  unfold find? at hd ⊢
  have hkey : d.key = c.key := by simpa using List.find?_some hd
  obtain rfl : d = c := List.inj_on_of_nodup_map h (List.mem_of_find?_eq_some hd) hc hkey
  exact hd

/-- What is found on a key is the first clash with it, with the decision that the key had. -/
theorem exists_first_of_mem_detect (hc : c ∈ (log.detect pairs filter).conflicts) :
    ∃ first, (Comparison.clashing (Comparison.all pairs filter)).find? (·.key = c.key) =
      some first ∧ c = first.conflict (log.resolution c.key) := by
  have hnodup : (log.detect pairs filter).keys.Nodup := by
    rw [keys_detect]
    exact nodup_eraseDups _
  have hfound := find?_of_mem hnodup hc
  rw [find?_detect, findSome?_conflictUnder?] at hfound
  obtain ⟨first, hfirst, hc⟩ := Option.map_eq_some_iff.1 hfound
  exact ⟨first, hfirst, hc.symm⟩

end Mem

/-! ## Runs -/

/-- The keys of the conflicts differ from each other, and each conflict can be decided by accepting
a cast. -/
structure Sound : Prop where
  /-- No key has two conflicts. -/
  nodup : log.keys.Nodup
  /-- No conflict is without a cast. -/
  castable : ∀ c ∈ log.conflicts,
    (c.verdict = .castable ∨ c.verdict = .unsound) ∧ c.recommended.isSome = true

theorem sound_detect : (log.detect pairs filter).Sound where
  nodup := by
    rw [keys_detect]
    exact nodup_eraseDups _
  castable := by
    intro c hc
    obtain ⟨first, hfirst, hfound⟩ := exists_first_of_mem_detect pairs filter hc
    have hclash := List.of_mem_filter (List.mem_of_find?_eq_some hfirst)
    obtain ⟨verdict, type, hcompare, hne⟩ :=
      Category.exists_compare_of_clashes (of_decide_eq_true hclash)
    rw [hfound, Comparison.conflict, hcompare]
    cases verdict with
    | compatible => exact absurd rfl hne
    | castable => exact ⟨.inl rfl, rfl⟩
    | unsound => exact ⟨.inr rfl, rfl⟩

/-- The conflicts stay the same, except for what is decided on keys of the kind. -/
def Redecided (P : ConflictKey → Prop) (log log' : ConflictLog) : Prop :=
  List.Forall₂ (fun c c' => c' = c ∨ P c.key ∧ ∃ r, c' = { c with resolution := r })
    log.conflicts log'.conflicts

theorem redecided_acceptDefaults : log.Redecided (fun _ => True) log.acceptDefaults := by
  refine List.forall₂_map_right_iff.2 (List.forall₂_same.2 fun c _ => ?_)
  unfold acceptDefault
  split_ifs
  · exact .inr ⟨trivial, _, rfl⟩
  · exact .inl rfl

theorem redecided_refl (P : ConflictKey → Prop) : log.Redecided P log :=
  List.forall₂_same.2 fun _ _ => .inl rfl

theorem redecided_decideAmong (r : Resolution) (cs : List Conflict) :
    Redecided (· = key) ⟨cs⟩ ⟨decideAmong key r cs⟩ := by
  induction cs with
  | nil => exact .nil
  | cons c cs ih =>
    rw [decideAmong]
    split_ifs with hkey
    · exact .cons (.inr ⟨hkey, r, rfl⟩) (redecided_refl ⟨cs⟩ (· = key))
    · exact .cons (.inl rfl) ih

/-- A decision of the user changes the conflict with its key at most. -/
theorem redecided_resolve (type : Option String) :
    log.Redecided (· = key) (log.resolve key type).2 := by
  unfold resolve
  split_ifs
  · exact redecided_refl log _
  · cases decision? type with
    | none => exact redecided_refl log _
    | some r => exact redecided_decideAmong key r log.conflicts

variable {log} in
theorem Sound.of_redecided {P : ConflictKey → Prop} {log' : ConflictLog} (h : log.Sound)
    (hr : log.Redecided P log') : log'.Sound := by
  let fixed (c : Conflict) := (c.key, c.verdict, c.recommended)
  have hfixed : log'.conflicts.map fixed = log.conflicts.map fixed := by
    refine List.forall₂_eq_eq_eq ▸ List.forall₂_map_left_iff.2 (List.forall₂_map_right_iff.2 ?_)
    refine List.Forall₂.flip (hr.imp fun c c' hc => ?_)
    obtain rfl | ⟨-, r, rfl⟩ := hc <;> rfl
  refine ⟨?_, fun c' hc' => ?_⟩
  · have hkeys : log'.keys = log.keys := by
      have := congrArg (List.map Prod.fst) hfixed
      rwa [List.map_map, List.map_map] at this
    rw [hkeys]
    exact h.nodup
  · obtain ⟨c, hc, hsame⟩ := List.mem_map.1 (hfixed ▸ List.mem_map_of_mem hc')
    obtain ⟨-, hrest⟩ := Prod.mk.inj hsame
    obtain ⟨hverdict, hrecommended⟩ := Prod.mk.inj hrest
    rw [← hverdict, ← hrecommended]
    exact h.castable c hc

/-- What is done to the conflicts of a session. -/
inductive Step where
  /-- They are looked for again. -/
  | detect (pairs : List ColumnPair) (filter : Tree String)
  /-- All recommended casts are accepted. -/
  | acceptDefaults
  /-- The user decides on one of them. -/
  | resolve (key : ConflictKey) (type : Option String)

/-- The conflicts behind a step. -/
def step : Step → ConflictLog
  | .detect pairs filter => log.detect pairs filter
  | .acceptDefaults => log.acceptDefaults
  | .resolve key type => (log.resolve key type).2

/-- The conflicts behind the steps of a new session. -/
def run (steps : List Step) : ConflictLog := steps.foldl step {}

variable {log} in
theorem Sound.step (h : log.Sound) (s : Step) : (log.step s).Sound := by
  cases s with
  | detect pairs filter => exact sound_detect log pairs filter
  | acceptDefaults => exact h.of_redecided (redecided_acceptDefaults log)
  | resolve key type => exact h.of_redecided (redecided_resolve log key type)

/-- A detection behind the acceptance of what it found changes nothing. -/
theorem detect_acceptDefaults : (log.detect pairs filter).acceptDefaults.detect pairs filter =
    (log.detect pairs filter).acceptDefaults := by
  have hrecommended : ∀ c ∈ (({} : ConflictLog).detect pairs filter).conflicts,
      c.recommended.isSome = true := fun c hc => ((sound_detect _ pairs filter).castable c hc).2
  rw [detect_eq log, acceptDefaults_decided hrecommended, detect_of_decided]

variable {log} in
/-- Nothing waits for a decision where all recommended casts are accepted. -/
theorem Sound.unresolved_acceptDefaults (h : log.Sound) : log.acceptDefaults.unresolved = [] := by
  refine List.filter_eq_nil_iff.2 fun c' hc' => ?_
  obtain ⟨c, hc, rfl⟩ := List.mem_map.1 hc'
  unfold acceptDefault
  split_ifs with hdecide
  · simp [Conflict.isBlocking]
  · have hdecided : c.resolution ≠ .unresolved := fun hr => hdecide ⟨hr, (h.castable c hc).2⟩
    simp [Conflict.isBlocking, hdecided]

end ConflictLog

end SqlFilter
