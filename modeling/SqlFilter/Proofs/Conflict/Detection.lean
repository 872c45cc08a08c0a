import Mathlib
import SqlFilter.Conflict

/-!
# What is detected

A comparison is in conflict just if the categories of its sides clash, and a conflict always comes
with a type to cast to. Behind a detection the conflict under a key is that of the first comparison
of the key that is in conflict, with the decision that the key had before
(`ConflictLog.find?_detect`). So a comparison whose key stands for one pair of categories only is
guarded (`ConflictLog.guarded_detect`): if its sides clash, it waits for a decision or is cast, and
otherwise nothing is done to it.
-/

namespace SqlFilter

namespace Category

/-- Whether values of the categories cannot be compared as they are. -/
def Clashes (l r : Category) : Prop := l ≠ r ∧ l ≠ unknown ∧ r ≠ unknown

instance (l r : Category) : Decidable (l.Clashes r) := inferInstanceAs (Decidable (_ ∧ _))

theorem compare_of_not_clashes {l r : Category} (h : ¬ l.Clashes r) :
    l.compare r = (.compatible, none) := by
  revert h
  cases l <;> cases r <;> decide

/-- A clash always has a type to cast to. -/
theorem exists_compare_of_clashes {l r : Category} (h : l.Clashes r) :
    ∃ verdict type, l.compare r = (verdict, some type) ∧ verdict ≠ .compatible := by
  have hcast : (l.compare r).2.isSome = true ∧ (l.compare r).1 ≠ .compatible := by
    revert h
    cases l <;> cases r <;> decide
  obtain ⟨type, htype⟩ := Option.isSome_iff_exists.1 hcast.1
  exact ⟨_, type, Prod.ext rfl htype, hcast.2⟩

end Category

namespace Comparison

variable {c : Comparison} (r : Resolution)

theorem conflict?_of_not_clashes (h : ¬ c.left.Clashes c.right) : c.conflict? r = none := by
  rw [conflict?, Category.compare_of_not_clashes h]

/-- The conflict that a clash of two sides is. -/
def conflict (c : Comparison) (r : Resolution) : Conflict :=
  ⟨c.key, c.leftType, c.rightType, (c.left.compare c.right).1, (c.left.compare c.right).2, r⟩

theorem conflict?_of_clashes (h : c.left.Clashes c.right) :
    c.conflict? r = some (c.conflict r) := by
  obtain ⟨verdict, type, hcompare, hne⟩ := Category.exists_compare_of_clashes h
  rw [conflict?, conflict, hcompare]
  cases verdict with
  | compatible => exact absurd rfl hne
  | castable => rfl
  | unsound => rfl

theorem exists_conflict? (h : c.left.Clashes c.right) : ∃ verdict type, verdict ≠ .compatible ∧
    c.conflict? r = some ⟨c.key, c.leftType, c.rightType, verdict, some type, r⟩ := by
  obtain ⟨verdict, type, hcompare, hne⟩ := Category.exists_compare_of_clashes h
  exact ⟨verdict, type, hne, by rw [conflict?_of_clashes r h, conflict, hcompare]⟩

variable {r} in
theorem key_of_conflict? {conflict : Conflict} (h : c.conflict? r = some conflict) :
    conflict.key = c.key := by
  by_cases hc : c.left.Clashes c.right
  · obtain ⟨verdict, type, -, heq⟩ := exists_conflict? r hc
    rw [heq] at h
    rw [← Option.some.inj h]
  · rw [conflict?_of_not_clashes r hc] at h
    cases h

/-- The conflict of a comparison under a key, if the comparison goes by the key. -/
def conflictUnder? (r : Resolution) (key : ConflictKey) (c : Comparison) : Option Conflict :=
  if c.key = key then c.conflict? r else none

end Comparison

namespace ConflictLog

variable (old log : ConflictLog) (key : ConflictKey)

theorem find?_add (c : Comparison) : (add old log c).find? key =
    (log.find? key).or (c.conflictUnder? (old.resolution key) key) := by
  unfold add Comparison.conflictUnder?
  by_cases hkey : c.key = key
  · rw [if_pos hkey, hkey]
    cases hc : c.conflict? (old.resolution key) with
    | none => exact (Option.or_none).symm
    | some conflict =>
      have hconflict : conflict.key = key := (Comparison.key_of_conflict? hc).trans hkey
      dsimp only
      -- the first conflict under a key stays
      split_ifs with hfound
      · obtain ⟨found, hfound⟩ := Option.isSome_iff_exists.1 hfound
        rw [hfound, Option.some_or]
      · rw [Option.not_isSome_iff_eq_none.1 hfound, Option.none_or]
        unfold find? at hfound ⊢
        rw [List.find?_append, Option.not_isSome_iff_eq_none.1 hfound, Option.none_or,
          List.find?_singleton, decide_eq_true hconflict, if_pos rfl]
  · rw [if_neg hkey, Option.or_none]
    cases hc : c.conflict? (old.resolution c.key) with
    | none => rfl
    | some conflict =>
      have hconflict : conflict.key ≠ key := by rwa [Comparison.key_of_conflict? hc]
      dsimp only
      split_ifs
      · rfl
      · unfold find?
        rw [List.find?_append, List.find?_singleton, decide_eq_false hconflict,
          if_neg Bool.false_ne_true, Option.or_none]

theorem find?_foldl_add (cs : List Comparison) : (cs.foldl (add old) log).find? key =
    (log.find? key).or (cs.findSome? (Comparison.conflictUnder? (old.resolution key) key)) := by
  induction cs generalizing log with
  | nil => exact (Option.or_none).symm
  | cons c cs ih =>
    rw [List.foldl_cons, ih, find?_add, Option.or_assoc, List.findSome?_cons]
    cases c.conflictUnder? (old.resolution key) key <;> rfl

/-- **Detection.** The conflict under a key is that of the first comparison of the key that is in
conflict, and the decision on the key is kept. -/
theorem find?_detect (pairs : List ColumnPair) (filter : Tree String) :
    (log.detect pairs filter).find? key = (Comparison.all pairs filter).findSome?
      (Comparison.conflictUnder? (log.resolution key) key) :=
  find?_foldl_add log {} key _

variable {log key} in
/-- A conflict that is found waits for a decision or is decided with a cast. -/
theorem mem_unresolved_or_castFor {c : Conflict} (h : log.find? key = some c)
    (hverdict : c.verdict ≠ .compatible) (hcast : c.recommended.isSome = true) :
    log.castFor key = none ∧ c ∈ log.unresolved ∨ ∃ type, log.castFor key = some type := by
  obtain ⟨type, htype⟩ := Option.isSome_iff_exists.1 hcast
  rw [castFor, h, Option.bind_some, Conflict.castType]
  cases hr : c.resolution with
  | unresolved =>
    refine .inl ⟨rfl, List.mem_filter.2 ⟨List.mem_of_find?_eq_some h, ?_⟩⟩
    rw [Conflict.isBlocking, hr, decide_eq_true hverdict]
    rfl
  | acceptedDefault => exact .inr ⟨type, htype⟩
  | overridden type => exact .inr ⟨type, rfl⟩

end ConflictLog

/-- What is done about a comparison whose sides are cast to the type, if one is given. -/
structure Comparison.Guarded (waiting : List Conflict) (c : Comparison) (cast : Option String) :
    Prop where
  /-- A clash is among the conflicts that wait for a decision, or its sides are cast. -/
  clash : c.left.Clashes c.right →
    cast = none ∧ (∃ conflict ∈ waiting, conflict.key = c.key) ∨ ∃ type, cast = some type
  /-- All else is left as it is. -/
  fit : ¬ c.left.Clashes c.right → cast = none

/-- A comparison is guarded behind a detection, if all comparisons under its key compare the same
categories. -/
theorem ConflictLog.guarded_detect (log : ConflictLog) {pairs : List ColumnPair}
    {filter : Tree String} {c : Comparison} (hmem : c ∈ Comparison.all pairs filter)
    (hsame : ∀ c' ∈ Comparison.all pairs filter, c'.key = c.key →
      c'.left = c.left ∧ c'.right = c.right) :
    c.Guarded (log.detect pairs filter).unresolved ((log.detect pairs filter).castFor c.key) := by
  have hfind := log.find?_detect c.key pairs filter
  refine ⟨fun hclash => ?_, fun hfit => ?_⟩
  · -- the first comparison of the key need not be `c`, but it is in conflict as well
    cases hfound : (log.detect pairs filter).find? c.key with
    | none =>
      have hnone := List.findSome?_eq_none_iff.1 (hfind.symm.trans hfound) c hmem
      obtain ⟨verdict, type, -, heq⟩ := Comparison.exists_conflict? (log.resolution c.key) hclash
      rw [Comparison.conflictUnder?, if_pos rfl, heq] at hnone
      cases hnone
    | some conflict =>
      obtain ⟨c', -, hc'⟩ := List.exists_of_findSome?_eq_some (hfind.symm.trans hfound)
      unfold Comparison.conflictUnder? at hc'
      split_ifs at hc' with hkey
      by_cases hclash' : c'.left.Clashes c'.right
      · obtain ⟨verdict, type, hne, heq⟩ := Comparison.exists_conflict? (log.resolution c.key)
          hclash'
        obtain rfl := Option.some.inj (heq.symm.trans hc')
        rcases mem_unresolved_or_castFor hfound hne rfl with ⟨hcast, hwaiting⟩ | hcast
        · exact .inl ⟨hcast, _, hwaiting, hkey⟩
        · exact .inr hcast
      · rw [Comparison.conflict?_of_not_clashes _ hclash'] at hc'
        cases hc'
  · have hnone : (log.detect pairs filter).find? c.key = none := by
      rw [hfind, List.findSome?_eq_none_iff]
      intro c' hc'
      unfold Comparison.conflictUnder?
      split_ifs with hkey
      · obtain ⟨hl, hr⟩ := hsame c' hc' hkey
        exact Comparison.conflict?_of_not_clashes _ (by rwa [hl, hr])
      · rfl
    rw [castFor, hnone, Option.bind_none]

end SqlFilter
