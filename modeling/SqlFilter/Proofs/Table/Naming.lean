import Mathlib
import SqlFilter.Table.Naming

/-!
# Names not yet in use are not in use

The candidates for a name are the name itself and the name with a number behind it. They differ from
each other, so that one candidate more than there are names in use has to be free, and the first free
one is what `unusedName` takes (`exists_unusedName_eq`).
-/

namespace SqlFilter

/-- The candidates for a name, in the order in which they are looked at. -/
def candidate (base : String) : Nat → String
  | 0 => base
  | i + 1 => numbered base (i + 2)

theorem numbered_injective (base : String) : Function.Injective (numbered base) := by
  intro m n h
  unfold numbered at h
  have hdigits : Nat.toDigits 10 m = Nat.toDigits 10 n := by
    have := congrArg String.toList h
    simpa only [String.toList_append, List.append_cancel_left_eq, Nat.toString_eq_repr,
      Nat.toList_repr] using this
  rw [← @Nat.ofDigitChars_ten_toDigits m, hdigits, Nat.ofDigitChars_ten_toDigits]

theorem numbered_ne (base : String) (n : Nat) : numbered base n ≠ base := by
  intro h
  have hlength := congrArg (fun s => s.toList.length) h
  simp only [numbered, String.toList_append, List.length_append] at hlength
  have : "_".toList.length = 1 := rfl
  omega

theorem candidate_injective (base : String) : Function.Injective (candidate base) := by
  intro i j h
  rcases i with _ | i <;> rcases j with _ | j
  · rfl
  · exact absurd h.symm (numbered_ne base (j + 2))
  · exact absurd h (numbered_ne base (i + 2))
  · have := numbered_injective base h
    omega

/-- Some candidate is free among one more than there are names in use. -/
theorem exists_candidate_not_mem (used : List String) (base : String) :
    ∃ i ≤ used.length, candidate base i ∉ used := by
  by_contra hall
  have hmem : ∀ i ≤ used.length, candidate base i ∈ used := by
    intro i hi
    by_contra hfree
    exact hall ⟨i, hi, hfree⟩
  have hnodup : ((List.range (used.length + 1)).map (candidate base)).Nodup :=
    List.nodup_range.map (candidate_injective base)
  have hsub : (List.range (used.length + 1)).map (candidate base) ⊆ used := by
    intro s hs
    obtain ⟨i, hi, rfl⟩ := List.mem_map.1 hs
    have := List.mem_range.1 hi
    exact hmem i (by omega)
  have hle := (List.subperm_of_subset hnodup hsub).length_le
  rw [List.length_map, List.length_range] at hle
  omega

/-- The first free one of the numbered names is found if it is among those looked at. -/
theorem firstUnused_eq {used : List String} {base : String} {fuel n i : Nat} (hi : i ≤ fuel)
    (hused : ∀ j < i, numbered base (n + j) ∈ used) (hfree : numbered base (n + i) ∉ used) :
    firstUnused used base fuel n = numbered base (n + i) := by
  induction fuel generalizing n i with
  | zero =>
    obtain rfl : i = 0 := by omega
    rfl
  | succ fuel ih =>
    unfold firstUnused
    rcases i with _ | i
    · exact if_neg hfree
    · have hzero : numbered base n ∈ used := hused 0 (by omega)
      rw [if_pos hzero]
      have hshift : ∀ j, n + 1 + j = n + (j + 1) := by
        intro j
        omega
      rw [← hshift i] at hfree ⊢
      refine ih (by omega) ?_ hfree
      intro j hj
      rw [hshift j]
      exact hused (j + 1) (by omega)

/-- **A name** made to be not in use is the first of the candidates that is not in use, and no more
of them are looked at than one more than there are names in use. -/
theorem exists_unusedName_eq (used : List String) (base : String) :
    ∃ i ≤ used.length, unusedName used base = candidate base i ∧ candidate base i ∉ used ∧
      ∀ j < i, candidate base j ∈ used := by
  obtain ⟨k, hk, hfree⟩ := exists_candidate_not_mem used base
  have hex : ∃ i, candidate base i ∉ used := ⟨k, hfree⟩
  have hbefore : ∀ j < Nat.find hex, candidate base j ∈ used := by
    intro j hj
    exact not_not.1 (Nat.find_min hex hj)
  have hle : Nat.find hex ≤ used.length := (Nat.find_le hfree).trans hk
  refine ⟨Nat.find hex, hle, ?_, Nat.find_spec hex, hbefore⟩
  have hspec := Nat.find_spec hex
  generalize Nat.find hex = i at hbefore hle hspec
  unfold unusedName
  -- the name itself is the candidate of index zero, the search for a number starts behind it
  rcases i with _ | i
  · exact if_neg hspec
  · have hzero : base ∈ used := hbefore 0 (by omega)
    rw [if_pos hzero]
    have hcandidate : ∀ j, numbered base (2 + j) = candidate base (j + 1) := by
      intro j
      rw [Nat.add_comm]
      rfl
    rw [← hcandidate]
    refine firstUnused_eq (by omega) ?_ (by rwa [hcandidate])
    intro j hj
    rw [hcandidate]
    exact hbefore (j + 1) (by omega)

/-- A name that is in use gets the least number that makes it one that is not. -/
theorem exists_unusedName_eq_numbered {used : List String} {base : String} (h : base ∈ used) :
    ∃ k, 2 ≤ k ∧ k ≤ used.length + 1 ∧ unusedName used base = numbered base k ∧
      ∀ j, 2 ≤ j → j < k → numbered base j ∈ used := by
  obtain ⟨i, hi, heq, hfree, hbefore⟩ := exists_unusedName_eq used base
  rcases i with _ | i
  · exact absurd h hfree
  · refine ⟨i + 2, by omega, by omega, heq, ?_⟩
    intro j hj hlt
    obtain ⟨m, rfl⟩ := Nat.exists_eq_add_of_le' hj
    exact hbefore (m + 1) (by omega)

/-- A name made to be not in use is not in use. -/
theorem unusedName_not_mem (used : List String) (base : String) : unusedName used base ∉ used := by
  obtain ⟨i, -, heq, hfree, -⟩ := exists_unusedName_eq used base
  rwa [heq]

end SqlFilter
