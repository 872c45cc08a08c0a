import Mathlib

/-!
# Lists

Facts about lists in general that proofs about different parts have in common.
-/

namespace SqlFilter

section Dups

variable {α : Type} [BEq α] [LawfulBEq α] (xs : List α)

theorem eraseDups_concat (a : α) [Decidable (a ∈ xs)] :
    (xs ++ [a]).eraseDups = if a ∈ xs then xs.eraseDups else xs.eraseDups ++ [a] := by
  rw [List.eraseDups_append, List.removeAll, List.filter_singleton, List.elem_eq_contains]
  by_cases h : a ∈ xs
  · simp [h]
  · simp [h, List.eraseDups_cons]

theorem nodup_eraseDups : xs.eraseDups.Nodup := by
  classical
  induction xs using List.reverseRecOn with
  | nil => exact List.nodup_nil
  | append_singleton xs a ih =>
    rw [eraseDups_concat]
    split_ifs with h
    · exact ih
    · refine ih.append (List.nodup_singleton a) (List.disjoint_singleton.2 ?_)
      rwa [List.mem_eraseDups]

end Dups

/-- A stretch of a list without duplicates may be exchanged for another one that shares nothing with
the rest of the list. -/
theorem nodup_exchange {α : Type} {xs ys zs ws : List α} (h : (xs ++ ys ++ zs).Nodup)
    (hws : ws.Nodup) (hout : ∀ w ∈ ws, w ∈ xs ++ ys ++ zs → w ∈ ys) : (xs ++ ws ++ zs).Nodup := by
  simp only [List.append_assoc, List.nodup_append, List.mem_append] at h hout ⊢
  obtain ⟨hxs, ⟨-, hzs, hyz⟩, hrest⟩ := h
  refine ⟨hxs, ⟨hws, hzs, ?_⟩, ?_⟩
  · rintro w hw z hz rfl
    exact hyz w (hout w hw (.inr (.inr hz))) w hz rfl
  · rintro x hx w (hw | hw) rfl
    · exact hrest x hx x (.inl (hout x hw (.inl hx))) rfl
    · exact hrest x hx x (.inr hw) rfl

/-- A list that every step extends is extended by a run of steps. -/
theorem prefix_foldl {α β : Type} {f : List β → α → List β} (h : ∀ bs a, bs <+: f bs a)
    (bs : List β) (as : List α) : bs <+: as.foldl f bs := by
  induction as generalizing bs with
  | nil => exact List.prefix_refl bs
  | cons a as ih => exact (h bs a).trans (ih (f bs a))

/-- Lists with the same image are related if their members with the same image are. -/
theorem forall₂_of_map_eq {α β γ : Type} {f : α → γ} {g : β → γ} {R : α → β → Prop} {xs : List α}
    {ys : List β} (h : xs.map f = ys.map g) (hR : ∀ x ∈ xs, ∀ y ∈ ys, f x = g y → R x y) :
    List.Forall₂ R xs ys := by
  induction xs generalizing ys with
  | nil => rw [List.map_eq_nil_iff.1 h.symm]; exact .nil
  | cons x xs ih =>
    obtain ⟨y, ys, rfl, hy, hys⟩ := List.map_eq_cons_iff.1 h.symm
    refine .cons (hR x List.mem_cons_self y List.mem_cons_self hy.symm) (ih hys.symm ?_)
    intro u hu v hv
    exact hR u (List.mem_cons_of_mem x hu) v (List.mem_cons_of_mem y hv)

/-- What is made of some members of a list is related to just these members in order. -/
theorem forall₂_filterMap {α β : Type} {f : α → Option β} {p : α → Prop} [DecidablePred p]
    {R : β → α → Prop} {xs : List α} (hp : ∀ x ∈ xs, f x = none ↔ ¬ p x)
    (hR : ∀ x ∈ xs, ∀ y, f x = some y → R y x) :
    List.Forall₂ R (xs.filterMap f) (xs.filter p) := by
  induction xs with
  | nil => exact .nil
  | cons x xs ih =>
    obtain ⟨hpx, hpxs⟩ := List.forall_mem_cons.1 hp
    obtain ⟨hRx, hRxs⟩ := List.forall_mem_cons.1 hR
    cases hx : f x with
    | none =>
      rw [List.filterMap_cons_none hx, List.filter_cons_of_neg (by simpa using hpx.1 hx)]
      exact ih hpxs hRxs
    | some y =>
      have hkept : p x := by
        by_contra hnot
        rw [hpx.2 hnot] at hx
        cases hx
      rw [List.filterMap_cons_some hx, List.filter_cons_of_pos (by simpa using hkept)]
      exact .cons (hRx y hx) (ih hpxs hRxs)

/-- A function that succeeds everywhere on a list succeeds on the list. -/
theorem exists_mapM_eq_ok {ε α β γ : Type} {f : α → Except ε β} {g : β → γ} {h : α → γ}
    {xs : List α} (hf : ∀ x ∈ xs, ∃ y, f x = .ok y ∧ g y = h x) :
    ∃ ys, xs.mapM f = .ok ys ∧ ys.map g = xs.map h := by
  induction xs with
  | nil => exact ⟨[], rfl, rfl⟩
  | cons x xs ih =>
    obtain ⟨hx, hxs⟩ := List.forall_mem_cons.1 hf
    obtain ⟨y, hy, hg⟩ := hx
    obtain ⟨ys, hys, hgs⟩ := ih hxs
    refine ⟨y :: ys, ?_, by rw [List.map_cons, List.map_cons, hg, hgs]⟩
    rw [List.mapM_cons, hy, hys]
    rfl

end SqlFilter
