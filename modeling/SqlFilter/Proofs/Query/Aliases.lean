import SqlFilter.Proofs.Lists
import SqlFilter.Proofs.Table.Naming
import SqlFilter.Query.Session

/-!
# The aliases of the tables of a query

Every table of a query has an alias of its own, which is its name unless a table before it has that
for an alias. An alias depends on the tables before it only (`Query.aliases_sound`), so that tables
that are added behind change none.
-/

namespace SqlFilter

namespace Query

theorem aliases_append (tables : List Table) (t : Table) :
    aliases (tables ++ [t]) = aliases tables ++ [unusedName (aliases tables) t.name] := by
  unfold aliases
  rw [List.foldl_append]
  rfl

@[simp] theorem length_aliases (tables : List Table) :
    (aliases tables).length = tables.length := by
  induction tables using List.reverseRecOn with
  | nil => rfl
  | append_singleton tables t ih => simp [aliases_append, ih]

/-- Aliases differ from each other. -/
theorem nodup_aliases (tables : List Table) : (aliases tables).Nodup := by
  induction tables using List.reverseRecOn with
  | nil => exact List.nodup_nil
  | append_singleton tables t ih =>
    rw [aliases_append]
    refine ih.append (List.nodup_singleton _) ?_
    exact List.disjoint_singleton.2 (unusedName_not_mem _ _)

/-- Aliases stay as they are when more tables come behind. -/
theorem prefix_aliases (s t : List Table) : aliases s <+: aliases (s ++ t) := by
  unfold aliases
  rw [List.foldl_append]
  exact prefix_foldl (fun _ _ => List.prefix_append _ _) _ _

/-- The alias of a table stands behind those of the tables before it. -/
theorem exists_aliases_eq (before : List Table) (t : Table) (behind : List Table) :
    ∃ rest, aliases (before ++ t :: behind) =
      aliases before ++ unusedName (aliases before) t.name :: rest := by
  obtain ⟨rest, hrest⟩ := prefix_aliases (before ++ [t]) behind
  refine ⟨rest, ?_⟩
  rw [List.append_cons, ← hrest, aliases_append, ← List.append_cons]

/-- **The aliases** of tables are as many as the tables, and all different. That of a table is its
name if no alias before it is; otherwise it is the name with the least number from two on that makes
it different from those before it, which is among one candidate more than there are tables before
it. The aliases of the first tables are the first aliases. -/
theorem aliases_sound (tables : List Table) :
    (aliases tables).length = tables.length ∧ (aliases tables).Nodup ∧
      (∀ before t behind, tables = before ++ t :: behind →
        ∃ a rest, aliases tables = aliases before ++ a :: rest ∧
          (t.name ∉ aliases before → a = t.name) ∧
          (t.name ∈ aliases before → ∃ k, 2 ≤ k ∧ k ≤ before.length + 1 ∧
            a = numbered t.name k ∧ a ∉ aliases before ∧
            ∀ j, 2 ≤ j → j < k → numbered t.name j ∈ aliases before)) ∧
      ∀ before, before <+: tables → aliases before <+: aliases tables := by
  refine ⟨length_aliases tables, nodup_aliases tables, ?_, ?_⟩
  · rintro before t behind rfl
    obtain ⟨rest, hrest⟩ := exists_aliases_eq before t behind
    refine ⟨_, rest, hrest, fun hfree => if_neg hfree, fun hused => ?_⟩
    obtain ⟨k, htwo, hle, heq, hleast⟩ := exists_unusedName_eq_numbered hused
    rw [length_aliases] at hle
    exact ⟨k, htwo, hle, heq, unusedName_not_mem _ _, hleast⟩
  · rintro before ⟨behind, rfl⟩
    exact prefix_aliases before behind

/-- A number that makes an alias different may be taken by the name of another table. -/
theorem aliases_sound_cascade :
    let table (name : String) : Table := ⟨name, none, .ownEngine, []⟩
    let before := [table "orders", table "orders", table "orders_2"]
    let tables := before ++ [table "orders"]
    aliases before = ["orders", "orders_2", "orders_2_2"] ∧ aliases before <+: aliases tables ∧
      ∃ k rest, k ≤ 4 ∧ aliases tables = aliases before ++ numbered "orders" k :: rest ∧
        numbered "orders" k ∉ aliases before ∧
        ∀ j, 2 ≤ j → j < k → numbered "orders" j ∈ aliases before := by
  intro table before tables
  have hbefore : aliases before = ["orders", "orders_2", "orders_2_2"] := by decide +kernel
  obtain ⟨-, -, hat, hfirst⟩ := aliases_sound tables
  obtain ⟨_, rest, heq, -, hused⟩ := hat before (table "orders") [] rfl
  obtain ⟨k, -, hle, rfl, hfree, hleast⟩ := hused (by rw [hbefore]; decide)
  exact ⟨hbefore, hfirst before (List.prefix_append _ _), k, rest, hle, heq, hfree, hleast⟩

end Query

end SqlFilter
