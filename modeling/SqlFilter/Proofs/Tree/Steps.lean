import Mathlib
import SqlFilter.Proofs.Tree.Cut
import SqlFilter.Tree.Reader

/-!
# How many steps reading takes

Every word is looked at once in each of the levels it is in, and once more in its condition, so that
reading `n` words with `m` levels at most takes no more than `n * (m + 1)` steps
(`steps_readLevel_le`). Fewer words than levels leave enough room
(`readLevel_ne_none_of_length_lt`).
-/

namespace SqlFilter

namespace Split

/-- The words of the parts and one connective for each of them. -/
def weight (more : List (Logic × List Word)) : Nat := (more.map fun x => x.2.length + 1).sum

theorem length_add_weight_cut (depth : Nat) (pending : Bool) (ws : List Word) :
    (Word.cut depth pending ws).1.length + weight (Word.cut depth pending ws).2 = ws.length := by
  induction ws generalizing depth pending with
  | nil => rfl
  | cons w ws ih =>
    cases hc : Word.connective? depth pending w with
    | some k =>
      have := ih depth false
      simp only [Word.cut, hc, weight, List.map_cons, List.sum_cons, List.length_nil,
        List.length_cons] at this ⊢
      omega
    | none =>
      have := ih (Word.depthAfter depth w) (Word.pendingAfter depth pending w)
      simp only [Word.cut, hc, List.length_cons]
      omega

theorem check_le (seen : Option Logic) (part : List Word) (more : List (Logic × List Word)) :
    (check seen part more).2 ≤ part.length + weight more := by
  induction more generalizing seen part with
  | nil =>
    rw [check]
    split_ifs
    · exact Nat.zero_le _
    · exact Nat.le_add_right _ _
  | cons x more ih =>
    obtain ⟨k, next⟩ := x
    have := ih (some k) next
    simp only [weight, List.map_cons, List.sum_cons] at this ⊢
    rw [check]
    split_ifs
    · dsimp only
      omega
    · dsimp only
      omega
    · dsimp only
      omega

/-- Of a clear level all the words are looked at. -/
theorem snd_check_eq {seen : Option Logic} {part : List Word} {more : List (Logic × List Word)}
    {k : Logic} {ps : List (List Word)} {n : Nat} (h : check seen part more = (parts k ps, n)) :
    n = part.length + weight more := by
  induction more generalizing seen part k ps n with
  | nil =>
    rw [check] at h
    split_ifs at h
    · cases h
    · exact (Prod.mk.inj h).2.symm
  | cons x more ih =>
    obtain ⟨k₀, next⟩ := x
    rw [check] at h
    split_ifs at h
    · cases h
    · cases h
    · obtain ⟨hout, rfl⟩ := Prod.mk.inj h
      split at hout
      · next k' ps' hrest =>
        have hn : (check (some k₀) next more).2 = next.length + weight more :=
          ih (Prod.ext hrest rfl)
        simp only [weight, List.map_cons, List.sum_cons] at hn ⊢
        omega
      · next hrest => exact absurd hout (hrest _ _)

theorem ofWords_le (ws : List Word) : (ofWords ws).2 ≤ ws.length := by
  unfold ofWords
  split_ifs
  · exact Nat.zero_le _
  · exact (check_le none _ _).trans (length_add_weight_cut 0 false ws).le

theorem sum_length_le {ws : List Word} {k : Logic} {ps : List (List Word)} {n : Nat}
    (h : ofWords ws = (parts k ps, n)) : (ps.map List.length).sum ≤ ws.length := by
  obtain ⟨-, -, rfl⟩ | ⟨part, more, rfl, -, -, htokens⟩ := eq_of_ofWords h
  · exact Nat.zero_le _
  · have hlen := congrArg List.length htokens
    have hmore : (more.map List.length).sum ≤
        (more.flatMap fun p => k.token :: p.map Word.token).length := by
      rw [List.length_flatMap]
      refine List.sum_le_sum fun p _ => ?_
      rw [List.length_cons, List.length_map]
      exact Nat.le_succ _
    rw [List.length_map, List.length_append, List.length_map] at hlen
    rw [List.map_cons, List.sum_cons]
    omega

end Split

namespace Attempt

theorem steps_collect_le (as : List (Attempt (Option (Node Unit)))) :
    (collect as).steps ≤ (as.map steps).sum := by
  induction as with
  | nil => exact Nat.zero_le _
  | cons a as ih =>
    rw [collect, List.map_cons, List.sum_cons]
    split
    · exact Nat.le_add_right _ _
    · exact Nat.add_le_add_left ih _

/-- Attempts in a row give what those before and those behind give. -/
theorem result_collect_append (as bs : List (Attempt (Option (Node Unit)))) :
    (collect (as ++ bs)).result = (collect as).result.bind fun x =>
      (collect bs).result.map fun y => (x.1 ++ y.1, x.2 ++ y.2) := by
  induction as with
  | nil =>
    show (collect bs).result = (collect bs).result.map fun y => ([] ++ y.1, [] ++ y.2)
    simp
  | cons a as ih =>
    rw [List.cons_append, collect, collect]
    split
    · rfl
    · next n w _ =>
      dsimp only
      rw [ih]
      cases (collect as).result with
      | none => rfl
      | some x => cases (collect bs).result <;> simp

theorem steps_collect_append {as : List (Attempt (Option (Node Unit)))}
    (h : (collect as).result ≠ none) (bs : List (Attempt (Option (Node Unit)))) :
    (collect (as ++ bs)).steps = (collect as).steps + (collect bs).steps := by
  induction as with
  | nil => exact (Nat.zero_add _).symm
  | cons a as ih =>
    rw [collect] at h
    rw [List.cons_append, collect, collect]
    cases ha : a.result with
    | none =>
      rw [ha] at h
      exact absurd rfl h
    | some x =>
      have hrest : (collect as).result ≠ none := by
        intro hnone
        simp only [ha, hnone, Option.map_none] at h
        exact h rfl
      simp only [ih hrest, Nat.add_assoc]

theorem collect_ne_none {as : List (Attempt (Option (Node Unit)))}
    (h : ∀ a ∈ as, a.result ≠ none) : (collect as).result ≠ none := by
  induction as with
  | nil => exact nofun
  | cons a as ih =>
    obtain ⟨ha, has⟩ := List.forall_mem_cons.1 h
    rw [collect]
    split
    · next hn => exact absurd hn ha
    · simpa using ih has

end Attempt

theorem Word.length_of_unwrap? {ws body : List Word} (h : unwrap? ws = some body) :
    body.length + 2 = ws.length := by
  obtain ⟨o, c, rfl, -⟩ := unwrap?_eq_some_iff.1 h
  simp

theorem Condition.ofTokens_le (ts : List Token) : (ofTokens ts).2 ≤ ts.length :=
  Nat.sub_le _ _

section Steps

variable {inner : List Word → Attempt (Option Level)}

theorem steps_readPart_le {bound : Nat} (hinner : ∀ ws, (inner ws).steps ≤ ws.length * bound)
    (hb : 0 < bound) (ws : List Word) : (readPart inner ws).steps ≤ ws.length * bound := by
  have hcondition := Condition.ofTokens_le (ws.map Word.token)
  rw [List.length_map] at hcondition
  unfold readPart
  split
  · next body hu =>
    have := Word.length_of_unwrap? hu
    exact (hinner body).trans (Nat.mul_le_mul_right bound (by omega))
  · split
    · next heq =>
      rw [heq] at hcondition
      exact hcondition.trans (Nat.le_mul_of_pos_right _ hb)
    · next heq =>
      rw [heq] at hcondition
      exact hcondition.trans (Nat.le_mul_of_pos_right _ hb)

/-- **Reading** looks at every word once for each level there may be, and once more. -/
theorem steps_readLevel_le (room : Nat) (ws : List Word) :
    (readLevel room ws).steps ≤ ws.length * (room + 1) := by
  induction room generalizing ws with
  | zero => exact Nat.zero_le _
  | succ room ih =>
    have hn := Split.ofWords_le ws
    have hmul : ws.length * (room + 1 + 1) = ws.length * (room + 1) + ws.length := Nat.mul_succ _ _
    rw [readLevel]
    split
    · next hsplit =>
      rw [hsplit] at hn
      dsimp only at hn ⊢
      omega
    · next hsplit =>
      rw [hsplit] at hn
      dsimp only at hn ⊢
      omega
    · next k ps n hsplit =>
      rw [hsplit] at hn
      have hparts : ∀ p ∈ ps, (readPart (readLevel room) p).steps ≤ p.length * (room + 1) :=
        fun p _ => steps_readPart_le ih (Nat.succ_pos room) p
      have hsum : (Attempt.collect (ps.map (readPart (readLevel room)))).steps ≤
          ws.length * (room + 1) :=
        calc (Attempt.collect (ps.map (readPart (readLevel room)))).steps
          _ ≤ ((ps.map (readPart (readLevel room))).map Attempt.steps).sum :=
            Attempt.steps_collect_le _
          _ ≤ (ps.map fun p => p.length * (room + 1)).sum := by
            rw [List.map_map]
            exact List.sum_le_sum hparts
          _ = (ps.map List.length).sum * (room + 1) := List.sum_map_mul_right _ _ _
          _ ≤ ws.length * (room + 1) := Nat.mul_le_mul_right _ (Split.sum_length_le hsplit)
      dsimp only at hn ⊢
      omega

theorem readPart_ne_none {ws : List Word}
    (h : ∀ body, Word.unwrap? ws = some body → (inner body).result ≠ none) :
    (readPart inner ws).result ≠ none := by
  unfold readPart
  split
  · next body hu => simpa using h body hu
  · split <;> exact nofun

/-- There is room enough for levels of fewer words. -/
theorem readLevel_ne_none_of_length_lt {room : Nat} {ws : List Word} (h : ws.length < room) :
    (readLevel room ws).result ≠ none := by
  induction room generalizing ws with
  | zero => exact absurd h (Nat.not_lt_zero _)
  | succ room ih =>
    rw [readLevel]
    split
    · exact nofun
    · exact nofun
    · next k ps n hsplit =>
      have hparts : ∀ a ∈ ps.map (readPart (readLevel room)), a.result ≠ none := by
        intro a ha
        obtain ⟨p, hp, rfl⟩ := List.mem_map.1 ha
        refine readPart_ne_none fun body hu => ih ?_
        have hlen := Word.length_of_unwrap? hu
        have hle := List.le_sum_of_mem (List.mem_map_of_mem (f := List.length) hp)
        have := Split.sum_length_le hsplit
        omega
      simpa using Attempt.collect_ne_none hparts

end Steps

end SqlFilter
