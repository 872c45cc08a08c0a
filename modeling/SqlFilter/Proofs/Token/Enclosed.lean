import SqlFilter.Proofs.Token.Ended

/-!
# Text between marks

A literal begins with one of four marks and ends with the mark that closes it, and a block comment
ends with `*/`. The scan of a token comes to that end and goes no further (`complete_of_scan`).
Where there is none it goes on to the end of the text (`eq_length_of_endless`).
-/

namespace SqlFilter.Token

/-- The marks that open a literal, each with the mark that closes it and whether a backslash escapes
in between. -/
inductive Opens (escapes : Bool) : (mark close : Char) → (e : Bool) → Prop
  | string : Opens escapes '\'' '\'' escapes
  | name : Opens escapes '"' '"' false
  | backtick : Opens escapes Dialect.backtick Dialect.backtick false
  | bracket : Opens escapes '[' ']' false

/-- Text in front of a closing mark that does not close anything itself: the mark is written twice,
and a backslash that escapes takes the character behind it along. -/
inductive Enclosed (e : Bool) (close : Char) : List Char → Prop
  | nil : Enclosed e close []
  | char {c : Char} {cs : List Char} (hc : c ≠ close) (he : ¬(e = true ∧ c = '\\'))
      (h : Enclosed e close cs) : Enclosed e close (c :: cs)
  | doubled {cs : List Char} (h : Enclosed e close cs) : Enclosed e close (close :: close :: cs)
  | escaped {c : Char} {cs : List Char} (he : e = true) (h : Enclosed e close cs) :
      Enclosed e close ('\\' :: c :: cs)

/-- The text begins with a literal, or with a block comment. -/
inductive Marked (escapes : Bool) : List Char → Prop
  | literal {mark close : Char} {e : Bool} (h : Opens escapes mark close e) (cs : List Char) :
      Marked escapes (mark :: cs)
  | comment (cs : List Char) : Marked escapes ('/' :: '*' :: cs)

/-- The text is a literal, or a block comment, with its closing mark. -/
inductive Complete (escapes : Bool) : List Char → Prop
  | literal {mark close : Char} {e : Bool} {body : List Char} (h : Opens escapes mark close e)
      (hbody : Enclosed e close body) : Complete escapes (mark :: (body ++ [close]))
  | comment {body : List Char} (hbody : ¬['*', '/'] <:+: body) :
      Complete escapes ('/' :: '*' :: (body ++ ['*', '/']))

/-- The text begins with a literal, or with a block comment, that nothing in it closes. A mark that
is written twice does not close a literal. -/
inductive Endless (escapes : Bool) : List Char → Prop
  | literal {mark close : Char} {e : Bool} {cs : List Char} (h : Opens escapes mark close e)
      (hcs : ∀ body behind, cs = body ++ close :: behind → Enclosed e close body →
        behind.head? = some close) : Endless escapes (mark :: cs)
  | comment {cs : List Char} (hcs : ¬['*', '/'] <:+: cs) : Endless escapes ('/' :: '*' :: cs)

/-! ## Literals -/

section Content

variable {e : Bool} {close : Char} {cs s body behind : List Char} {n : Nat}

/-- Content that is read stands in front of a closing mark that is not written twice. -/
theorem exists_of_content (h : content e close cs = some (s, n)) : ∃ body behind,
    cs = body ++ close :: behind ∧ Enclosed e close body ∧ behind.head? ≠ some close ∧
      n = body.length + 1 := by
  fun_induction content e close cs generalizing s n with
  | case1 => cases h
  | case2 c hc => cases h
  | case3 c hc =>
    obtain ⟨rfl, rfl⟩ := Prod.mk.inj (Option.some.inj h)
    have hclose : c = close := by
      by_contra hne
      exact hc (by simp [bne_iff_ne.2 hne])
    exact ⟨[], [], by rw [hclose]; rfl, .nil, by rintro ⟨⟩, rfl⟩
  | case4 c d cs he ih =>
    obtain ⟨u, m, hu, rfl, rfl⟩ := eq_some_of_map_eq_some h
    obtain ⟨body, behind, rfl, hbody, hbehind, rfl⟩ := ih hu
    rw [Bool.and_eq_true, beq_iff_eq] at he
    obtain ⟨he, rfl⟩ := he
    exact ⟨'\\' :: d :: body, behind, rfl, .escaped he hbody, hbehind, rfl⟩
  | case5 c d cs he hc hd ih =>
    obtain ⟨u, m, hu, rfl, rfl⟩ := eq_some_of_map_eq_some h
    obtain ⟨body, behind, rfl, hbody, hbehind, rfl⟩ := ih hu
    obtain rfl := beq_iff_eq.1 hc
    obtain rfl := beq_iff_eq.1 hd
    exact ⟨_ :: _ :: body, behind, rfl, .doubled hbody, hbehind, rfl⟩
  | case6 c d cs he hc hd =>
    obtain ⟨rfl, rfl⟩ := Prod.mk.inj (Option.some.inj h)
    obtain rfl := beq_iff_eq.1 hc
    exact ⟨[], d :: cs, rfl, .nil, fun hdc => hd (beq_iff_eq.2 (Option.some.inj hdc)), rfl⟩
  | case7 c d cs he hc ih =>
    obtain ⟨u, m, hu, rfl, rfl⟩ := eq_some_of_map_eq_some h
    obtain ⟨body, behind, hcs, hbody, hbehind, rfl⟩ := ih hu
    rw [Bool.and_eq_true, beq_iff_eq] at he
    exact ⟨c :: body, behind, by rw [hcs]; rfl, .char (mt beq_iff_eq.2 hc) he hbody, hbehind, rfl⟩

/-- A closing mark that is not written twice is found. -/
theorem exists_content (hclose : close ≠ '\\') (hbody : Enclosed e close body)
    (hbehind : behind.head? ≠ some close) :
    ∃ s, content e close (body ++ close :: behind) = some (s, body.length + 1) := by
  induction hbody with
  | nil =>
    have he : ¬(e && close == '\\') = true := by simp [hclose]
    exact ⟨[], content_eq_one_iff.2 ⟨he, beq_self_eq_true close, hbehind, rfl⟩⟩
  | @char c cs hc he _ ih =>
    obtain ⟨s, hs⟩ := ih
    obtain ⟨d, ds, hds⟩ := List.exists_cons_of_ne_nil
      (List.append_ne_nil_of_right_ne_nil cs (List.cons_ne_nil close behind))
    rw [hds] at hs
    refine ⟨c :: s, ?_⟩
    rw [List.cons_append, hds, content, if_neg (by simpa using he), if_neg (by simpa using hc), hs]
    rfl
  | doubled _ ih =>
    obtain ⟨s, hs⟩ := ih
    refine ⟨close :: s, ?_⟩
    rw [List.cons_append, List.cons_append, content, if_neg (by simp [hclose]),
      if_pos (beq_self_eq_true close), if_pos (beq_self_eq_true close), hs]
    rfl
  | @escaped c cs he _ ih =>
    obtain ⟨s, hs⟩ := ih
    refine ⟨unescape c :: s, ?_⟩
    rw [List.cons_append, List.cons_append, content, if_pos (by rw [he]; rfl), hs]
    rfl

theorem content_eq_none_iff (hclose : close ≠ '\\') : content e close cs = none ↔
    ∀ body behind, cs = body ++ close :: behind → Enclosed e close body →
      behind.head? = some close := by
  constructor
  · rintro hnone body behind rfl hbody
    by_contra hbehind
    obtain ⟨s, hs⟩ := exists_content hclose hbody hbehind
    rw [hnone] at hs
    cases hs
  · intro h
    refine Option.eq_none_iff_forall_ne_some.2 fun ⟨s, n⟩ hs => ?_
    obtain ⟨body, behind, hcs, hbody, hbehind, -⟩ := exists_of_content hs
    exact hbehind (h body behind hcs hbody)

end Content

/-! ## Block comments -/

theorem closesComment_iff {cs : List Char} : closesComment cs = true ↔ ['*', '/'] <:+: cs := by
  fun_induction closesComment cs with
  | case1 => simp
  | case2 c => simp [List.infix_cons_iff]
  | case3 c d cs ih =>
    have hmark : (c == '*' && d == '/') = true ↔ ['*', '/'] <+: c :: d :: cs := by
      simp [List.cons_prefix_cons, @eq_comm _ '*', @eq_comm _ '/']
    rw [Bool.or_eq_true, ih, hmark, @List.infix_cons_iff _ _ c]

/-- A comment with a closing mark ends with the first one. -/
theorem exists_of_closesComment {cs : List Char} (h : closesComment cs = true) :
    ∃ body behind, cs = body ++ '*' :: '/' :: behind ∧ closesComment body = false ∧
      commentSize cs = body.length + 2 := by
  fun_induction closesComment cs with
  | case1 => cases h
  | case2 c => cases h
  | case3 c d cs ih =>
    rw [commentSize]
    by_cases hmark : (c == '*' && d == '/') = true
    · rw [if_pos hmark]
      simp only [Bool.and_eq_true, beq_iff_eq] at hmark
      obtain ⟨rfl, rfl⟩ := hmark
      exact ⟨[], cs, rfl, rfl, rfl⟩
    · rw [Bool.eq_false_of_not_eq_true hmark, Bool.false_or] at h
      obtain ⟨body, behind, hcs, hbody, hsize⟩ := ih h
      refine ⟨c :: body, behind, by rw [hcs]; rfl, ?_, ?_⟩
      · cases body with
        | nil => rfl
        | cons b body =>
          obtain rfl := (List.cons.inj hcs).1
          rw [closesComment, hbody, Bool.or_false]
          exact Bool.eq_false_of_not_eq_true hmark
      · rw [if_neg hmark, hsize]
        rfl

/-! ## The end of a token -/

section Scan

variable {escapes e : Bool} {c mark close : Char} {cs : List Char} {t : Token} {n : Nat}

theorem Opens.close_ne (h : Opens escapes mark close e) : close ≠ '\\' := by
  cases h <;> decide

/-- The four opening marks start a token in quotes, whatever follows. -/
theorem Opens.exists_scanQuoted (h : Opens escapes mark close e) :
    ∃ token : String → Token, (∀ s, token s ≠ illegal) ∧
      ∀ cs, scan escapes mark cs = scanQuoted token e close cs := by
  cases h with
  | string => exact ⟨Token.string, fun _ => by rintro ⟨⟩, fun _ => rfl⟩
  | name => exact ⟨Token.quotedName, fun _ => by rintro ⟨⟩, fun _ => rfl⟩
  | backtick => exact ⟨Token.quotedName, fun _ => by rintro ⟨⟩, fun _ => rfl⟩
  | bracket => exact ⟨Token.quotedName, fun _ => by rintro ⟨⟩, fun _ => rfl⟩

theorem scan_comment (escapes : Bool) (cs : List Char) :
    scan escapes '/' ('*' :: cs) = (comment, 1 + commentSize cs) := rfl

/-- A literal or a comment that nothing closes goes on to the end of the text. -/
theorem eq_length_of_endless (h : Endless escapes (c :: cs)) (hs : scan escapes c cs = (t, n)) :
    n = cs.length ∧ (t = illegal ∨ t = comment) := by
  cases h with
  | literal ho hcs =>
    obtain ⟨token, -, hscan⟩ := ho.exists_scanQuoted
    rw [hscan, scanQuoted, (content_eq_none_iff ho.close_ne).2 hcs] at hs
    obtain ⟨rfl, rfl⟩ := Prod.mk.inj hs
    exact ⟨rfl, .inl rfl⟩
  | comment hcs =>
    rw [scan_comment, commentSize_of_not_closes
      (Bool.eq_false_of_not_eq_true (mt closesComment_iff.1 hcs)), Nat.add_comm] at hs
    obtain ⟨rfl, rfl⟩ := Prod.mk.inj hs
    exact ⟨rfl, .inr rfl⟩

/-- A literal or a comment that something closes ends with its closing mark. -/
theorem complete_of_scan (h : Marked escapes (c :: cs)) (hend : ¬Endless escapes (c :: cs))
    (hs : scan escapes c cs = (t, n)) : t ≠ illegal ∧ Complete escapes (c :: cs.take n) := by
  cases h with
  | literal ho =>
    obtain ⟨token, htoken, hscan⟩ := ho.exists_scanQuoted
    rw [hscan, scanQuoted] at hs
    split at hs
    · next s m hcontent =>
      obtain ⟨rfl, rfl⟩ := Prod.mk.inj hs
      obtain ⟨body, behind, rfl, hbody, -, rfl⟩ := exists_of_content hcontent
      refine ⟨htoken _, ?_⟩
      rw [List.take_length_add_append]
      exact .literal ho hbody
    · next hnone => exact absurd (.literal ho ((content_eq_none_iff ho.close_ne).1 hnone)) hend
  | comment cs =>
    have hcloses : closesComment cs = true := by
      by_contra hopen
      exact hend (.comment (mt closesComment_iff.2 hopen))
    obtain ⟨body, behind, rfl, hbody, hsize⟩ := exists_of_closesComment hcloses
    rw [scan_comment, hsize, Nat.add_comm] at hs
    obtain ⟨rfl, rfl⟩ := Prod.mk.inj hs
    refine ⟨by rintro ⟨⟩, ?_⟩
    rw [List.take_succ_cons, List.take_length_add_append]
    exact .comment (mt closesComment_iff.2 (by rw [hbody]; exact Bool.false_ne_true))

end Scan

end SqlFilter.Token
