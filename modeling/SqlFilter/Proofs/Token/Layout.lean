import SqlFilter.Proofs.Token.Numeral

/-!
# Text that is kept as it stands

Words that are not understood are kept as text, with one blank for each comment and the blanks
before it. The kept text is written with the same tokens as the words (`Word.exists_written`), as long
as the last of them is not a literal that is never closed.
-/

namespace SqlFilter

open Text Piece

/-! ## The ends of tokens -/

namespace Text

/-- The text ends with a character that is not blank. -/
def EndsSolid (cs : List Char) : Prop := ∃ ds c, cs = ds ++ [c] ∧ isBlank c = false

variable {as bs : List Char}

theorem EndsSolid.append (h : EndsSolid bs) : EndsSolid (as ++ bs) := by
  obtain ⟨ds, c, rfl, hc⟩ := h
  exact ⟨as ++ ds, c, (List.append_assoc _ _ _).symm, hc⟩

theorem endsSolid_singleton {c : Char} (hc : isBlank c = false) : EndsSolid [c] := ⟨[], c, rfl, hc⟩

theorem endsSolid_of_forall (hne : as ≠ []) (h : ∀ c ∈ as, isBlank c = false) : EndsSolid as :=
  ⟨as.dropLast, as.getLast hne, (List.dropLast_concat_getLast hne).symm,
    h _ (List.getLast_mem hne)⟩

theorem trimEnd_append (h : EndsSolid as) (bs : List Char) :
    trimEnd (as ++ bs) = as ++ trimEnd bs := by
  obtain ⟨ds, c, rfl, hc⟩ := h
  unfold trimEnd
  have hsplit : ∀ xs : List Char, (xs ++ (c :: ds.reverse)).dropWhile isBlank =
      xs.dropWhile isBlank ++ (c :: ds.reverse) := by
    intro xs
    induction xs with
    | nil =>
      rw [List.nil_append, List.dropWhile_cons_of_neg (by rw [hc]; exact Bool.false_ne_true)]
      rfl
    | cons x xs ih =>
      by_cases hx : isBlank x = true
      · rw [List.cons_append, List.dropWhile_cons_of_pos hx, List.dropWhile_cons_of_pos hx, ih]
      · rw [List.cons_append, List.dropWhile_cons_of_neg hx, List.dropWhile_cons_of_neg hx]
        rfl
  have := hsplit bs.reverse
  simp only [List.reverse_append, List.reverse_cons, List.reverse_nil, List.nil_append,
    List.singleton_append] at this ⊢
  rw [this]
  simp

theorem EndsSolid.trimEnd_eq (h : EndsSolid as) : trimEnd as = as := by
  have := trimEnd_append h []
  rw [List.append_nil] at this
  exact this.trans (List.append_nil as)

theorem trimEnd_of_blank (h : ∀ c ∈ as, isBlank c = true) : trimEnd as = [] := by
  unfold trimEnd
  have hnil : as.reverse.dropWhile isBlank = [] := by
    rw [← List.append_nil as.reverse]
    exact List.dropWhile_append_of_pos fun c hc => h c (List.mem_reverse.1 hc)
  rw [hnil]
  rfl

theorem exists_append_trimEnd (cs : List Char) :
    ∃ bs, cs = trimEnd cs ++ bs ∧ ∀ c ∈ bs, isBlank c = true := by
  refine ⟨(cs.reverse.takeWhile isBlank).reverse, ?_, fun c hc => ?_⟩
  · rw [trimEnd, ← List.reverse_append, List.takeWhile_append_dropWhile, List.reverse_reverse]
  · exact List.all_eq_true.1 List.all_takeWhile c (List.mem_reverse.1 hc)

theorem trimStart_of_blank (h : ∀ c ∈ as, isBlank c = true) (bs : List Char) :
    trimStart (as ++ bs) = trimStart bs := by
  induction as with
  | nil => rfl
  | cons c as ih =>
    obtain ⟨hc, has⟩ := List.forall_mem_cons.1 h
    exact (List.dropWhile_cons_of_pos hc).trans (ih has)

end Text

namespace Token

theorem isBlank_of_isNamePart {c : Char} (h : isNamePart c = true) : isBlank c = false := by
  by_contra hb
  rw [isNamePart_of_isBlank ((Bool.not_eq_false _).mp hb)] at h
  exact Bool.false_ne_true h

theorem AllDigits.endsSolid {ds : List Char} (h : AllDigits ds) : EndsSolid ds :=
  endsSolid_of_forall h.1 fun c hc => isBlank_of_isDigit (h.2 c hc)

/-- A numeral ends with a digit. -/
theorem endsSolid_of_isNumeral {cs : List Char} (h : IsNumeral cs) : EndsSolid cs := by
  obtain ⟨whole, part, power, hw, hf, he, rfl⟩ := h
  obtain rfl | ⟨e, sign, ds, -, -, hd, rfl⟩ := he
  · rw [List.append_nil]
    obtain rfl | ⟨ds, hd, rfl⟩ := hf
    · rw [List.append_nil]
      exact AllDigits.endsSolid hw
    · rw [← List.singleton_append]
      exact (AllDigits.endsSolid hd).append.append
  · rw [← List.cons_append]
    exact (AllDigits.endsSolid hd).append.append.append

/-- Content in quotes ends with the closing mark. -/
theorem exists_take_content {escapes : Bool} {close : Char} {cs s : List Char} {n : Nat}
    (h : content escapes close cs = some (s, n)) : ∃ ds, cs.take n = ds ++ [close] := by
  fun_induction content escapes close cs generalizing s n with
  | case1 => cases h
  | case2 c hc => cases h
  | case3 c hc =>
    obtain ⟨rfl, rfl⟩ := Prod.mk.inj (Option.some.inj h)
    have : c = close := by
      by_contra hne
      exact hc (by simp [bne_iff_ne.2 hne])
    exact ⟨[], by rw [this]; rfl⟩
  | case4 c d cs he ih =>
    obtain ⟨u, m, hu, rfl, rfl⟩ := eq_some_of_map_eq_some h
    obtain ⟨ds, hds⟩ := ih hu
    exact ⟨c :: d :: ds, by rw [List.take_succ_cons, List.take_succ_cons, hds]; rfl⟩
  | case5 c d cs he hc hd ih =>
    obtain ⟨u, m, hu, rfl, rfl⟩ := eq_some_of_map_eq_some h
    obtain ⟨ds, hds⟩ := ih hu
    exact ⟨c :: d :: ds, by rw [List.take_succ_cons, List.take_succ_cons, hds]; rfl⟩
  | case6 c d cs he hc hd =>
    obtain ⟨rfl, rfl⟩ := Prod.mk.inj (Option.some.inj h)
    exact ⟨[], by rw [beq_iff_eq.1 hc]; rfl⟩
  | case7 c d cs he hc ih =>
    obtain ⟨u, m, hu, rfl, rfl⟩ := eq_some_of_map_eq_some h
    obtain ⟨ds, hds⟩ := ih hu
    exact ⟨c :: ds, by rw [List.take_succ_cons, hds]; rfl⟩

theorem ite_of {α : Type} {P : α → Prop} {q : Prop} [Decidable q] {a b : α} (ha : q → P a)
    (hb : ¬q → P b) : P (if q then a else b) := by
  split_ifs with hq
  · exact ha hq
  · exact hb hq

/-- What the scan of a token may give: a single character, a comment, two characters, or what one of
the scans for quotes, numbers and names gives. -/
theorem scan_cases {P : Token × Nat → Prop} (escapes : Bool) (c : Char) (cs : List Char)
    (single : ∀ t, t ≠ comment → P (t, 0))
    (line : c = '-' → cs.head? = some '-' → P (comment, (cs.takeWhile (· ≠ '\n')).length))
    (block : c = '/' → cs.head? = some '*' → P (comment, 1 + commentSize cs.tail))
    (double : ∀ d t, isBlank d = false → cs.head? = some d → t ≠ comment → P (t, 1))
    (quoted : ∀ token e close, isOpen illegal c = true → isBlank close = false →
      (∀ s, token s ≠ comment) → P (scanQuoted token e close cs))
    (number : c.isDigit = true → P (scanNumber c cs)) (name : P (scanName c cs)) :
    P (scan escapes c cs) := by
  have second : ∀ {d : Char} {t : Token} {r : Token × Nat}, isBlank d = false → t ≠ comment →
      P r → P (if cs.head? = some d then (t, 1) else r) := by
    intro d t r hd ht hr
    split_ifs with hh
    · exact double d t hd hh ht
    · exact hr
  have mark : ∀ {token : String → Token} {e : Bool} {m close : Char}, c = m →
      isOpen illegal m = true → isBlank close = false → (∀ s, token s ≠ comment) →
      P (scanQuoted token e close cs) := by
    rintro token e m close rfl hm hclose htoken
    exact quoted token e close hm hclose htoken
  unfold scan scanPair
  refine ite_of (fun _ => single _ (by rintro ⟨⟩)) fun _ => ?_
  refine ite_of (fun _ => single _ (by rintro ⟨⟩)) fun _ => ?_
  refine ite_of (fun _ => single _ (by rintro ⟨⟩)) fun _ => ?_
  refine ite_of (fun _ => single _ (by rintro ⟨⟩)) fun _ => ?_
  refine ite_of (fun _ => single _ (by rintro ⟨⟩)) fun _ => ?_
  refine ite_of (fun hc => ite_of (line hc) fun _ => single _ (by rintro ⟨⟩)) fun _ => ?_
  refine ite_of (fun hc => ite_of (block hc) fun _ => single _ (by rintro ⟨⟩)) fun _ => ?_
  refine ite_of (fun _ => second (by decide) (by rintro ⟨⟩)
    (second (by decide) (by rintro ⟨⟩) (single _ (by rintro ⟨⟩)))) fun _ => ?_
  refine ite_of (fun _ => second (by decide) (by rintro ⟨⟩) (single _ (by rintro ⟨⟩)))
    fun _ => ?_
  refine ite_of (fun _ => second (by decide) (by rintro ⟨⟩) (single _ (by rintro ⟨⟩)))
    fun _ => ?_
  refine ite_of (fun hc => mark hc (by decide) (by decide) (by rintro _ ⟨⟩)) fun _ => ?_
  refine ite_of (fun hc => mark hc (by decide) (by decide) (by rintro _ ⟨⟩)) fun _ => ?_
  refine ite_of (fun hc => mark hc (by decide) (by decide) (by rintro _ ⟨⟩)) fun _ => ?_
  refine ite_of (fun hc => mark hc (by decide) (by decide) (by rintro _ ⟨⟩)) fun _ => ?_
  exact ite_of number fun _ => ite_of (fun _ => name) fun _ => single _ (by rintro ⟨⟩)

/-- A token ends with a character that is not blank, comments and open quotes excepted. -/
theorem endsSolid_of_scan {escapes : Bool} {c : Char} {cs : List Char} {t : Token} {n : Nat}
    (hc : isBlank c = false) (ht : t ≠ comment) (ho : isOpen t c = false)
    (h : scan escapes c cs = (t, n)) : EndsSolid (c :: cs.take n) := by
  refine scan_cases (P := fun r => r = (t, n) → EndsSolid (c :: cs.take n)) escapes c cs
    ?single ?line ?block ?double ?quoted ?number ?name h
  case single =>
    rintro u - hu
    obtain ⟨rfl, rfl⟩ := Prod.mk.inj hu
    exact endsSolid_singleton hc
  case line | block => exact fun _ _ hu => absurd (Prod.mk.inj hu).1.symm ht
  case double =>
    rintro d u hd hh - hu
    obtain ⟨rfl, rfl⟩ := Prod.mk.inj hu
    obtain ⟨es, rfl⟩ := List.head?_eq_some_iff.1 hh
    exact @EndsSolid.append [c] [d] (endsSolid_singleton hd)
  case quoted =>
    intro token e close hopen hclose _ hs
    unfold scanQuoted at hs
    split at hs
    · next s m hcontent =>
      obtain ⟨rfl, rfl⟩ := Prod.mk.inj hs
      obtain ⟨ds, hds⟩ := exists_take_content hcontent
      rw [hds, ← List.cons_append]
      exact (endsSolid_singleton hclose).append
    · obtain ⟨rfl, rfl⟩ := Prod.mk.inj hs
      exact absurd (ho.symm.trans hopen) Bool.false_ne_true
  case number =>
    intro hd hs
    unfold scanNumber at hs
    dsimp only at hs
    split at hs
    · obtain ⟨rfl, rfl⟩ := Prod.mk.inj hs
      exact endsSolid_of_isNumeral (isNumeral_take hd cs)
    · next m hm =>
      obtain ⟨rfl, rfl⟩ := Prod.mk.inj hs
      rw [List.take_add, take_length_takeWhile, ← List.cons_append]
      refine (endsSolid_of_forall (fun h0 => hm (by rw [h0]; rfl)) fun d hd => ?_).append
      exact isBlank_of_isNamePart (List.all_eq_true.1 List.all_takeWhile d hd)
  case name =>
    intro hs
    obtain ⟨rfl, rfl⟩ := Prod.mk.inj hs
    rw [take_length_takeWhile]
    refine endsSolid_of_forall (List.cons_ne_nil _ _) (List.forall_mem_cons.2 ⟨hc, fun d hd => ?_⟩)
    exact isBlank_of_isNamePart (List.all_eq_true.1 List.all_takeWhile d hd)

/-! ## The sizes of tokens -/

theorem content_le {escapes : Bool} {close : Char} {cs s : List Char} {n : Nat}
    (h : content escapes close cs = some (s, n)) : n ≤ cs.length := by
  fun_induction content escapes close cs generalizing s n with
  | case1 => cases h
  | case2 c hc => cases h
  | case3 c hc =>
    obtain ⟨rfl, rfl⟩ := Prod.mk.inj (Option.some.inj h)
    exact Nat.le_refl 1
  | case4 c d cs he ih =>
    obtain ⟨u, m, hu, rfl, rfl⟩ := eq_some_of_map_eq_some h
    have := ih hu
    simp only [List.length_cons]
    omega
  | case5 c d cs he hc hd ih =>
    obtain ⟨u, m, hu, rfl, rfl⟩ := eq_some_of_map_eq_some h
    have := ih hu
    simp only [List.length_cons]
    omega
  | case6 c d cs he hc hd =>
    obtain ⟨rfl, rfl⟩ := Prod.mk.inj (Option.some.inj h)
    exact Nat.succ_le_succ (Nat.zero_le _)
  | case7 c d cs he hc ih =>
    obtain ⟨u, m, hu, rfl, rfl⟩ := eq_some_of_map_eq_some h
    have := ih hu
    simp only [List.length_cons] at this ⊢
    omega

theorem commentSize_le (cs : List Char) : commentSize cs ≤ cs.length := by
  fun_induction commentSize cs with
  | case1 => exact Nat.le_refl 0
  | case2 c => exact Nat.le_refl 1
  | case3 c d cs hc =>
    simp only [List.length_cons]
    omega
  | case4 c d cs hc ih =>
    simp only [List.length_cons] at ih ⊢
    omega

theorem fractionSize_le (cs : List Char) : fractionSize cs ≤ cs.length := by
  unfold fractionSize
  split
  · next ds =>
    have := (List.takeWhile_prefix (l := ds) Char.isDigit).length_le
    simp only [List.length_cons]
    split <;> omega
  · exact Nat.zero_le _

theorem exponentSize_le (cs : List Char) : exponentSize cs ≤ cs.length := by
  cases cs with
  | nil => exact Nat.le_refl 0
  | cons e cs =>
    have hsign : signSize cs ≤ cs.length := by
      unfold signSize
      split
      · simp only [List.length_cons]
        split_ifs <;> omega
      · exact Nat.zero_le _
    have hdigits := (List.takeWhile_prefix (l := cs.drop (signSize cs)) Char.isDigit).length_le
    rw [List.length_drop] at hdigits
    rw [exponentSize_cons, signedDigits, List.length_cons]
    split_ifs
    · split
      · exact Nat.zero_le _
      · exact Nat.succ_le_succ (by omega)
    · exact Nat.zero_le _

theorem numeralSize_le (cs : List Char) : numeralSize cs ≤ cs.length := by
  have hwhole := (List.takeWhile_prefix (l := cs) Char.isDigit).length_le
  have hfraction := fractionSize_le (cs.drop (cs.takeWhile Char.isDigit).length)
  have hpower := exponentSize_le (cs.drop ((cs.takeWhile Char.isDigit).length +
    fractionSize (cs.drop (cs.takeWhile Char.isDigit).length)))
  rw [List.length_drop] at hfraction hpower
  unfold numeralSize
  dsimp only
  omega

theorem scanNumber_le (c : Char) (cs : List Char) : (scanNumber c cs).2 ≤ cs.length := by
  have hsize := numeralSize_le cs
  have hmore := (List.takeWhile_prefix (l := cs.drop (numeralSize cs)) isNamePart).length_le
  rw [List.length_drop] at hmore
  unfold scanNumber
  dsimp only
  split
  · exact hsize
  · omega

/-- A token ends where the text does, at the latest. -/
theorem scan_le {escapes : Bool} {c : Char} {cs : List Char} {t : Token} {n : Nat}
    (h : scan escapes c cs = (t, n)) : n ≤ cs.length := by
  have hle : (scan escapes c cs).2 ≤ cs.length := by
    refine scan_cases (P := fun r => r.2 ≤ cs.length) escapes c cs
      ?single ?line ?block ?double ?quoted ?number ?name
    case single => exact fun _ _ => Nat.zero_le _
    case line => exact fun _ _ => (List.takeWhile_prefix _).length_le
    case block =>
      intro _ hh
      obtain ⟨es, rfl⟩ := List.head?_eq_some_iff.1 hh
      have := commentSize_le es
      simp only [List.tail_cons, List.length_cons]
      omega
    case double =>
      intro d _ _ hh _
      obtain ⟨es, rfl⟩ := List.head?_eq_some_iff.1 hh
      exact Nat.succ_le_succ (Nat.zero_le _)
    case quoted =>
      intro token e close _ _ _
      unfold scanQuoted
      split
      · next s m hcontent => exact content_le hcontent
      · exact Nat.le_refl _
    case number => exact fun _ => scanNumber_le c cs
    case name => exact (List.takeWhile_prefix _).length_le
  rwa [h] at hle

end Token

/-! ## Pieces in their places -/

namespace Piece

/-- Each of the pieces is what the text is cut into at its place, `after` being the text behind
them. -/
def Lexed (escapes : Bool) (after : List Char) : List Piece → Prop
  | [] => True
  | blank cs :: ps => (∀ c ∈ cs, isBlank c = true) ∧ Lexed escapes after ps
  | token t cs :: ps =>
    (∃ c ds, cs = c :: ds ∧ isBlank c = false ∧
      Token.scan escapes c (ds ++ (ps.flatMap chars ++ after)) = (t, ds.length)) ∧
      Lexed escapes after ps

variable {escapes : Bool} {after : List Char}

theorem isBlank_of_mem_take {cs : List Char} {c : Char}
    (h : c ∈ cs.take (cs.takeWhile isBlank).length) : isBlank c = true := by
  rw [Token.take_length_takeWhile] at h
  exact List.all_eq_true.1 List.all_takeWhile c h

theorem lexed_ofText (cs : List Char) : Lexed escapes [] (ofText escapes cs) := by
  fun_induction ofText escapes cs with
  | case1 => trivial
  | case2 c cs hb n ih =>
    exact ⟨List.forall_mem_cons.2 ⟨hb, fun d hd => isBlank_of_mem_take hd⟩, ih⟩
  | case3 c cs hb t n hscan ih =>
    refine ⟨⟨c, cs.take n, rfl, (Bool.not_eq_true _).mp hb, ?_⟩, ih⟩
    rw [chars_ofText, List.append_nil, List.take_append_drop, hscan, List.length_take,
      Nat.min_eq_left (Token.scan_le hscan)]

theorem Lexed.left {ps qs : List Piece} (h : Lexed escapes after (ps ++ qs)) :
    Lexed escapes (qs.flatMap chars ++ after) ps := by
  induction ps with
  | nil => trivial
  | cons p ps ih =>
    cases p with
    | blank cs => exact ⟨h.1, ih h.2⟩
    | token t cs =>
      rw [List.cons_append, Lexed, List.flatMap_append, List.append_assoc] at h
      obtain ⟨⟨c, ds, hcs, hc, hs⟩, hps⟩ := h
      exact ⟨⟨c, ds, hcs, hc, hs⟩, ih hps⟩

theorem Lexed.right {ps qs : List Piece} (h : Lexed escapes after (ps ++ qs)) :
    Lexed escapes after qs := by
  induction ps with
  | nil => exact h
  | cons p ps ih =>
    cases p with
    | blank cs => exact ih h.2
    | token t cs => exact ih h.2

end Piece

theorem Piece.Solid.trimStart_eq {cs : List Char} (h : Solid cs) : trimStart cs = cs := by
  obtain ⟨c, ds, rfl, hc⟩ := h
  exact List.dropWhile_cons_of_neg (by rw [hc]; exact Bool.false_ne_true)

/-! ## Kept text -/

namespace Word

/-- The layout before a word: blanks and comments. -/
def IsLayout (gap : List Piece) : Prop :=
  ∀ p ∈ gap, (∃ cs, p = .blank cs ∧ ∀ c ∈ cs, isBlank c = true) ∨ ∃ cs, p = .token .comment cs

/-- The text that is kept of the parts between comments, with the blanks before the first one. -/
def keptParts : List (List Char) → List Char
  | [] => []
  | [last] => last
  | part :: parts => trimEnd part ++ ' ' :: joinParts parts

/-- The text that is kept of the pieces, with the blanks before the first token. -/
def kept (ps : List Piece) : List Char := keptParts (betweenComments ps)

theorem toList_source (ws : List Word) : (source ws).toList = kept (pieces ws) := by
  unfold source kept
  rw [String.toList_ofList]
  rcases betweenComments (pieces ws) with _ | ⟨part, _ | ⟨next, parts⟩⟩ <;> rfl

theorem betweenComments_ne_nil (ps : List Piece) : betweenComments ps ≠ [] := by
  cases ps with
  | nil => exact List.cons_ne_nil _ _
  | cons p ps =>
    unfold betweenComments
    split
    · exact List.cons_ne_nil _ _
    · split <;> exact List.cons_ne_nil _ _

/-- The text between comments, where it starts with a piece that is none. -/
theorem betweenComments_cons {p : Piece} (hp : p.isComment = false) {ps : List Piece}
    {part : List Char} {parts : List (List Char)} (h : betweenComments ps = part :: parts) :
    betweenComments (p :: ps) = (p.chars ++ part) :: parts := by
  rw [betweenComments, if_neg (by rw [hp]; exact Bool.false_ne_true), h]

theorem betweenComments_comment (cs : List Char) (ps : List Piece) :
    betweenComments (.token .comment cs :: ps) = [] :: betweenComments ps := rfl

theorem isComment_token {t : Token} (ht : t ≠ .comment) (cs : List Char) :
    (Piece.token t cs).isComment = false := by
  unfold Piece.isComment
  split
  · next h => exact absurd (Piece.token.inj h).1 ht
  · rfl

theorem keptParts_append {as : List Char} (part : List Char) {parts : List (List Char)}
    (h : parts ≠ [] → EndsSolid as) :
    keptParts ((as ++ part) :: parts) = as ++ keptParts (part :: parts) := by
  cases parts with
  | nil => rfl
  | cons next parts =>
    rw [keptParts, keptParts, trimEnd_append (h (List.cons_ne_nil _ _)), List.append_assoc]
    · exact List.cons_ne_nil _ _
    · exact List.cons_ne_nil _ _

/-- Layout is one part if there is no comment in it, and otherwise parts of blanks, the last of
which belongs to what is behind the layout. -/
theorem betweenComments_layout {gap : List Piece} (hgap : IsLayout gap) {ps : List Piece}
    {part : List Char} {parts : List (List Char)} (h : betweenComments ps = part :: parts) :
    ((∀ c ∈ gap.flatMap Piece.chars, isBlank c = true) ∧
        betweenComments (gap ++ ps) = (gap.flatMap Piece.chars ++ part) :: parts) ∨
      ∃ blanks last, blanks ≠ [] ∧ (∀ bs ∈ blanks, ∀ c ∈ bs, isBlank c = true) ∧
        (∀ c ∈ last, isBlank c = true) ∧
          betweenComments (gap ++ ps) = blanks ++ (last ++ part) :: parts := by
  induction gap with
  | nil => exact .inl ⟨List.forall_mem_nil _, h⟩
  | cons p gap ih =>
    obtain ⟨hp, htail⟩ := List.forall_mem_cons.1 hgap
    rcases hp with ⟨ds, rfl, hds⟩ | ⟨ds, rfl⟩
    · obtain ⟨hblank, hparts⟩ | ⟨blanks, last, hne, hblanks, hlast, hparts⟩ := ih htail
      · refine .inl ⟨?_, ?_⟩
        · rw [List.flatMap_cons]
          exact List.forall_mem_append.2 ⟨hds, hblank⟩
        · rw [List.cons_append, betweenComments_cons rfl hparts, List.flatMap_cons,
            List.append_assoc]
      · obtain ⟨bs, more, rfl⟩ := List.exists_cons_of_ne_nil hne
        obtain ⟨hbs, hmore⟩ := List.forall_mem_cons.1 hblanks
        refine .inr ⟨(ds ++ bs) :: more, last, List.cons_ne_nil _ _,
          List.forall_mem_cons.2 ⟨List.forall_mem_append.2 ⟨hds, hbs⟩, hmore⟩, hlast, ?_⟩
        rw [List.cons_append, betweenComments_cons rfl hparts]
        rfl
    · rw [List.cons_append, betweenComments_comment]
      obtain ⟨hblank, hparts⟩ | ⟨blanks, last, -, hblanks, hlast, hparts⟩ := ih htail
      · refine .inr ⟨[[]], gap.flatMap Piece.chars, List.cons_ne_nil _ _,
          List.forall_mem_singleton.2 (List.forall_mem_nil _), hblank, ?_⟩
        rw [hparts, List.singleton_append]
      · refine .inr ⟨[] :: blanks, last, List.cons_ne_nil _ _,
          List.forall_mem_cons.2 ⟨List.forall_mem_nil _, hblanks⟩, hlast, ?_⟩
        rw [hparts, List.cons_append]

/-- A part of blanks in front of others becomes one blank. -/
theorem joinParts_blanks {blanks : List (List Char)}
    (hblanks : ∀ bs ∈ blanks, ∀ c ∈ bs, isBlank c = true) {parts : List (List Char)}
    (hne : parts ≠ []) :
    joinParts (blanks ++ parts) = List.replicate blanks.length ' ' ++ joinParts parts := by
  induction blanks with
  | nil => rfl
  | cons bs blanks ih =>
    obtain ⟨hbs, hblanks⟩ := List.forall_mem_cons.1 hblanks
    rw [List.cons_append, joinParts, trimEnd_of_blank hbs, ih hblanks]
    · rfl
    · exact List.append_ne_nil_of_right_ne_nil blanks hne

theorem keptParts_eq_joinParts {part : List Char} {parts : List (List Char)} (h : parts ≠ []) :
    keptParts (part :: parts) = joinParts (part :: parts) := by
  obtain ⟨next, parts, rfl⟩ := List.exists_cons_of_ne_nil h
  rfl

section Gap

variable {t : Token} {cs : List Char} {ps : List Piece} (ht : t ≠ .comment)
  (hcs : ps ≠ [] → EndsSolid cs) (hs : Solid cs)

include ht in
theorem exists_betweenComments_token : ∃ part parts, betweenComments ps = part :: parts ∧
    betweenComments (.token t cs :: ps) = (cs ++ part) :: parts ∧ (parts ≠ [] → ps ≠ []) := by
  obtain ⟨part, parts, h⟩ := List.exists_cons_of_ne_nil (betweenComments_ne_nil ps)
  refine ⟨part, parts, h, betweenComments_cons (isComment_token ht cs) h, ?_⟩
  rintro hparts rfl
  exact hparts (List.cons.inj h).2.symm

include ht hcs in
theorem kept_token : kept (.token t cs :: ps) = cs ++ kept ps := by
  obtain ⟨part, parts, h, h', hne⟩ := @exists_betweenComments_token t cs ps ht
  rw [kept, kept, h', h, keptParts_append part fun hp => hcs (hne hp)]

include ht hcs in
/-- Blanks in front of a token are kept where no comment is before them. -/
theorem keptParts_token {bs part : List Char} {parts : List (List Char)}
    (h : betweenComments (.token t cs :: ps) = part :: parts) :
    keptParts ((bs ++ part) :: parts) = bs ++ kept (.token t cs :: ps) := by
  obtain ⟨part', parts', -, h', hne⟩ := @exists_betweenComments_token t cs ps ht
  obtain ⟨rfl, rfl⟩ := List.cons.inj (h.symm.trans h')
  rw [kept, h, ← List.append_assoc, keptParts_append part' fun hp => (hcs (hne hp)).append,
    keptParts_append part' fun hp => hcs (hne hp), List.append_assoc]

include ht hcs hs in
/-- Blanks behind a comment and in front of a token are kept if there are comments behind the
token, and are dropped otherwise. -/
theorem exists_joinParts {bs : List Char} (hbs : ∀ c ∈ bs, isBlank c = true) {part : List Char}
    {parts : List (List Char)} (h : betweenComments (.token t cs :: ps) = part :: parts) :
    ∃ bs', (∀ c ∈ bs', isBlank c = true) ∧
      joinParts ((bs ++ part) :: parts) = bs' ++ kept (.token t cs :: ps) := by
  cases parts with
  | nil =>
    refine ⟨[], List.forall_mem_nil _, ?_⟩
    obtain ⟨part', parts', -, h', -⟩ := @exists_betweenComments_token t cs ps ht
    obtain ⟨rfl, rfl⟩ := List.cons.inj (h.symm.trans h')
    rw [joinParts, trimStart_of_blank hbs, (hs.append _).trimStart_eq, kept, h']
    rfl
  | cons next parts =>
    refine ⟨bs, hbs, ?_⟩
    rw [← keptParts_eq_joinParts (List.cons_ne_nil _ _), keptParts_token ht hcs h]

include ht hcs hs in
/-- Layout in front of a token is kept as it is, or as blanks if there are comments in it. -/
theorem exists_kept {gap : List Piece} (hgap : IsLayout gap) :
    ∃ bs, (∀ c ∈ bs, isBlank c = true) ∧
      (bs = gap.flatMap Piece.chars ∨ ∃ ds, bs = ' ' :: ds) ∧
      kept (gap ++ .token t cs :: ps) = bs ++ kept (.token t cs :: ps) := by
  obtain ⟨part, parts, h⟩ :=
    List.exists_cons_of_ne_nil (betweenComments_ne_nil (.token t cs :: ps))
  obtain ⟨hblank, hparts⟩ | ⟨blanks, last, hne, hblanks, hlast, hparts⟩ :=
    betweenComments_layout hgap h
  · refine ⟨gap.flatMap Piece.chars, hblank, .inl rfl, ?_⟩
    rw [kept, hparts, keptParts_token ht hcs h]
  · obtain ⟨first, blanks, rfl⟩ := List.exists_cons_of_ne_nil hne
    obtain ⟨bs, hbs, hjoin⟩ := exists_joinParts ht hcs hs hlast h
    refine ⟨List.replicate (blanks.length + 1) ' ' ++ bs, ?_,
      .inr ⟨List.replicate blanks.length ' ' ++ bs, rfl⟩, ?_⟩
    · refine List.forall_mem_append.2 ⟨fun c hc => ?_, hbs⟩
      obtain rfl := List.eq_of_mem_replicate hc
      decide
    · rw [kept, hparts, List.cons_append,
        keptParts_eq_joinParts (List.append_ne_nil_of_right_ne_nil blanks (List.cons_ne_nil _ _)),
        ← List.cons_append, joinParts_blanks hblanks (List.cons_ne_nil _ _), hjoin,
        List.append_assoc]
      rfl

end Gap

end Word

end SqlFilter
