import SqlFilter.Proofs.Tree.Stable

/-!
# Comments of a text

Comments are dropped when a text is read. What is kept of consecutive words is lexed as their tokens
and nothing else (`Word.lexed_source`), and so no comment is left in the SQL of what is read, where
one that ends a line would take in what is written behind it (`Reading.uncommented`).

The SQL may end with a literal that is never closed. Its last token then takes in the parentheses
behind it, and the text in front of it is the same however many these are.
-/

namespace SqlFilter

open Text Piece Word

/-! ## Tokens of a text -/

/-- The tokens of a text, comments included. -/
def lexed (escapes : Bool) (text : String) : List Token := (lex escapes text).map Located.token

section Lexed

variable {escapes : Bool} {text : String}

theorem comment_notMem_locate {ps : List Piece} (h : ∀ p ∈ ps, p.isComment = false)
    (offset : Nat) : .comment ∉ (locate offset ps).map Located.token := by
  induction ps generalizing offset with
  | nil => exact List.not_mem_nil
  | cons p ps ih =>
    obtain ⟨hp, hps⟩ := List.forall_mem_cons.1 h
    cases p with
    | blank cs => exact ih hps _
    | token t cs =>
      rw [locate, List.map_cons, List.mem_cons, not_or]
      refine ⟨?_, ih hps _⟩
      rintro rfl
      cases hp

theorem filter_map_token_locate (offset : Nat) (ps : List Piece) :
    ((locate offset ps).map Located.token).filter (· ≠ .comment) = tokens ps := by
  induction ps generalizing offset with
  | nil => rfl
  | cons p ps ih =>
    cases p with
    | blank cs => exact ih _
    | token t cs =>
      rw [locate, List.map_cons, List.filter_cons, ih, tokens]
      by_cases ht : t = .comment <;> simp [ht]

theorem comment_notMem_lexed (h : ∀ p ∈ Piece.ofText escapes text.toList, p.isComment = false) :
    .comment ∉ lexed escapes text :=
  comment_notMem_locate h 0

/-- The words of a text are its tokens other than comments. -/
theorem filter_lexed (escapes : Bool) (text : String) :
    (lexed escapes text).filter (· ≠ .comment) = (Word.ofText escapes text).map Word.token := by
  rw [Word.ofText, map_token_ofPieces]
  exact filter_map_token_locate 0 _

theorem lexed_eq_of_notMem (h : .comment ∉ lexed escapes text) :
    lexed escapes text = (Word.ofText escapes text).map Word.token := by
  rw [← filter_lexed, List.filter_eq_self.2]
  intro t ht
  exact decide_eq_true fun hcomment => h (hcomment ▸ ht)

end Lexed

/-- What is kept of words is lexed as their tokens, and as nothing else. -/
theorem Word.lexed_source {escapes : Bool} {ws : List Word} (h : InText escapes ws) :
    .comment ∉ lexed escapes (source ws) ∧ lexed escapes (source ws) = ws.map token := by
  cases ws with
  | nil =>
    have hnone : Piece.ofText escapes (source []).toList = [] := by
      rw [source, String.toList_ofList]
      exact Piece.ofText.eq_1 escapes
    simp [lexed, lex, hnone, locate]
  | cons w ws =>
    obtain ⟨zs, hplain, htokens, hpieces⟩ := exists_ofText_source h (List.cons_ne_nil w ws)
    have hnone : .comment ∉ lexed escapes (source (w :: ws)) :=
      comment_notMem_lexed (hpieces ▸ isComment_of_plain hplain)
    refine ⟨hnone, ?_⟩
    rw [lexed_eq_of_notMem hnone, Word.ofText, hpieces, ofPieces_pieces [] hplain,
      map_token_behind, htokens]

/-! ## Text without comments -/

/-- However many parentheses are closed behind the text, there is no comment in it. -/
def Word.Uncommented (escapes : Bool) (cs : List Char) : Prop :=
  ∀ n, ∀ p ∈ Piece.ofText escapes (cs ++ List.replicate n ')'), p.isComment = false

namespace Word.Uncommented

variable {escapes : Bool} {as bs : List Char} {ws : List Word}

theorem comment_notMem {s : String} (h : Uncommented escapes s.toList) :
    .comment ∉ lexed escapes s := by
  have := h 0
  rw [List.replicate_zero, List.append_nil] at this
  exact comment_notMem_lexed this

theorem nil (escapes : Bool) : Uncommented escapes [] := by
  intro n
  rw [List.nil_append]
  induction n with
  | zero =>
    rw [List.replicate_zero, Piece.ofText]
    exact fun p hp => absurd hp List.not_mem_nil
  | succ n ih =>
    rw [List.replicate_succ, ofText_rightParen]
    exact List.forall_mem_cons.2 ⟨rfl, ih⟩

theorem of_written (h : Written escapes as ws) : Uncommented escapes as := by
  intro n
  rw [h.closed _ (delimited_replicate n)]
  exact List.forall_mem_append.2 ⟨isComment_of_plain h.plain, nil escapes n⟩

theorem space (ha : Written escapes as ws) (hb : Solid bs) (h : Uncommented escapes bs) :
    Uncommented escapes (as ++ ' ' :: bs) := by
  intro n
  rw [List.append_assoc, List.cons_append, ha.closed _ (delimited_cons.2 (by decide)),
    ofText_space (hb.append _).head]
  exact List.forall_mem_append.2
    ⟨isComment_of_plain ha.plain, List.forall_mem_cons.2 ⟨rfl, h n⟩⟩

theorem parenthesized {s : String} (h : Uncommented escapes s.toList) :
    Uncommented escapes (Printer.parenthesized s).toList := by
  intro n
  rw [Printer.toList_parenthesized, List.append_assoc, List.cons_append, ofText_leftParen,
    List.singleton_append, ← List.replicate_succ]
  exact List.forall_mem_cons.2 ⟨rfl, h (n + 1)⟩

end Word.Uncommented

theorem Word.carried_uncommented (escapes : Bool) :
    Carried escapes fun _ => Uncommented escapes :=
  ⟨.space, .parenthesized⟩

/-- Raw SQL has no comment, whether its last literal is closed or not. -/
theorem Word.uncommented_trim_source {escapes : Bool} {ws : List Word} {w : Word}
    (h : InText escapes (ws ++ [w])) :
    Uncommented escapes (Text.trim (source (ws ++ [w]))).toList := by
  cases hw : w.isOpen with
  | true =>
    obtain ⟨hu, ps, hps, htext⟩ := exists_ofText_trim h hw
    intro n
    rw [htext, hu.ofText_eq]
    exact List.forall_mem_append.2 ⟨hps, List.forall_mem_singleton.2 rfl⟩
  | false =>
    have hclosed : ∀ v ∈ ws ++ [w], v.isOpen = false :=
      List.forall_mem_append.2 ⟨h.isOpen_eq, List.forall_mem_singleton.2 hw⟩
    obtain ⟨zs, hzs, -⟩ := exists_written h (List.append_ne_nil_of_right_ne_nil ws
      (List.cons_ne_nil w [])) hclosed
    rw [hzs.trim_eq]
    exact .of_written hzs

/-! ## The SQL of a text -/

namespace Reading

variable {limits : Limits}

/-- What is read is parts that are kept, and at most one piece of raw SQL behind them that may end
with an open literal. -/
theorem exists_children {text : String} {r : Reading} (hr : ofText limits text = .ok r) :
    ∃ ns, (∀ n ∈ ns, n.RawsKept limits.dialect.backslashEscapes) ∧ (r.root.children = ns ∨
      ∃ ws w, InText limits.dialect.backslashEscapes (ws ++ [w]) ∧
        r.root.children = ns ++ [.raw () (source (ws ++ [w]))]) := by
  by_cases hclosed : ∀ w ∈ Word.ofText limits.dialect.backslashEscapes text, w.isOpen = false
  · cases hraw : r.node.isRaw with
    | false => exact ⟨_, rawsKept_of_understood hr hclosed hraw, .inl rfl⟩
    | true =>
      obtain ⟨hne, hroot⟩ := root_of_isRaw hr hraw
      obtain ⟨ws, w, hws⟩ : ∃ ws w, Word.ofText limits.dialect.backslashEscapes text = ws ++ [w] :=
        ⟨_, _, (List.dropLast_concat_getLast hne).symm⟩
      refine ⟨[], fun n hn => absurd hn List.not_mem_nil, .inr ⟨ws, w, ?_, ?_⟩⟩
      · exact hws ▸ inText_ofText _ text
      · rw [hroot, hws, List.nil_append]
  · obtain ⟨ws, w, hws, hw⟩ := exists_ofText_concat hclosed
    obtain ⟨k, ns, vs, hroot, hvs, hns⟩ := exists_root_of_isOpen hr hws hw
    exact ⟨ns, hns, .inr ⟨vs, w, hvs, by rw [hroot]⟩⟩

theorem uncommented_tree {t : Tree Unit}
    (h : ∀ n ∈ t.children, n.RawsKept limits.dialect.backslashEscapes) :
    Uncommented limits.dialect.backslashEscapes (limits.printer.tree t).toList := by
  by_cases hne : limits.printer.visible t.children = []
  · have htree : limits.printer.tree t = "" := by
      rw [Printer.tree, Printer.members_eq_map_visible, hne]
      rfl
    rw [htree, String.toList_empty]
    exact .nil _
  · obtain ⟨vs, hvs, -⟩ := exists_top_tree h hne
    exact .of_written hvs

/-- The SQL of what is read from a text has no comment, however deep groups may be nested in it. -/
theorem uncommented_sql {text : String} {r : Reading} (hr : ofText limits text = .ok r)
    (maxDepth : Nat) : Uncommented limits.dialect.backslashEscapes
      ((Printer.plain Unit limits.dialect maxDepth).tree r.root).toList := by
  obtain ⟨ns, hns, hchildren | ⟨ws, w, hin, hchildren⟩⟩ := exists_children hr
  · exact @uncommented_tree { limits with maxDepth } r.root (hchildren ▸ hns)
  · have hne := hin.trim_source_ne (List.append_ne_nil_of_right_ne_nil ws (List.cons_ne_nil w []))
    obtain ⟨_, hsql⟩ := (carried_uncommented _).exists_tree
      (Printer.plain Unit limits.dialect maxDepth) r.root.logic (Node.exists_written rfl hns) hne
      (uncommented_trim_source hin)
    rw [← hchildren] at hsql
    exact hsql

/-- **Comments** do not survive. What is kept of consecutive words of a text is lexed as their
tokens, in order and without a comment, and there is no comment in the SQL of what is read from the
text. -/
theorem uncommented (limits : Limits) (text : String) :
    let escapes := limits.dialect.backslashEscapes
    let tokens := (lexed escapes text).filter (· ≠ .comment)
    (∀ lo hi, let kept := source (((Word.ofText escapes text).take hi).drop lo)
      .comment ∉ lexed escapes kept ∧ lexed escapes kept = (tokens.take hi).drop lo) ∧
    ∀ maxDepth r sql, ofText limits text = .ok r →
      (Printer.plain Unit limits.dialect maxDepth).write r.root = .ok sql →
        .comment ∉ lexed escapes sql := by
  intro escapes tokens
  constructor
  · intro lo hi kept
    have hin : InText escapes (((Word.ofText escapes text).take hi).drop lo) := by
      have hall := inText_ofText escapes text
      rw [← List.take_append_drop hi (Word.ofText escapes text)] at hall
      have hleft := hall.left
      rw [← List.take_append_drop lo ((Word.ofText escapes text).take hi)] at hleft
      exact hleft.right
    have htokens : tokens = (Word.ofText escapes text).map Word.token := filter_lexed escapes text
    rw [htokens, ← List.map_take, ← List.map_drop]
    exact lexed_source hin
  · intro maxDepth r sql hr hsql
    obtain ⟨-, rfl⟩ := Printer.tree_of_write hsql
    exact (uncommented_sql hr maxDepth).comment_notMem

/-- Two comments are dropped in front of a literal that is left open. -/
theorem uncommented_open : ∃ r : Reading,
    ofText {} "a > 1 -- big\nAND foo(b) /* x */ > 'it" = .ok r ∧
      (Printer.plain Unit .duckdb 5).write r.root = .ok "(\"a\" > 1 AND (foo(b) > 'it))" ∧
      .comment ∈ lexed false "a > 1 -- big\nAND foo(b) /* x */ > 'it" ∧
      .comment ∉ lexed false "(\"a\" > 1 AND (foo(b) > 'it))" := by
  have hsql : (ofText {} "a > 1 -- big\nAND foo(b) /* x */ > 'it").map (fun r =>
      (Printer.plain Unit .duckdb 5).write r.root) =
        .ok (.ok "(\"a\" > 1 AND (foo(b) > 'it))") := by decide +kernel
  cases hr : ofText {} "a > 1 -- big\nAND foo(b) /* x */ > 'it" with
  | error e =>
    rw [hr] at hsql
    cases hsql
  | ok r =>
    rw [hr] at hsql
    have hsql := Except.ok.inj hsql
    exact ⟨r, rfl, hsql, by decide +kernel, (uncommented {} _).2 5 r _ hr hsql⟩

end Reading

end SqlFilter
