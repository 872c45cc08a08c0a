import SqlFilter.Proofs.Lists
import SqlFilter.Proofs.Table.Naming
import SqlFilter.Table.Attach

/-!
# The aliases of attached databases

Each connection of the tables is attached once, where it first appears, under the first candidate
for its alias that is not yet in use (`Attachment.exists_eq_next`). All candidates are identifiers,
whatever the engine and the name of the connection are made of (`IsIdentifier.candidate`). So a table
finds its connection among the attached databases, and two tables have the same alias just if they
have the same connection (`Attachment.ofTables_sound`).

What is attached for some tables stays so when tables come behind them, since nothing behind a first
appearance matters to it (`Attachment.ofTables_stable`).
-/

namespace SqlFilter

/-! ## Identifiers -/

/-- The characters of an alias: lower-case letters, digits and underscores. -/
def IsAliasChar (c : Char) : Prop := c.isLower ∨ c.isDigit ∨ c = '_'

/-- An alias that needs no quotes: `[a-z][a-z0-9_]*`. -/
def IsIdentifier (s : String) : Prop :=
  ∃ c cs, s.toList = c :: cs ∧ c.isLower ∧ ∀ d ∈ cs, IsAliasChar d

theorem isAliasChar_of_isAlphanum {c : Char} (h : c.isAlphanum) : IsAliasChar c.toLower := by
  rcases Bool.or_eq_true_iff.1 h with ha | hd
  · left
    rwa [Char.isLower_toLower_eq_isAlpha]
  · have hupper : ¬ c.isUpper := by
      simp only [Char.isDigit, Char.isUpper, Bool.and_eq_true, decide_eq_true_eq,
        UInt32.le_iff_toNat_le, UInt32.reduceToNat, Char.reduceVal, ge_iff_le] at hd ⊢
      omega
    right; left
    rwa [Char.toLower_eq_of_not_isUpper hupper]

namespace Attachment

theorem isAliasChar_of_mem_aliasChars {c d : Char} (h : d ∈ aliasChars c) : IsAliasChar d := by
  unfold aliasChars at h
  split_ifs at h with halphanum
  · rw [List.mem_singleton.1 h]
    exact isAliasChar_of_isAlphanum halphanum
  · have : ∀ e ∈ ['i', '_'], IsAliasChar e := by simp [IsAliasChar]
    exact this d h
  · rw [List.mem_singleton.1 h]
    exact .inl rfl
  · rw [List.mem_singleton.1 h]
    exact .inr (.inr rfl)

theorem mem_of_mem_squeeze {cs : List Char} {d : Char} (h : d ∈ squeeze cs) : d ∈ cs := by
  fun_induction squeeze cs with
  | case1 cs ih => exact List.mem_cons_of_mem _ (ih h)
  | case2 c cs _ ih =>
    rcases List.mem_cons.1 h with rfl | h
    · exact List.mem_cons_self
    · exact List.mem_cons_of_mem _ (ih h)
  | case3 => exact h

theorem mem_of_mem_strip {cs : List Char} {d : Char} (h : d ∈ strip cs) : d ∈ cs := by
  have hinner := List.mem_reverse.1 ((List.dropWhile_sublist _).mem (List.mem_reverse.1 h))
  exact (List.dropWhile_sublist _).mem hinner

/-- The alias that a text suggests is an identifier, whatever characters the text has. -/
theorem isIdentifier_suggested (s : String) : IsIdentifier (suggested s) := by
  have hchars : ∀ d ∈ strip (squeeze (s.toList.flatMap aliasChars)), IsAliasChar d := by
    intro d hd
    obtain ⟨c, -, hc⟩ := List.mem_flatMap.1 (mem_of_mem_squeeze (mem_of_mem_strip hd))
    exact isAliasChar_of_mem_aliasChars hc
  unfold suggested
  split
  · exact ⟨'d', ['b'], rfl, rfl, by simp [IsAliasChar]⟩
  · next c cs heq =>
    rw [heq] at hchars
    split_ifs with hlower
    · exact ⟨c, cs, String.toList_ofList, hlower, (List.forall_mem_cons.1 hchars).2⟩
    · refine ⟨'d', 'b' :: '_' :: c :: cs, String.toList_ofList, rfl, ?_⟩
      exact List.forall_mem_cons.2 ⟨.inl rfl, List.forall_mem_cons.2 ⟨.inr (.inr rfl), hchars⟩⟩

end Attachment

theorem IsIdentifier.numbered {s : String} (h : IsIdentifier s) (n : Nat) :
    IsIdentifier (numbered s n) := by
  obtain ⟨c, cs, heq, hlower, hchars⟩ := h
  refine ⟨c, cs ++ '_' :: (toString n).toList, ?_, hlower, ?_⟩
  · simp only [SqlFilter.numbered, String.toList_append, heq, List.cons_append, List.append_assoc]
    rfl
  · intro d hd
    rcases List.mem_append.1 hd with hd | hd
    · exact hchars d hd
    · rcases List.mem_cons.1 hd with rfl | hd
      · exact .inr (.inr rfl)
      · rw [Nat.toString_eq_repr, Nat.toList_repr] at hd
        exact .inr (.inl (Nat.isDigit_of_mem_toDigits (by omega) (by omega) hd))

theorem IsIdentifier.candidate {s : String} (h : IsIdentifier s) (i : Nat) :
    IsIdentifier (candidate s i) := by
  rcases i with _ | i
  · exact h
  · exact h.numbered (i + 2)

namespace Attachment

/-! ## Attaching -/

/-- The connection as it is attached if these are attached before it. -/
def next (attached : List Attachment) (c : Connection) : Attachment :=
  ⟨unusedName (reserved ++ attached.map aliasName) (suggested (c.kind ++ "_" ++ c.name)), c.id,
    c.kind⟩

theorem aliasName_next (attached : List Attachment) (c : Connection) :
    (next attached c).aliasName = unusedName (reserved ++ attached.map aliasName)
      (suggested (c.kind ++ "_" ++ c.name)) := by
  simp only [next]

theorem attach_eq (attached : List Attachment) (c : Connection) :
    attach attached c =
      if c.id ∈ attached.map connection then attached else attached ++ [next attached c] := by
  have hiff : attached.any (·.connection = c.id) = true ↔ c.id ∈ attached.map connection := by
    simp
  unfold attach
  by_cases h : c.id ∈ attached.map connection
  · rw [if_pos h, if_pos (hiff.2 h)]
  · rw [if_neg h, if_neg (mt hiff.1 h)]
    rfl

theorem foldl_attach_concat (cs : List Connection) (c : Connection) :
    (cs ++ [c]).foldl attach [] = attach (cs.foldl attach []) c := by
  rw [List.foldl_append]
  rfl

/-- Each connection is attached where it first appears. -/
theorem map_connection_foldl (cs : List Connection) :
    (cs.foldl attach []).map connection = (cs.map Connection.id).eraseDups := by
  induction cs using List.reverseRecOn with
  | nil => rfl
  | append_singleton cs c ih =>
    have hmem : c.id ∈ (cs.foldl attach []).map connection ↔ c.id ∈ cs.map Connection.id := by
      rw [ih, List.mem_eraseDups]
    rw [foldl_attach_concat, attach_eq, List.map_append, List.map_singleton, eraseDups_concat]
    by_cases h : c.id ∈ cs.map Connection.id
    · rw [if_pos h, if_pos (hmem.2 h), ih]
    · rw [if_neg h, if_neg (mt hmem.1 h), List.map_append, ih]
      rfl

/-- What is attached is the first of the connections with its id, under an alias that is not in use
for those before it. -/
theorem exists_eq_next {cs : List Connection} {before behind : List Attachment} {a : Attachment}
    (h : cs.foldl attach [] = before ++ a :: behind) :
    ∃ c, cs.find? (·.id = a.connection) = some c ∧ a = next before c := by
  induction cs using List.reverseRecOn generalizing behind with
  | nil => exact absurd (congrArg List.length h) (by simp)
  | append_singleton cs c ih =>
    rw [foldl_attach_concat, attach_eq] at h
    split_ifs at h with hold
    · obtain ⟨d, hfind, heq⟩ := ih h
      exact ⟨d, by rw [List.find?_append, hfind, Option.some_or], heq⟩
    -- a connection with a new id is attached last: it is `a`, or `a` was there before
    · rcases List.eq_nil_or_concat behind with rfl | ⟨behind, b, rfl⟩
      · obtain ⟨rfl, hlast⟩ := List.append_inj' h (by simp only [List.length_singleton])
        obtain rfl : next _ c = a := List.head_eq_of_cons_eq hlast
        have hnone : cs.find? (·.id = c.id) = none := by
          rw [map_connection_foldl, List.mem_eraseDups] at hold
          refine List.find?_eq_none.2 ?_
          intro d hd hid
          have heq : d.id = c.id := by simpa using hid
          exact hold (List.mem_map.2 ⟨d, hd, heq⟩)
        refine ⟨c, ?_, rfl⟩
        show (cs ++ [c]).find? (·.id = c.id) = some c
        rw [List.find?_append, hnone, Option.none_or]
        simp only [List.find?_cons, decide_true]
      · rw [List.concat_eq_append, ← List.cons_append, ← List.append_assoc] at h
        have hinit := List.append_inj_left' h (by simp only [List.length_singleton])
        obtain ⟨d, hfind, heq⟩ := ih hinit
        exact ⟨d, by rw [List.find?_append, hfind, Option.some_or], heq⟩

/-- Aliases differ from each other and from the catalogs of the engine. -/
theorem nodup_aliases (cs : List Connection) :
    (reserved ++ (cs.foldl attach []).map aliasName).Nodup := by
  induction cs using List.reverseRecOn with
  | nil => decide
  | append_singleton cs c ih =>
    rw [foldl_attach_concat, attach_eq]
    split_ifs
    · exact ih
    · rw [List.map_append, List.map_singleton, aliasName_next, ← List.append_assoc]
      refine ih.append (List.nodup_singleton _) ?_
      exact List.disjoint_singleton.2 (unusedName_not_mem _ _)

theorem isIdentifier_aliasName {cs : List Connection} {a : Attachment}
    (ha : a ∈ cs.foldl attach []) : IsIdentifier a.aliasName := by
  obtain ⟨before, behind, heq⟩ := List.append_of_mem ha
  obtain ⟨c, -, rfl⟩ := exists_eq_next heq
  obtain ⟨i, -, hname, -⟩ := exists_unusedName_eq (reserved ++ before.map aliasName)
    (suggested (c.kind ++ "_" ++ c.name))
  rw [aliasName_next, hname]
  exact (isIdentifier_suggested _).candidate i

/-- The connections of all external tables are attached. -/
theorem exists_mem_ofTables {tables : List Table} {t : Table} {c : Connection} (ht : t ∈ tables)
    (hc : t.connection? = some c) : ∃ a ∈ ofTables tables, a.connection = c.id := by
  have hmem : c.id ∈ (ofTables tables).map connection := by
    unfold ofTables
    rw [map_connection_foldl, List.mem_eraseDups]
    exact List.mem_map_of_mem (List.mem_filterMap.2 ⟨t, ht, hc⟩)
  exact List.mem_map.1 hmem

end Attachment

/-! ## References -/

namespace TableRef

theorem ofTable_of_not_isExternal {t : Table} (h : t.isExternal = false)
    (attached : List Attachment) : ofTable attached t = .ok (ownTable t.name t.schema) := by
  have hsource : t.source = .ownEngine := by
    unfold Table.isExternal Table.connection? at h
    split at h
    · assumption
    · cases h
  unfold ofTable
  rw [hsource]

/-- A table of an attached connection is referred to by the alias of the connection. -/
theorem ofTable_of_mem {attached : List Attachment} (hnodup : (attached.map (·.connection)).Nodup)
    {a : Attachment} (ha : a ∈ attached) {t : Table} {c : Connection} (hc : t.connection? = some c)
    (hid : a.connection = c.id) :
    ofTable attached t = .ok (external t.name t.schema a.aliasName c.id) := by
  have hsource : t.source = .external c := by
    unfold Table.connection? at hc
    split at hc
    · exact absurd hc nofun
    · next d hs => rw [hs, Option.some.inj hc]
  have hfind : attached.find? (·.connection = c.id) = some a := by
    cases hb : attached.find? (·.connection = c.id) with
    | none => exact absurd hid (by simpa using List.find?_eq_none.1 hb a ha)
    | some b =>
      have hbid : b.connection = c.id := by simpa using List.find?_some hb
      rw [List.inj_on_of_nodup_map hnodup (List.mem_of_find?_eq_some hb) ha (hbid.trans hid.symm)]
  unfold ofTable
  rw [hsource]
  simp only [hfind]

end TableRef

namespace Attachment

theorem nodup_connections (tables : List Table) : ((ofTables tables).map connection).Nodup := by
  unfold ofTables
  rw [map_connection_foldl]
  exact nodup_eraseDups _

/-- An external table of a query is referred to by the alias of its connection. -/
theorem exists_ofTable_eq {tables : List Table} {t : Table} {c : Connection} (ht : t ∈ tables)
    (hc : t.connection? = some c) : ∃ a ∈ ofTables tables, a.connection = c.id ∧
      TableRef.ofTable (ofTables tables) t = .ok (.external t.name t.schema a.aliasName c.id) := by
  obtain ⟨a, ha, hid⟩ := exists_mem_ofTables ht hc
  exact ⟨a, ha, hid, TableRef.ofTable_of_mem (nodup_connections tables) ha hc hid⟩

end Attachment

/-- All tables of a query can be referred to. -/
theorem TableRef.exists_ofTable {tables : List Table} {t : Table} (ht : t ∈ tables) :
    ∃ r, ofTable (Attachment.ofTables tables) t = .ok r := by
  cases hs : t.source with
  | ownEngine =>
    unfold ofTable
    rw [hs]
    exact ⟨_, rfl⟩
  | external c =>
    have hc : t.connection? = some c := by
      unfold Table.connection?
      rw [hs]
    obtain ⟨a, -, -, hok⟩ := Attachment.exists_ofTable_eq ht hc
    exact ⟨_, hok⟩

namespace Attachment

/-- **The attached databases** are the connections of the tables, each with the engine that it first
appears with. The alias of each is the first candidate that is not in use, no more than one more
than there are names in use are looked at, and what is found is an identifier of its own. All tables
find their connection, and they have the same alias just if they have the same connection. -/
theorem ofTables_sound (tables : List Table) :
    let connections := tables.filterMap Table.connection?
    let attached := ofTables tables
    attached.map connection = (connections.map Connection.id).eraseDups ∧
      (∀ before a behind, attached = before ++ a :: behind →
        ∃ c, connections.find? (·.id = a.connection) = some c ∧ a.kind = c.kind ∧
          let base := suggested (c.kind ++ "_" ++ c.name)
          let used := ["main", "memory", "system", "temp"] ++ before.map aliasName
          ∃ i ≤ used.length, a.aliasName = candidate base i ∧ candidate base i ∉ used ∧
            ∀ j < i, candidate base j ∈ used) ∧
      (attached.map aliasName).Nodup ∧
      (∀ a ∈ attached, a.aliasName ∉ ["main", "memory", "system", "temp"] ∧
        IsIdentifier a.aliasName) ∧
      (∀ t ∈ tables, ∃ r, TableRef.ofTable attached t = .ok r) ∧
      ∀ t ∈ tables, ∀ u ∈ tables, ∀ c d, t.connection? = some c → u.connection? = some d →
        ∃ a b, TableRef.ofTable attached t = .ok (.external t.name t.schema a c.id) ∧
          TableRef.ofTable attached u = .ok (.external u.name u.schema b d.id) ∧
          (a = b ↔ c.id = d.id) := by
  intro connections attached
  have hnodup := nodup_aliases connections
  have haliases : (attached.map aliasName).Nodup := hnodup.of_append_right
  refine ⟨map_connection_foldl connections, ?_, haliases, ?_, ?_, ?_⟩
  · intro before a behind heq
    obtain ⟨c, hfind, hnext⟩ := exists_eq_next heq
    have hkind : a.kind = c.kind := by
      rw [hnext]
      unfold next
      rfl
    refine ⟨c, hfind, hkind, ?_⟩
    intro base used
    rw [hnext, aliasName_next]
    exact exists_unusedName_eq used base
  · intro a ha
    refine ⟨?_, isIdentifier_aliasName ha⟩
    intro hreserved
    exact List.disjoint_of_nodup_append hnodup hreserved (List.mem_map_of_mem ha)
  · intro t ht
    exact TableRef.exists_ofTable ht
  · intro t ht u hu c d hc hd
    obtain ⟨a, ha, haid, hta⟩ := exists_ofTable_eq ht hc
    obtain ⟨b, hb, hbid, hub⟩ := exists_ofTable_eq hu hd
    refine ⟨a.aliasName, b.aliasName, hta, hub, ?_⟩
    rw [← haid, ← hbid]
    constructor
    · intro halias
      rw [List.inj_on_of_nodup_map haliases ha hb halias]
    · intro hid
      rw [List.inj_on_of_nodup_map (nodup_connections tables) ha hb hid]

theorem ofTables_sound_collision :
    let t : Table := ⟨"t", none, .external ⟨"x", "", "main"⟩, []⟩
    let u : Table := ⟨"u", none, .external ⟨"y", "2", "MAIN"⟩, []⟩
    (ofTables [t, u]).map aliasName = ["main_2", "main_2_2"] ∧
      ∃ a b, TableRef.ofTable (ofTables [t, u]) t = .ok (.external "t" none a "x") ∧
        TableRef.ofTable (ofTables [t, u]) u = .ok (.external "u" none b "y") ∧ a ≠ b := by
  intro t u
  refine ⟨by decide +kernel, ?_⟩
  obtain ⟨-, -, -, -, -, hrefs⟩ := ofTables_sound [t, u]
  obtain ⟨a, b, hta, hub, hiff⟩ := hrefs t (by simp) u (by simp) _ _ rfl rfl
  exact ⟨a, b, hta, hub, fun hab => absurd (hiff.1 hab) (by decide)⟩

/-! ## Lists of tables that are edited -/

theorem prefix_attach (attached : List Attachment) (c : Connection) :
    attached <+: attach attached c := by
  rw [attach_eq]
  split_ifs
  · exact List.prefix_refl _
  · exact List.prefix_append _ _

/-- The tables behind others find the databases of those attached already. -/
theorem ofTables_append (s t : List Table) :
    ofTables (s ++ t) = (t.filterMap Table.connection?).foldl attach (ofTables s) := by
  unfold ofTables
  rw [List.filterMap_append, List.foldl_append]

theorem prefix_ofTables (s t : List Table) : ofTables s <+: ofTables (s ++ t) := by
  rw [ofTables_append]
  exact prefix_foldl prefix_attach _ _

theorem mem_connections_iff {tables : List Table} {id : String} :
    id ∈ (ofTables tables).map connection ↔
      ∃ t ∈ tables, ∃ c, t.connection? = some c ∧ c.id = id := by
  unfold ofTables
  rw [map_connection_foldl, List.mem_eraseDups]
  simp only [List.mem_map, List.mem_filterMap]
  constructor
  · rintro ⟨c, ⟨t, ht, hc⟩, hid⟩
    exact ⟨t, ht, c, hc, hid⟩
  · rintro ⟨t, ht, c, hc, hid⟩
    exact ⟨c, ⟨t, ht, hc⟩, hid⟩

theorem ofTables_concat_of_connection {s : List Table} {u : Table} {c : Connection}
    (hc : u.connection? = some c) : ofTables (s ++ [u]) = attach (ofTables s) c := by
  rw [ofTables_append, List.filterMap_cons_some hc]
  rfl

/-- What is attached for the tables behind it does not depend on a table that attaches nothing. -/
theorem ofTables_insert {s : List Table} {u : Table} (h : ofTables (s ++ [u]) = ofTables s)
    (t : List Table) : ofTables (s ++ u :: t) = ofTables (s ++ t) := by
  rw [List.append_cons, ofTables_append, h, ← ofTables_append]

/-- A table is referred to in the same way when more tables come behind. -/
theorem ofTable_append {s : List Table} {u : Table} (hu : u ∈ s) (t : List Table) :
    TableRef.ofTable (ofTables (s ++ t)) u = TableRef.ofTable (ofTables s) u := by
  cases hc : u.connection? with
  | none =>
    have hown : u.isExternal = false := by rw [Table.isExternal, hc, Option.isSome_none]
    rw [TableRef.ofTable_of_not_isExternal hown, TableRef.ofTable_of_not_isExternal hown]
  | some c =>
    obtain ⟨a, ha, hid, href⟩ := exists_ofTable_eq hu hc
    have ha' : a ∈ ofTables (s ++ t) := (prefix_ofTables s t).subset ha
    rw [href, TableRef.ofTable_of_mem (nodup_connections (s ++ t)) ha' hc hid]

/-- **More tables** leave what is attached for those before them as it is, and so the references to
them. A table of the engine, and one of a connection that a table before it has, change nothing
wherever they stand. A table of a new connection has that attached behind the others. -/
theorem ofTables_stable (s t : List Table) :
    ofTables s <+: ofTables (s ++ t) ∧
      (∀ u ∈ s, TableRef.ofTable (ofTables (s ++ t)) u = TableRef.ofTable (ofTables s) u) ∧
      (∀ u, u.isExternal = false → ofTables (s ++ u :: t) = ofTables (s ++ t)) ∧
      ∀ u c, u.connection? = some c →
        ((∃ v ∈ s, ∃ d, v.connection? = some d ∧ d.id = c.id) →
          ofTables (s ++ u :: t) = ofTables (s ++ t)) ∧
        ((∀ v ∈ s, ∀ d, v.connection? = some d → d.id ≠ c.id) →
          ∃ a, a.connection = c.id ∧ ofTables (s ++ [u]) = ofTables s ++ [a]) := by
  refine ⟨prefix_ofTables s t, fun u hu => ofTable_append hu t, ?_, ?_⟩
  · intro u hu
    have hnone : u.connection? = none := by
      rwa [Table.isExternal, Option.isSome_eq_false_iff, Option.isNone_iff_eq_none] at hu
    refine ofTables_insert ?_ t
    rw [ofTables_append, List.filterMap_cons_none hnone]
    rfl
  · intro u c hc
    constructor
    · intro hold
      refine ofTables_insert ?_ t
      rw [ofTables_concat_of_connection hc, attach_eq, if_pos (mem_connections_iff.2 hold)]
    · intro hnew
      have hfree : c.id ∉ (ofTables s).map connection := by
        rw [mem_connections_iff]
        rintro ⟨v, hv, d, hd, hid⟩
        exact hnew v hv d hd hid
      refine ⟨next (ofTables s) c, rfl, ?_⟩
      rw [ofTables_concat_of_connection hc, attach_eq, if_neg hfree]

theorem ofTables_stable_again :
    let table (name : String) (source : TableSource) : Table := ⟨name, none, source, []⟩
    let first := table "a" (.external ⟨"x", "sales", "mysql"⟩)
    let second := table "b" (.external ⟨"y", "Sales", "MySQL"⟩)
    let own := table "c" .ownEngine
    let again := table "d" (.external ⟨"x", "stock", "sqlite"⟩)
    (ofTables ([first] ++ own :: [second])).map aliasName = ["mysql_sales", "mysql_sales_2"] ∧
      (ofTables ([first] ++ again :: [second])).map aliasName =
        ["mysql_sales", "mysql_sales_2"] ∧
      TableRef.ofTable (ofTables ([first] ++ [second])) first =
        .ok (.external "a" none "mysql_sales" "x") ∧
      ∃ a, a.connection = "y" ∧ ofTables ([first] ++ [second]) = ofTables [first] ++ [a] := by
  intro table first second own again
  have haliases : (ofTables ([first] ++ [second])).map aliasName =
      ["mysql_sales", "mysql_sales_2"] := by decide +kernel
  obtain ⟨-, href, hown, hconnection⟩ := ofTables_stable [first] [second]
  have hagain : ofTables ([first] ++ again :: [second]) = ofTables ([first] ++ [second]) :=
    (hconnection again _ rfl).1 ⟨first, List.mem_singleton_self first, _, rfl, rfl⟩
  refine ⟨?_, ?_, ?_, ?_⟩
  · rw [hown own rfl, haliases]
  · rw [hagain, haliases]
  · rw [href first (List.mem_singleton_self first)]
    decide +kernel
  · refine (hconnection second _ rfl).2 ?_
    intro v hv d hd
    obtain rfl := List.mem_singleton.1 hv
    obtain rfl : ⟨"x", "sales", "mysql"⟩ = d := Option.some.inj hd
    decide

end Attachment

end SqlFilter
