import SqlFilter.Json.Settings
import SqlFilter.Proofs.Tree.Kept

/-!
# What is written as JSON is read back

Filters, tables, references to tables, joins, conflicts, plans and settings are given back by their
JSON values as they were (`Json.lossless`). For filters this holds exactly if all floats in them are
finite, since JSON has no form for the others.
-/

namespace SqlFilter

namespace Json

/-! ## Reading records -/

/-- A record is read field by field. -/
theorem bind_of_eq {α β : Type} {x : Option α} {f : α → Option β} {a : α} {b : β}
    (hx : x = some a) (hf : f a = some b) : (x >>= f) = some b := by
  rw [hx]
  exact hf

section Items

variable {α : Type} {read : Json → Option α} {write : α → Json}

theorem mapM_map_iff {as : List α} :
    (as.map write).mapM read = some as ↔ ∀ a ∈ as, read (write a) = some a := by
  induction as with
  | nil => exact ⟨fun _ a ha => absurd ha List.not_mem_nil, fun _ => rfl⟩
  | cons a as ih =>
    rw [List.map_cons, List.mapM_cons, List.forall_mem_cons, ← ih]
    cases read (write a) <;> cases (as.map write).mapM read <;> simp

theorem items?_array {as : List α} (h : ∀ a ∈ as, read (write a) = some a) :
    items? read (.array (as.map write)) = some as :=
  mapM_map_iff.2 h

/-- A field that is there just if there is a value is read as that value just if the value is. -/
theorem Fields.optional_iff {fs : Fields} {name : String} {o : Option α}
    (hfs : fs.lookup name = o.map write) (hnull : read null = none) :
    fs.optional name read = some o ↔ ∀ a ∈ o, read (write a) = some a := by
  rw [optional, hfs]
  cases o with
  | none => simp
  | some a =>
    rw [Option.map_some]
    cases hj : write a with
    | null => simp [hj, hnull]
    | _ => simp [hj]

end Items

/-- A text or null is read as it was. -/
theorem Fields.optional_ofText {fs : Fields} {name : String} {o : Option String}
    (hfs : fs.lookup name = some (ofText o)) : fs.optional name string? = some o := by
  rw [optional, hfs]
  cases o <;> rfl

theorem uint64?_ofUInt64 (n : UInt64) : uint64? (Settings.ofUInt64 n) = some n := by
  have hn : UInt64.ofNat (n.toNat : Int).toNat = n := by
    rw [Int.toNat_natCast, UInt64.ofNat_toNat]
  rw [Settings.ofUInt64, uint64?]
  simp only [hn, if_true]

end Json

open Json

/-! ## Names of cases -/

theorem Operator.ofJson?_name (o : Operator) : ofJson? (.string o.name) = some o := by
  cases o <;> rfl

theorem Logic.ofJson?_name (k : Logic) : ofJson? (.string k.name) = some k := by
  cases k <;> rfl

theorem Placement.ofJson?_name (p : Placement) : ofJson? (.string p.name) = some p := by
  cases p <;> rfl

theorem Dialect.ofJson?_name (d : Dialect) : ofJson? (.string d.name) = some d := by
  cases d <;> rfl

theorem JoinKind.ofJson?_name (k : JoinKind) : ofJson? (.string k.name) = some k := by
  cases k <;> rfl

theorem Verdict.ofJson?_name (v : Verdict) : ofJson? (.string v.name) = some v := by
  cases v <;> rfl

theorem QueryShape.ofJson?_name (s : QueryShape) : ofJson? (.string s.name) = some s := by
  cases s <;> rfl

/-! ## Filters -/

/-- Whether the literal is no infinite float and no not-a-number. -/
def Literal.isFinite : Literal → Bool
  | float x => x.isFinite
  | _ => true

/-- Whether all floats of the operand are finite. -/
def Operand.isFinite : Operand → Bool
  | list vs => vs.all Literal.isFinite
  | single v => v.isFinite

/-- Whether all floats that the condition compares with are finite. -/
def Condition.isFinite (c : Condition) : Bool :=
  c.value.all Operand.isFinite && c.upper.all Literal.isFinite

/-- Whether all floats of a leaf are finite. -/
def Node.isFiniteLeaf : Node String → Bool
  | .condition _ c => c.isFinite
  | _ => true

/-- Whether all floats at and below the node are finite. -/
def Node.isFinite (n : Node String) : Bool := n.leafNodes.all Node.isFiniteLeaf

/-- Whether all floats below the root are finite. -/
def Tree.isFinite (t : Tree String) : Bool := t.leafNodes.all Node.isFiniteLeaf

/-- A literal is read with its variant. -/
theorem Literal.ofJson?_toJson_iff (l : Literal) :
    ofJson? l.toJson = some l ↔ l.isFinite = true := by
  cases l with
  | boolean b => exact ⟨fun _ => rfl, fun _ => rfl⟩
  | integer n => simp [toJson, ofJson?, ofInt, isFinite]
  | float x => by_cases hx : x.isFinite = true <;> simp [toJson, ofJson?, isFinite, hx]
  | string s => exact ⟨fun _ => rfl, fun _ => rfl⟩

/-- A list of literals is not read as a single one, nor the other way round. -/
theorem Operand.ofJson?_toJson_iff (v : Operand) :
    ofJson? v.toJson = some v ↔ v.isFinite = true := by
  cases v with
  | list vs =>
    simp only [toJson, ofJson?, isFinite, List.all_eq_true, ← Literal.ofJson?_toJson_iff,
      ← mapM_map_iff]
    cases (vs.map Literal.toJson).mapM Literal.ofJson? <;> simp
  | single l =>
    have hread : ofJson? (single l).toJson = (Literal.ofJson? l.toJson).map single := by
      cases l with
      | float x => by_cases hx : x.isFinite = true <;> simp [toJson, Literal.toJson, ofJson?, hx]
      | _ => rfl
    rw [hread, isFinite, ← Literal.ofJson?_toJson_iff]
    cases Literal.ofJson? l.toJson <;> simp

theorem Literal.relaxed_toJson (l : Literal) : l.toJson.relaxed = l.toJson := by
  cases l with
  | float x => by_cases hx : x.isFinite = true <;> simp [toJson, hx, relaxed]
  | _ => rfl

theorem Operand.relaxed_toJson (v : Operand) : v.toJson.relaxed = v.toJson := by
  cases v with
  | list vs => rfl
  | single l => exact l.relaxed_toJson

namespace Condition

variable (i : String) (c : Condition) (type : Json)

theorem relaxed_toFields : Fields.relaxed (c.toFields i) = c.toFields i := by
  have hvalue : ∀ v : Operand, relaxed v.toJson = v.toJson := Operand.relaxed_toJson
  have hupper : ∀ l : Literal, relaxed l.toJson = l.toJson := Literal.relaxed_toJson
  have htext : ∀ s, relaxed (.string s) = .string s := fun _ => rfl
  obtain ⟨table, column, op, value, upper, placement⟩ := c
  cases value <;> cases upper <;> simp [toFields, Fields.relaxed, hvalue, hupper, htext]

/-- What a condition is not compared with has no field. -/
theorem lookup_value :
    List.lookup "value" (("type", type) :: c.toFields i) = c.value.map Operand.toJson := by
  obtain ⟨table, column, op, value, upper, placement⟩ := c
  cases value <;> cases upper <;> rfl

theorem lookup_upper :
    List.lookup "value2" (("type", type) :: c.toFields i) = c.upper.map Literal.toJson := by
  obtain ⟨table, column, op, value, upper, placement⟩ := c
  cases value <;> cases upper <;> rfl

theorem lookup_placement : List.lookup "placement" (("type", type) :: c.toFields i) =
    some (.string c.placement.name) := by
  obtain ⟨table, column, op, value, upper, placement⟩ := c
  cases value <;> cases upper <;> rfl

/-- The fields of a condition, behind that for the type of a node, are read as the condition. -/
theorem ofFields?_toFields_iff :
    ofFields? (("type", type) :: c.toFields i) = some (i, c) ↔ c.isFinite = true := by
  obtain ⟨fs, hfs⟩ : ∃ fs : Fields, fs = ("type", type) :: c.toFields i := ⟨_, rfl⟩
  rw [← hfs]
  have hid : fs.required "id" string? = some i := by rw [hfs]; rfl
  have htable : fs.required "table" string? = some c.table := by rw [hfs]; rfl
  have hcolumn : fs.required "column" string? = some c.column := by rw [hfs]; rfl
  have hop : fs.required "operator" Operator.ofJson? = some c.operator := by
    rw [hfs]
    exact Operator.ofJson?_name c.operator
  have hplacement : fs.withDefault "placement" .atWhere Placement.ofJson? = some c.placement := by
    rw [Fields.withDefault, hfs, lookup_placement]
    exact Placement.ofJson?_name c.placement
  have hvalue : fs.optional "value" Operand.ofJson? = some c.value ↔
      c.value.all Operand.isFinite = true := by
    have hlookup := lookup_value i c type
    rw [← hfs] at hlookup
    rw [Fields.optional_iff hlookup rfl, Option.all_eq_true]
    simp only [Operand.ofJson?_toJson_iff, Option.mem_def]
  have hupper : fs.optional "value2" Literal.ofJson? = some c.upper ↔
      c.upper.all Literal.isFinite = true := by
    have hlookup := lookup_upper i c type
    rw [← hfs] at hlookup
    rw [Fields.optional_iff hlookup rfl, Option.all_eq_true]
    simp only [Literal.ofJson?_toJson_iff, Option.mem_def]
  rw [isFinite, Bool.and_eq_true, ← hvalue, ← hupper]
  simp only [ofFields?, hid, htable, hcolumn, hop, hplacement, Option.bind_eq_bind,
    Option.bind_some, Option.pure_def, Option.bind_eq_some_iff]
  constructor
  · rintro ⟨v, hv, u, hu, heq⟩
    have hc : ⟨c.table, c.column, c.operator, v, u, c.placement⟩ = c :=
      congrArg Prod.snd (Option.some.inj heq)
    exact ⟨hv.trans (congrArg (some ·.value) hc), hu.trans (congrArg (some ·.upper) hc)⟩
  · rintro ⟨hv, hu⟩
    exact ⟨_, hv, _, hu, rfl⟩

end Condition

namespace Node

theorem read?_condition (inNode : Bool) (i : String) (c : Condition) :
    read? inNode (Node.condition i c).toJson =
      (Condition.ofFields? (("type", .string "condition") :: c.toFields i)).map
        fun x => .condition x.1 x.2 := by
  have hfields : Fields.relaxed (("type", .string "condition") :: c.toFields i) =
      ("type", .string "condition") :: c.toFields i :=
    congrArg (_ :: ·) (c.relaxed_toFields i)
  rw [read?, ← hfields]
  rfl

theorem read?_group (inNode : Bool) (i : String) (k : Logic) (cs : List (Node String)) :
    read? inNode (Node.group i k cs).toJson =
      (readAll? true (allToJson cs)).map (.group i k) := by
  have hlogic : (Fields.relaxed [("type", .string "group"), ("id", .string i),
      ("logic", .string k.name), ("children", .array (allToJson cs))]).required "logic"
        Logic.ofJson? = some k := Logic.ofJson?_name k
  rw [read?]
  -- All fields are known by name, so that the reader comes to the three that make up the group.
  conv_lhs => whnf
  rw [hlogic]
  cases readAll? true (allToJson cs) <;> rfl

theorem read?_raw (inNode : Bool) (i s : String) :
    read? inNode (Node.raw i s).toJson = some (.raw i s) := by
  rw [read?]
  rfl

mutual

theorem read?_toJson_iff (inNode : Bool) : ∀ n : Node String,
    read? inNode n.toJson = some n ↔ n.isFinite = true
  | .condition i c => by
    rw [read?_condition, isFinite, leafNodes, List.all_cons, List.all_nil, Bool.and_true,
      isFiniteLeaf]
    constructor
    · intro h
      obtain ⟨x, hx, heq⟩ := Option.map_eq_some_iff.1 h
      obtain ⟨rfl, rfl⟩ := Node.condition.inj heq
      exact (Condition.ofFields?_toFields_iff _ _ _).1 hx
    · intro h
      rw [(Condition.ofFields?_toFields_iff _ _ _).2 h]
      rfl
  | .group i k cs => by
    rw [read?_group, isFinite, leafNodes, ← Node.readAll?_allToJson_iff true cs]
    cases readAll? true (allToJson cs) <;> simp
  | .raw i s => by
    rw [read?_raw]
    exact ⟨fun _ => rfl, fun _ => rfl⟩

/-- Nodes are read as they were just if all floats in them are finite. -/
theorem readAll?_allToJson_iff (inNode : Bool) : ∀ ns : List (Node String),
    readAll? inNode (allToJson ns) = some ns ↔ (allLeafNodes ns).all isFiniteLeaf = true
  | [] => by
    rw [allToJson, readAll?]
    exact ⟨fun _ => rfl, fun _ => rfl⟩
  | n :: ns => by
    rw [allLeafNodes, List.all_append, Bool.and_eq_true, ← isFinite,
      ← Node.read?_toJson_iff inNode n, ← Node.readAll?_allToJson_iff inNode ns, allToJson, readAll?]
    cases read? inNode n.toJson <;> cases readAll? inNode (allToJson ns) <;> simp

end

end Node

theorem Tree.ofJson?_toJson_iff (t : Tree String) :
    ofJson? t.toJson = some t ↔ t.isFinite = true := by
  obtain ⟨i, k, cs⟩ := t
  have hread : ofJson? (Tree.toJson ⟨i, k, cs⟩) =
      (Logic.ofJson? (.string k.name)).bind fun k =>
        (Node.readAll? false (Node.allToJson cs)).bind fun cs => some ⟨i, k, cs⟩ := rfl
  rw [hread, isFinite, leafNodes, ← Node.readAll?_allToJson_iff false, Logic.ofJson?_name]
  cases Node.readAll? false (Node.allToJson cs) <;> simp

/-! ## Tables and joins -/

theorem Column.ofJson?_toJson (c : Column) : ofJson? c.toJson = some c := rfl

theorem TableSource.ofJson?_toJson (s : TableSource) : ofJson? s.toJson = some s := by
  cases s <;> rfl

theorem Table.ofJson?_toJson (t : Table) : ofJson? t.toJson = some t := by
  obtain ⟨name, schema, source, columns⟩ := t
  have hcolumns : items? Column.ofJson? (.array (columns.map Column.toJson)) = some columns :=
    items?_array fun c _ => c.ofJson?_toJson
  cases schema
  all_goals
    refine bind_of_eq rfl (bind_of_eq rfl (bind_of_eq rfl ?_))
    exact bind_of_eq source.ofJson?_toJson (bind_of_eq hcolumns rfl)

theorem TableRef.ofJson?_toJson (r : TableRef) : ofJson? r.toJson = some r := by
  cases r with
  | ownTable n s => cases s <;> rfl
  | external n s a c => cases s <;> rfl

theorem JoinOperand.ofJson?_toJson (o : JoinOperand) : ofJson? o.toJson = some o := by
  cases o <;> rfl

theorem JoinCondition.ofJson?_toJson (c : JoinCondition) : ofJson? c.toJson = some c := by
  refine bind_of_eq rfl ?_
  refine bind_of_eq c.left.ofJson?_toJson ?_
  refine bind_of_eq (Operator.ofJson?_name c.operator) ?_
  exact bind_of_eq c.right.ofJson?_toJson rfl

theorem JoinSpec.ofJson?_toJson (s : JoinSpec) : ofJson? s.toJson = some s := by
  refine bind_of_eq rfl ?_
  refine bind_of_eq (JoinKind.ofJson?_name s.kind) ?_
  exact bind_of_eq (items?_array fun c _ => c.ofJson?_toJson) rfl

/-! ## Conflicts and plans -/

theorem ConflictKey.ofJson?_toJson (k : ConflictKey) : ofJson? k.toJson = some k := by
  cases k <;> rfl

theorem Resolution.ofJson?_toJson (r : Resolution) : ofJson? r.toJson = some r := by
  cases r <;> rfl

theorem Conflict.ofJson?_toJson (c : Conflict) : ofJson? c.toJson = some c := by
  refine bind_of_eq rfl ?_
  refine bind_of_eq c.key.ofJson?_toJson (bind_of_eq rfl (bind_of_eq rfl ?_))
  refine bind_of_eq (Verdict.ofJson?_name c.verdict) ?_
  refine bind_of_eq (Fields.optional_ofText (o := c.recommended) rfl) ?_
  exact bind_of_eq c.resolution.ofJson?_toJson rfl

theorem Attachment.ofJson?_toJson (a : Attachment) : ofJson? a.toJson = some a := rfl

theorem ExecutionSource.ofJson?_toJson (s : ExecutionSource) : ofJson? s.toJson = some s := by
  cases s with
  | ownEngine => rfl
  | federated attached =>
    exact bind_of_eq rfl (bind_of_eq (items?_array fun a _ => a.ofJson?_toJson) rfl)

theorem Plan.ofJson?_toJson (p : Plan) : ofJson? p.toJson = some p := by
  have hincomplete : items? string? (.array (p.incomplete.map .string)) = some p.incomplete :=
    items?_array fun _ _ => rfl
  refine bind_of_eq rfl (bind_of_eq rfl ?_)
  refine bind_of_eq (items?_array fun a _ => a.ofJson?_toJson) ?_
  refine bind_of_eq (items?_array fun c _ => c.ofJson?_toJson) ?_
  refine bind_of_eq p.source.ofJson?_toJson ?_
  refine bind_of_eq (QueryShape.ofJson?_name p.shape) ?_
  exact bind_of_eq hincomplete rfl

/-! ## Settings -/

theorem Settings.ofJson?_toJson (s : Settings) : ofJson? s.toJson = some s := by
  refine bind_of_eq rfl ?_
  refine bind_of_eq (Dialect.ofJson?_name s.dialect) ?_
  refine bind_of_eq (uint64?_ofUInt64 s.maxNestingDepth) ?_
  refine bind_of_eq (uint64?_ofUInt64 s.maxRows) ?_
  refine bind_of_eq (uint64?_ofUInt64 s.parseStepBudget) ?_
  exact bind_of_eq (uint64?_ofUInt64 s.parseTimeoutMs) rfl

/-! ## All of them -/

/-- **Nothing is lost** in JSON but floats that are not finite. Literals keep their variants, lists
stay apart from single values, and what is absent has no field and is absent when it is read. -/
theorem Json.lossless :
    (∀ t : Tree String, Tree.ofJson? t.toJson = some t ↔ t.isFinite = true) ∧
      (∀ n : Node String, Node.ofJson? n.toJson = some n ↔ n.isFinite = true) ∧
      (∀ l : Literal, Literal.ofJson? l.toJson = some l ↔ l.isFinite = true) ∧
      (∀ v : Operand, Operand.ofJson? v.toJson = some v ↔ v.isFinite = true) ∧
      (∀ (i : String) (c : Condition),
        (c.toFields i).lookup "value" = c.value.map Operand.toJson ∧
          (c.toFields i).lookup "value2" = c.upper.map Literal.toJson) ∧
      (∀ t : Table, Table.ofJson? t.toJson = some t) ∧
      (∀ r : TableRef, TableRef.ofJson? r.toJson = some r) ∧
      (∀ s : JoinSpec, JoinSpec.ofJson? s.toJson = some s) ∧
      (∀ c : Conflict, Conflict.ofJson? c.toJson = some c) ∧
      (∀ s : Settings, Settings.ofJson? s.toJson = some s) ∧
      ∀ p : Plan, Plan.ofJson? p.toJson = some p := by
  refine ⟨Tree.ofJson?_toJson_iff, Node.read?_toJson_iff false, Literal.ofJson?_toJson_iff,
    Operand.ofJson?_toJson_iff, fun i c => ⟨?_, ?_⟩, Table.ofJson?_toJson, TableRef.ofJson?_toJson,
    JoinSpec.ofJson?_toJson, Conflict.ofJson?_toJson, Settings.ofJson?_toJson, Plan.ofJson?_toJson⟩
  · exact c.lookup_value i .null
  · exact c.lookup_upper i .null

end SqlFilter
