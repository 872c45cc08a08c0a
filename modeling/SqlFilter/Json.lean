import SqlFilter.Decimal.Binary64

/-!
# JSON values

JSON values with integers of any size kept apart from floats, and access to the fields of records. A
record is an object or, in the order of its fields, an array.
-/

namespace SqlFilter

/-- A JSON value. The members of an object are kept in order. -/
inductive Json where
  | null
  | boolean (value : Bool)
  | integer (value : Int)
  | float (value : Binary64)
  | string (value : String)
  | array (items : List Json)
  | object (members : List (String × Json))

namespace Json

abbrev Fields := List (String × Json)

/-- The fields of a record with the given names, the optional ones last. -/
def fields? (required optional : List String) : Json → Option Fields
  | object ms => some ms
  | array js =>
    if required.length ≤ js.length ∧ js.length ≤ required.length + optional.length then
      some ((required ++ optional).zip js)
    else none
  | _ => none

theorem sizeOf_lt_of_fields? {required optional : List String} {j v : Json} {fs : Fields}
    {name : String} (h : j.fields? required optional = some fs) (hv : fs.lookup name = some v) :
    sizeOf v < sizeOf j := by
  have hmem : (name, v) ∈ fs := by
    obtain ⟨l₁, l₂, rfl, -⟩ := List.lookup_eq_some_iff.mp hv
    simp
  cases j <;> simp only [fields?, reduceCtorEq] at h
  case object ms =>
    obtain rfl := Option.some.inj h
    have := List.sizeOf_lt_of_mem hmem
    simp only [Prod.mk.sizeOf_spec, object.sizeOf_spec] at this ⊢
    omega
  case array js =>
    split at h
    · obtain rfl := Option.some.inj h
      have := List.sizeOf_lt_of_mem (List.of_mem_zip hmem).2
      simp only [array.sizeOf_spec]
      omega
    · simp at h

def string? : Json → Option String
  | string s => some s
  | _ => none

def boolean? : Json → Option Bool
  | boolean b => some b
  | _ => none

def items? {α : Type} (read : Json → Option α) : Json → Option (List α)
  | array js => js.mapM read
  | _ => none

/-- The unsigned integer that the value is, if it has 64 bits at most. -/
def uint64? : Json → Option UInt64
  | integer n =>
    let u := UInt64.ofNat n.toNat
    if u.toNat = n then some u else none
  | _ => none

/-- The name of one of several cases: a text, or an object whose only member has that name and is
null. -/
def caseName? : Json → Option String
  | string s => some s
  | object [(s, null)] => some s
  | _ => none

/-- The case among `all` with the name that the value is. -/
def case? {α : Type} (all : List α) (name : α → String) (j : Json) : Option α := do
  let s ← j.caseName?
  all.find? (name · = s)

/-- A case given inside a node of a filter, where an empty object may stand for the null. -/
def relaxed : Json → Json
  | object [(s, object [])] => object [(s, null)]
  | j => j

namespace Fields

def relaxed (fs : Fields) : Fields := fs.map fun (name, j) => (name, j.relaxed)

def required {α : Type} (fs : Fields) (name : String) (read : Json → Option α) : Option α :=
  (fs.lookup name).bind read

/-- A field that may be absent or null. -/
def optional {α : Type} (fs : Fields) (name : String) (read : Json → Option α) :
    Option (Option α) :=
  match fs.lookup name with
  | none => some none
  | some null => some none
  | some j => (read j).map some

def withDefault {α : Type} (fs : Fields) (name : String) (default : α) (read : Json → Option α) :
    Option α :=
  match fs.lookup name with
  | none => some default
  | some j => read j

/-- Whether no two fields among those named have the same name. -/
def distinct (names : List String) (fs : Fields) : Bool :=
  names.all fun name => ((fs.map Prod.fst).count name) ≤ 1

end Fields

end Json

end SqlFilter
