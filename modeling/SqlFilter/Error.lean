import SqlFilter.Condition

/-!
# Errors

The failures that are reported instead of a result. What can be recovered from is reported beside
the result: see `Warning` and `Conflict`.
-/

namespace SqlFilter

inductive Error where
  | nestingTooDeep (depth max : Nat)
  /-- An external table belongs to a connection that is not attached. -/
  | unknownConnection (table connection : String)
  | incompleteCondition (id : String) (flaw : Condition.Flaw)
  | noFullJoin
  deriving DecidableEq, Repr

def Error.message : Error → String
  | nestingTooDeep depth max =>
    "filter nesting depth " ++ toString depth ++ " exceeds the maximum of " ++ toString max
  | unknownConnection table connection =>
    "table '" ++ table ++ "' references connection '" ++ connection
      ++ "' which has no attach alias"
  | incompleteCondition id flaw => "condition " ++ id ++ " is incomplete: " ++ flaw.message
  | noFullJoin => "the dialect has no full join"

/-- The depth, if it is allowed. -/
def checkDepth (depth max : Nat) : Except Error Nat :=
  if max < depth then .error (.nestingTooDeep depth max) else .ok depth

end SqlFilter
