/-!
# Names not yet in use

A name that is in use already gets a number behind it, the least one from two on that makes a name
not in use. One candidate more than there are names in use is enough to look at.
-/

namespace SqlFilter

def numbered (base : String) (n : Nat) : String := base ++ "_" ++ toString n

/-- The first of the names with the numbers from `n` on that is not in use, looking at `fuel`
candidates before the last one. -/
def firstUnused (used : List String) (base : String) : (fuel n : Nat) → String
  | 0, n => numbered base n
  | fuel + 1, n =>
    if numbered base n ∈ used then firstUnused used base fuel (n + 1) else numbered base n

/-- The name if it is not in use, otherwise with the least number that makes it so. -/
def unusedName (used : List String) (base : String) : String :=
  if base ∈ used then firstUnused used base used.length 2 else base

end SqlFilter
