import SqlFilter.Dialect
import SqlFilter.Tree.Reader

/-!
# Settings
-/

namespace SqlFilter

structure Settings where
  /-- The dialect of statements and of filter text. -/
  dialect : Dialect := .duckdb
  maxNestingDepth : UInt64 := 5
  maxRows : UInt64 := 1000
  parseStepBudget : UInt64 := 100000
  parseTimeoutMs : UInt64 := 50
  /-- Whether filters on a joined table move into a derived table where that keeps the result. -/
  pushDownJoinFilters : Bool := false
  deriving DecidableEq, Repr

/-- The limits of reading filter text. The time is over from the start if there is none; otherwise
it is taken to be enough. -/
def Settings.limits (s : Settings) : Limits :=
  { dialect := s.dialect
    maxDepth := s.maxNestingDepth.toNat
    stepBudget := s.parseStepBudget.toNat
    expired := s.parseTimeoutMs = 0 }

end SqlFilter
