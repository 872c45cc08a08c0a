/-!
# Tokens

The tokens of filter text.
-/

namespace SqlFilter

/-- The words that are no identifiers, in any case. -/
inductive Keyword where
  | and
  | or
  | not
  | within
  | is
  | null
  | between
  | like
  | ilike
  | true
  | false
  deriving DecidableEq, Repr

def Keyword.spellings : List (String × Keyword) :=
  [("and", .and), ("or", .or), ("not", .not), ("in", .within), ("is", .is), ("null", .null),
    ("between", .between), ("like", .like), ("ilike", .ilike), ("true", .true), ("false", .false)]

/-- A token of filter text, with what it denotes. -/
inductive Token where
  | keyword (k : Keyword)
  | name (text : String)
  /-- An identifier in quotes, with the quoting removed. -/
  | quotedName (content : String)
  /-- A string literal, with the quoting and the escapes removed. -/
  | string (content : String)
  /-- A numeral without a sign. -/
  | number (text : String)
  | leftParen
  | rightParen
  | comma
  | dot
  | eq
  | ne
  | gt
  | lt
  | ge
  | le
  | minus
  /-- A comment up to the end of the line, or between its two marks. -/
  | comment
  /-- An unknown character, a malformed numeral or a literal that is never closed. -/
  | illegal
  deriving DecidableEq, Repr

def Token.identifier? : Token → Option String
  | name s => some s
  | quotedName s => some s
  | _ => none

end SqlFilter
