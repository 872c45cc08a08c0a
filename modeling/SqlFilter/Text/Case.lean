/-!
# Letter case

Lower and upper case of the ASCII letters; all other characters stay as they are.
-/

namespace SqlFilter.Text

/-- The text with its ASCII letters in lower case. -/
def lower (s : String) : String := String.ofList (s.toList.map Char.toLower)

/-- The text with its ASCII letters in upper case. -/
def upper (s : String) : String := String.ofList (s.toList.map Char.toUpper)

end SqlFilter.Text
