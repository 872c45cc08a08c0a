/-!
# Quoted text

Inside quotes the closing mark stands for itself when it is written twice.
-/

namespace SqlFilter.Text

/-- The text with every occurrence of `mark` written twice. -/
def doubled (mark : Char) (cs : List Char) : List Char :=
  cs.flatMap fun c => if c = mark then [c, c] else [c]

@[simp] theorem doubled_nil (mark : Char) : doubled mark [] = [] := rfl

@[simp] theorem doubled_cons (mark c : Char) (cs : List Char) :
    doubled mark (c :: cs) = (if c = mark then [c, c] else [c]) ++ doubled mark cs := rfl

def quoted (mark : Char) (cs : List Char) : List Char := mark :: doubled mark cs ++ [mark]

theorem count_doubled (mark x : Char) (cs : List Char) :
    (doubled mark cs).count x = (if x = mark then 2 else 1) * cs.count x := by
  induction cs with
  | nil => simp
  | cons c cs ih =>
    rw [doubled_cons, List.count_append, ih, List.count_cons]
    by_cases h : c = mark <;> by_cases hx : x = mark <;> grind

end SqlFilter.Text
