/-!
# Sizes of texts

The size of a text is the number of its bytes in UTF-8.
-/

namespace SqlFilter

def byteCount : List Char → Nat
  | [] => 0
  | c :: cs => c.utf8Size + byteCount cs

@[simp] theorem byteCount_append (cs ds : List Char) :
    byteCount (cs ++ ds) = byteCount cs + byteCount ds := by
  induction cs with
  | nil => simp [byteCount]
  | cons c cs ih => simp only [List.cons_append, byteCount, ih, Nat.add_assoc]

end SqlFilter
