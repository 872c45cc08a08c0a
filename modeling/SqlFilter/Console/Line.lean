import SqlFilter.Text.Cluster
import SqlFilter.Text.Size

/-!
# Lines of the console

The input is cut into lines, and of a line there is left what its backspaces do not take back. A
backspace takes back a cluster, by its size in bytes. Sizes are kept in one byte, so that of a
cluster of 256 bytes or more only the remainder goes.
-/

namespace SqlFilter.Console

/-- The lines of a text behind the start of a first line, last character first. What follows the
last end of a line is a line too, unless it is empty. -/
def linesFrom (line : List Char) : List Char → List String
  | [] => if line = [] then [] else [String.ofList line.reverse]
  | c :: cs =>
    if c = '\n' then String.ofList line.reverse :: linesFrom [] cs
    else linesFrom (c :: line) cs

def lines (text : String) : List String := linesFrom [] text.toList

/-- The text, last character first, without its last `n` bytes; `none` if they are a part of a
character or more than the text has. -/
def dropBytes? (n : Nat) : List Char → Option (List Char)
  | [] => if n = 0 then some [] else none
  | c :: cs =>
    if n = 0 then some (c :: cs)
    else if c.utf8Size ≤ n then dropBytes? (n - c.utf8Size) cs
    else none

theorem byteCount_of_dropBytes? {n : Nat} {cs ds : List Char} (h : dropBytes? n cs = some ds) :
    byteCount cs = n + byteCount ds := by
  fun_induction dropBytes? n cs with
  | case1 => simp_all
  | case2 => simp at h
  | case3 => simp_all
  | case4 n c cs _ _ ih =>
    have := ih h
    simp only [byteCount]
    omega
  | case5 => simp at h

def backspace : Char := Char.ofNat 8

structure Typed where
  /-- The text, last character first. -/
  chars : List Char
  /-- The sizes of what backspaces take back, last one first. -/
  sizes : List Nat
  deriving DecidableEq, Repr

/-- Types a cluster. A backspace with nothing before it does nothing; one that would cut a character
fails. -/
def Typed.press? (t : Typed) (cluster : List Char) : Option Typed :=
  if cluster = [backspace] then
    match t.sizes with
    | [] => some t
    | n :: sizes => (dropBytes? n t.chars).map fun cs => ⟨cs, sizes⟩
  else some ⟨cluster.reverse ++ t.chars, byteCount cluster % 256 :: t.sizes⟩

/-- What is left of a line once its backspaces are applied. -/
def typed? (line : String) : Option String :=
  ((Text.clusters line.toList).foldlM Typed.press? ⟨[], []⟩).map fun t =>
    String.ofList t.chars.reverse

end SqlFilter.Console
