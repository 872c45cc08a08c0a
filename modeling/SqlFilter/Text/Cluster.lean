import SqlFilter.Text.Conjunct
import SqlFilter.Text.Mark
import SqlFilter.Text.Pictograph

/-!
# Clusters

What a reader takes for one character may be several: a letter with its accents, a syllable, a
flag, a family. A text is cut into such clusters, the extended grapheme clusters of Unicode, and
nothing of it is lost (`flatten_clusters`). Whether there is a boundary before a character depends
on its class and on the classes of the characters that the cluster before it has.
-/

namespace SqlFilter.Text

/-- What a character is for the boundaries between clusters. -/
inductive BreakClass where
  | carriageReturn
  | lineFeed
  | control
  | extender
  /-- An extender that links consonants. -/
  | linker
  /-- The extender that keeps consonants apart. -/
  | nonJoiner
  | joiner
  | spacingMark
  /-- A sign that goes with the character behind it. -/
  | prepended
  /-- Half of a flag. -/
  | regional
  /-- A consonant at the start of a Hangul syllable. -/
  | leading
  | vowel
  /-- A consonant at the end of a Hangul syllable. -/
  | trailing
  /-- A Hangul syllable that ends with a vowel. -/
  | openSyllable
  /-- A Hangul syllable that ends with a consonant. -/
  | closedSyllable
  | pictograph
  | consonant
  | other
  deriving DecidableEq, Repr

/-- The controls, the ends of lines among them. -/
def controlRanges : List (Nat × Nat) :=
  [
    (0x0, 0x1F), (0x7F, 0x9F), (0xAD, 0xAD), (0x61C, 0x61C), (0x180E, 0x180E), (0x200B, 0x200B),
    (0x200E, 0x200F), (0x2028, 0x202E), (0x2060, 0x206F), (0xFEFF, 0xFEFF), (0xFFF0, 0xFFFB),
    (0x13430, 0x1343F), (0x1BCA0, 0x1BCA3), (0x1D173, 0x1D17A), (0xE0000, 0xE001F),
    (0xE0080, 0xE00FF), (0xE01F0, 0xE0FFF)
  ]

def prependedRanges : List (Nat × Nat) :=
  [
    (0x600, 0x605), (0x6DD, 0x6DD), (0x70F, 0x70F), (0x890, 0x891), (0x8E2, 0x8E2), (0xD4E, 0xD4E),
    (0x110BD, 0x110BD), (0x110CD, 0x110CD), (0x111C2, 0x111C3), (0x113D1, 0x113D1),
    (0x1193F, 0x1193F), (0x11941, 0x11941), (0x11A84, 0x11A89), (0x11D46, 0x11D46),
    (0x11F02, 0x11F02)
  ]

def leadingRanges : List (Nat × Nat) := [(0x1100, 0x115F), (0xA960, 0xA97C)]

/-- The vowels of Hangul syllables, and those of Kirat Rai that join in the same way. -/
def vowelRanges : List (Nat × Nat) :=
  [(0x1160, 0x11A7), (0xD7B0, 0xD7C6), (0x16D63, 0x16D63), (0x16D67, 0x16D6A)]

def trailingRanges : List (Nat × Nat) := [(0x11A8, 0x11FF), (0xD7CB, 0xD7FB)]

namespace BreakClass

/-- The class of a character. Of 28 Hangul syllables in a row the first ends with a vowel. -/
def ofChar (c : Char) : BreakClass :=
  let n := c.toNat
  if 0x20 ≤ n ∧ n < 0x7F then other
  else if c = '\r' then carriageReturn
  else if c = '\n' then lineFeed
  else if inRanges controlRanges c then control
  else if n = 0x200C then nonJoiner
  else if n = 0x200D then joiner
  else if isLinker c then linker
  else if isExtender c then extender
  else if isSpacingMark c then spacingMark
  else if inRanges prependedRanges c then prepended
  else if 0x1F1E6 ≤ n ∧ n ≤ 0x1F1FF then regional
  else if inRanges leadingRanges c then leading
  else if inRanges vowelRanges c then vowel
  else if inRanges trailingRanges c then trailing
  else if 0xAC00 ≤ n ∧ n ≤ 0xD7A3 then
    if (n - 0xAC00) % 28 = 0 then openSyllable else closedSyllable
  else if isPictograph c then pictograph
  else if isConsonant c then consonant
  else other

def isControl : BreakClass → Bool
  | carriageReturn | lineFeed | control => true
  | _ => false

def isExtending : BreakClass → Bool
  | extender | linker | nonJoiner => true
  | _ => false

/-- A character that goes with whatever is before it. -/
def follows : BreakClass → Bool
  | joiner | spacingMark => true
  | k => k.isExtending

/-- A character that may stand between the consonants of a conjunct. -/
def isInConjunct : BreakClass → Bool
  | extender | linker | joiner => true
  | _ => false

/-- Whether the second one goes on with a Hangul syllable that the first one is in. -/
def continuesSyllable : BreakClass → BreakClass → Bool
  | leading, leading | leading, vowel | leading, openSyllable | leading, closedSyllable => true
  | openSyllable, vowel | openSyllable, trailing | vowel, vowel | vowel, trailing => true
  | closedSyllable, trailing | trailing, trailing => true
  | _, _ => false

/-- Whether a consonant goes on with the conjunct that it finds before it, nearest first: a
consonant and marks with a linker among them. -/
def continuesConjunct (before : List BreakClass) : Bool :=
  (before.takeWhile isInConjunct).contains linker &&
    (before.dropWhile isInConjunct).head? = some consonant

/-- Whether a pictograph goes on with what it finds before the joiner, nearest first: a pictograph
and extenders. -/
def continuesPictograph (before : List BreakClass) : Bool :=
  (before.dropWhile isExtending).head? = some pictograph

/-- Whether a character of the class `next` belongs to the cluster of those before it, nearest
first. Flags have two halves. -/
def joins (before : List BreakClass) (next : BreakClass) : Bool :=
  match before with
  | [] => false
  | last :: earlier =>
    if last.isControl || next.isControl then last = carriageReturn && next = lineFeed
    else next.follows || last = prepended || continuesSyllable last next
      || (next = consonant && continuesConjunct before)
      || (next = pictograph && last = joiner && continuesPictograph earlier)
      || (next = regional && last = regional && (earlier.takeWhile (· = regional)).length % 2 = 0)

end BreakClass

/-- The clusters of a text behind the characters of a first cluster, last character first, with the
classes of these. -/
def clustersFrom (cluster : List Char) (classes : List BreakClass) :
    List Char → List (List Char)
  | [] => [cluster.reverse]
  | c :: cs =>
    let k := BreakClass.ofChar c
    if BreakClass.joins classes k then clustersFrom (c :: cluster) (k :: classes) cs
    else cluster.reverse :: clustersFrom [c] [k] cs

def clusters : List Char → List (List Char)
  | [] => []
  | c :: cs => clustersFrom [c] [BreakClass.ofChar c] cs

theorem flatten_clustersFrom (cluster : List Char) (classes : List BreakClass) (cs : List Char) :
    (clustersFrom cluster classes cs).flatten = cluster.reverse ++ cs := by
  fun_induction clustersFrom cluster classes cs with
  | case1 => simp
  | case2 _ _ _ _ _ _ ih => simp [ih]
  | case3 _ _ _ _ _ _ ih => simp [ih]

/-- Nothing of the text is lost. -/
theorem flatten_clusters (cs : List Char) : (clusters cs).flatten = cs := by
  cases cs with
  | nil => rfl
  | cons c cs => simp [clusters, flatten_clustersFrom]

theorem nil_not_mem_clustersFrom {cluster : List Char} (classes : List BreakClass) (cs : List Char)
    (h : cluster ≠ []) : [] ∉ clustersFrom cluster classes cs := by
  fun_induction clustersFrom cluster classes cs with
  | case1 => simpa using h
  | case2 _ _ _ _ _ _ ih => exact ih (by simp)
  | case3 _ _ _ _ _ _ ih => simpa [h] using ih

theorem nil_not_mem_clusters (cs : List Char) : [] ∉ clusters cs := by
  cases cs with
  | nil => simp [clusters]
  | cons c cs => exact nil_not_mem_clustersFrom _ _ (by simp)

end SqlFilter.Text
