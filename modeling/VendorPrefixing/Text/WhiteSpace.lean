/-!
# White space

Membership in the Unicode property `White_Space`, and the two ways this library
uses it: trimming the ends of a text and cutting a text into words.  Everything
is stated on lists of characters first; the versions on `String` only convert.

Main results:

- Theorems `Chars.trimStart_eq_self` and `Chars.trim_nil`: trimming leaves a text
  that starts with something else alone, and keeps the empty text empty.
- Theorem `Chars.isBlank_of_isWhitespace`: the set holds the ASCII blanks.
-/

namespace VendorPrefixing

/-- Membership in the Unicode property `White_Space`, which has 25 members. -/
def isBlank (c : Char) : Bool :=
  let n := c.toNat
  (0x09 ≤ n && n ≤ 0x0D) || n == 0x20 || n == 0x85 || n == 0xA0 || n == 0x1680 ||
    (0x2000 ≤ n && n ≤ 0x200A) || n == 0x2028 || n == 0x2029 || n == 0x202F ||
    n == 0x205F || n == 0x3000

namespace Chars

/-- The text without its leading white space. -/
def trimStart (s : List Char) : List Char :=
  s.dropWhile isBlank

/-- The text without its trailing white space. -/
def trimEnd (s : List Char) : List Char :=
  (s.reverse.dropWhile isBlank).reverse

/-- The text without white space at either end. -/
def trim (s : List Char) : List Char :=
  trimEnd (trimStart s)

/-- The words of a text, where `word` holds the letters of the word being read,
last letter first. -/
def wordsFrom (word : List Char) : List Char → List (List Char)
  | [] => if word.isEmpty then [] else [word.reverse]
  | c :: rest =>
    if isBlank c then
      if word.isEmpty then wordsFrom [] rest else word.reverse :: wordsFrom [] rest
    else
      wordsFrom (c :: word) rest

/-- The maximal stretches of a text that hold no white space, in order. -/
def words (s : List Char) : List (List Char) :=
  wordsFrom [] s

/-- Every ASCII blank is white space. -/
theorem isBlank_of_isWhitespace {c : Char} (h : c.isWhitespace = true) :
    isBlank c = true := by
  simp only [Char.isWhitespace, Bool.or_eq_true, decide_eq_true_eq] at h
  rcases h with ((rfl | rfl) | rfl) | rfl <;> rfl

@[simp]
theorem trimStart_nil : trimStart [] = [] :=
  rfl

@[simp]
theorem trim_nil : trim [] = [] :=
  rfl

/-- A text that starts with something other than white space is already trimmed
at its start. -/
theorem trimStart_eq_self {c : Char} {s : List Char} (h : isBlank c = false) :
    trimStart (c :: s) = c :: s := by
  simp [trimStart, h]

end Chars

namespace Text

/-- The text without white space at either end. -/
def trim (s : String) : String :=
  String.ofList (Chars.trim s.toList)

/-- The text without its trailing white space. -/
def trimEnd (s : String) : String :=
  String.ofList (Chars.trimEnd s.toList)

/-- The maximal stretches of a text that hold no white space, in order. -/
def words (s : String) : List String :=
  (Chars.words s.toList).map String.ofList

end Text
end VendorPrefixing
