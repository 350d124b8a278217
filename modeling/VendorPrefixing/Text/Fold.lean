/-!
# Letters regardless of case

Simple case folding as far as it reaches the ASCII letters.  Two characters
beyond ASCII fold to an ASCII letter: the long s (U+017F) and the Kelvin sign
(U+212A).

Main results:

- Theorem `Chars.dropFolded?_nil`: the empty word stands at the front of every
  text.
-/

namespace VendorPrefixing

/-- The small ASCII letter a character folds to, or the character itself when it
folds to none. -/
def foldCase (c : Char) : Char :=
  if c = '\u017F' then 's'
  else if c = '\u212A' then 'k'
  else c.toLower

/-- Whether the character is an ASCII letter up to case folding. -/
def isFoldedLetter (c : Char) : Bool :=
  (foldCase c).isAlpha

namespace Chars

/-- What follows `word` at the front of the text, where case is ignored and
`word` is written in small letters. -/
def dropFolded? : (word : List Char) → List Char → Option (List Char)
  | [], s => some s
  | _ :: _, [] => none
  | w :: word, c :: rest => if foldCase c = w then dropFolded? word rest else none

/-- Whether the text is `word` up to case. -/
def isFolded (word s : List Char) : Bool :=
  dropFolded? word s == some []

@[simp]
theorem dropFolded?_nil (s : List Char) : dropFolded? [] s = some s := by
  cases s <;> rfl

end Chars

end VendorPrefixing
