/-!
# Quotes, escapes and parentheses

The part of CSS syntax that the inside of a value needs: a backslash protects
the next character, quotes hide what stands between them, and parentheses nest.
Two scans rest on it, the cut at top-level commas and the search for the
parenthesis that closes a call.

Main results:

- Theorem `Chars.splitFrom_ne_nil`: a cut at commas yields at least one piece.
- Theorem `Chars.closeParen?_lt`: a closing parenthesis found lies inside the
  text.
-/

namespace VendorPrefixing

/-- What a position inside a value is inside of. -/
structure Nesting where
  /-- The quote character of the open string. -/
  quote : Option Char
  /-- Whether a backslash protects the next character. -/
  escaped : Bool
  /-- The number of open parentheses, never below zero. -/
  depth : Nat
deriving DecidableEq, Repr

namespace Nesting

/-- Outside every string and every parenthesis. -/
def outside : Nesting where
  quote := none
  escaped := false
  depth := 0

/-- Just after an opening parenthesis outside every other one. -/
def insideCall : Nesting where
  quote := none
  escaped := false
  depth := 1

/-- Whether a character read here counts as punctuation: it is neither protected
by a backslash nor inside a string. -/
def isPlain (n : Nesting) : Bool :=
  !n.escaped && n.quote.isNone

/-- The nesting after one more character. -/
def step (n : Nesting) (c : Char) : Nesting :=
  if n.escaped then { n with escaped := false }
  else if c = '\\' then { n with escaped := true }
  else
    match n.quote with
    | some q => if c = q then { n with quote := none } else n
    | none =>
      if c = '"' || c = '\'' then { n with quote := some c }
      else if c = '(' then { n with depth := n.depth + 1 }
      else if c = ')' then { n with depth := n.depth - 1 }
      else n

/-- Whether a comma read here separates arguments. -/
def isTop (n : Nesting) : Bool :=
  n.isPlain && n.depth == 0

end Nesting

namespace Chars

/-- The pieces of a text between its top-level commas, where `piece` holds the
piece being read, last character first. -/
def splitFrom (n : Nesting) (piece : List Char) : List Char → List (List Char)
  | [] => [piece.reverse]
  | c :: rest =>
    if n.isTop && c == ',' then piece.reverse :: splitFrom (n.step c) [] rest
    else splitFrom (n.step c) (c :: piece) rest

/-- The pieces of a text between its top-level commas, white space included. -/
def splitArguments (s : List Char) : List (List Char) :=
  splitFrom .outside [] s

/-- The number of characters before the parenthesis that closes the innermost
open one, read from inside it. -/
def closeParen? (n : Nesting) : List Char → Option Nat
  | [] => none
  | c :: rest =>
    if n.isPlain && c == ')' && n.depth == 1 then some 0
    else (closeParen? (n.step c) rest).map (· + 1)

/-- A cut at commas yields at least one piece. -/
theorem splitFrom_ne_nil (n : Nesting) (piece s : List Char) : splitFrom n piece s ≠ [] := by
  induction s generalizing n piece with
  | nil => simp [splitFrom]
  | cons c rest ih =>
    rw [splitFrom]
    split
    · simp
    · exact ih _ _

/-- A closing parenthesis that was found lies inside the text. -/
theorem closeParen?_lt {n : Nesting} {s : List Char} {k : Nat}
    (h : closeParen? n s = some k) : k < s.length := by
  induction s generalizing n k with
  | nil => simp [closeParen?] at h
  | cons c rest ih =>
    rw [closeParen?] at h
    split at h
    · simp only [Option.some.injEq] at h
      subst h
      simp
    · obtain ⟨j, hj, rfl⟩ := Option.map_eq_some_iff.mp h
      have := ih hj
      simp only [List.length_cons]
      omega

end Chars

namespace Text

/-- The pieces of a text between its top-level commas, white space included. -/
def splitArguments (s : String) : List String :=
  (Chars.splitArguments s.toList).map String.ofList

end Text
end VendorPrefixing
