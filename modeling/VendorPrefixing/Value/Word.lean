import VendorPrefixing.Text.CharClass
import VendorPrefixing.Text.Nesting

/-!
# Whole words in a value

A name stands alone in a value when it is not part of a longer name: `flex` is
not found inside `flex-start`, `inline-flex` or `-webkit-flex`.  The search goes
from left to right and consumes what it finds, so no two occurrences overlap;
where several names start at one place the earliest in the list counts.

Main results:

- Theorem `Word.occurrences_nil`: the empty text has no occurrence of a name
  that is not empty.
- Theorem `Word.mem_occurrences`: every occurrence ends a word.
-/

namespace VendorPrefixing

/-- A stretch of a value where a name stands, in characters from its start. -/
structure Occurrence where
  start : Nat
  name : List Char
deriving DecidableEq, Repr

/-- The position just after an occurrence. -/
def Occurrence.stop (o : Occurrence) : Nat :=
  o.start + o.name.length

/-- An occurrence of a name that is called: it is followed by arguments in
parentheses. -/
structure Call where
  start : Nat
  name : List Char
  arguments : List Char
deriving DecidableEq, Repr

/-- The position just after the closing parenthesis of a call. -/
def Call.stop (c : Call) : Nat :=
  c.start + c.name.length + c.arguments.length + 2

namespace Word

/-- Whether a character can stand directly before a name that stands alone. -/
def isSeparator (c : Char) : Bool :=
  !(c == '-' || isWordChar c)

/-- Whether a name may end where the text goes on with `rest`. -/
def endsHere : List Char → Bool
  | [] => true
  | c :: _ => !isNameChar c

/-- The first of the names that stands at the front of a text. -/
def nameAt? (names : List (List Char)) (s : List Char) : Option (List Char) :=
  names.find? fun name => name.isPrefixOf s

/-- Candidates after a separator.  The first `skip` characters belong to the
candidate before, and `position` is the position of the text. -/
def candidatesFrom (names : List (List Char)) (skip position : Nat) :
    List Char → List Occurrence
  | [] => []
  | c :: rest =>
    match skip with
    | skip + 1 => candidatesFrom names skip (position + 1) rest
    | 0 =>
      match if isSeparator c then nameAt? names rest else none with
      | some name =>
        ⟨position + 1, name⟩ :: candidatesFrom names name.length (position + 1) rest
      | none => candidatesFrom names 0 (position + 1) rest

/-- Places where a name begins a word, from left to right without overlap.  An
empty name at the very front consumes the first character, so that the search
goes on. -/
def candidates (names : List (List Char)) (s : List Char) : List Occurrence :=
  match nameAt? names s with
  | some name => ⟨0, name⟩ :: candidatesFrom names (max 1 name.length) 0 s
  | none => candidatesFrom names 0 0 s

/-- The places where a name stands alone. -/
def occurrences (names : List (List Char)) (s : List Char) : List Occurrence :=
  (candidates names s).filter fun o => endsHere (s.drop o.stop)

/-- The call at an occurrence, if an opening parenthesis follows directly and is
closed. -/
def call? (s : List Char) (o : Occurrence) : Option Call :=
  match s.drop o.stop with
  | '(' :: rest =>
    (Chars.closeParen? .insideCall rest).map fun size => ⟨o.start, o.name, rest.take size⟩
  | _ => none

/-- The occurrences that are calls. -/
def calls (names : List (List Char)) (s : List Char) : List Call :=
  (occurrences names s).filterMap (call? s)

/-- Every occurrence is a candidate that ends a word. -/
theorem mem_occurrences {names : List (List Char)} {s : List Char} {o : Occurrence} :
    o ∈ occurrences names s ↔ o ∈ candidates names s ∧ endsHere (s.drop o.stop) = true :=
  List.mem_filter

/-- The empty text has no occurrence of names that are not empty. -/
theorem occurrences_nil {names : List (List Char)} (h : [] ∉ names) :
    occurrences names [] = [] := by
  have hnone : nameAt? names [] = none := by
    rw [nameAt?, List.find?_eq_none]
    intro name hname hpre
    cases name with
    | nil => exact h hname
    | cons c rest => simp at hpre
  simp [occurrences, candidates, hnone, candidatesFrom]

end Word
end VendorPrefixing
