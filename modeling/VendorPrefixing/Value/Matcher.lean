import VendorPrefixing.Distinct
import VendorPrefixing.Text.Find
import VendorPrefixing.Value.Edit
import VendorPrefixing.Value.Word

/-!
# Matchers

A matcher looks for a set of names inside declaration values, where they have to
stand alone.  Longer names are preferred, so that `inline-flex` is not taken for
`flex`.

Main results:

- Theorem `Matcher.mem_names`: a matcher keeps exactly the names it is made of.
- Theorem `Matcher.replace_of_occurrences_eq_nil`: a value without occurrences
  is not changed.
-/

namespace VendorPrefixing

/-- Names to look for inside values. -/
structure Matcher where
  /-- The names without repetition, longest first. -/
  names : List String
deriving DecidableEq, Repr

namespace Matcher

/-- The matcher for a list of names. -/
def ofNames (names : List String) : Matcher where
  names := sortDistinct longerFirst names

/-- The matcher for one name. -/
def single (name : String) : Matcher :=
  ofNames [name]

/-- The texts that the search looks for.  Without any name it looks for the empty
one. -/
def patterns (m : Matcher) : List (List Char) :=
  if m.names.isEmpty then [[]] else m.names.map String.toList

/-- The places where a name stands alone in a value. -/
def occurrences (m : Matcher) (value : String) : List Occurrence :=
  Word.occurrences m.patterns value.toList

/-- The places where a name is called in a value. -/
def calls (m : Matcher) (value : String) : List Call :=
  Word.calls m.patterns value.toList

/-- Whether a name stands alone somewhere in a value. -/
def finds (m : Matcher) (value : String) : Bool :=
  m.names.any (Text.contains value) && !(m.occurrences value).isEmpty

/-- The value with every occurrence of a name replaced by the text that `replacement`
gives for it. -/
def replace (m : Matcher) (replacement : String → String) (value : String) : String :=
  .ofList <| applyEdits 0 value.toList <| (m.occurrences value).map fun o =>
    ⟨o.start, o.stop, (replacement (.ofList o.name)).toList⟩

/-- The value with a vendor mark in front of every occurrence of a name. -/
def mark (m : Matcher) (vendor value : String) : String :=
  m.replace (vendor ++ ·) value

/-- A matcher keeps exactly the names it is made of. -/
theorem mem_names {names : List String} {name : String} :
    name ∈ (ofNames names).names ↔ name ∈ names :=
  mem_sortDistinct longerFirst_strictOrder

/-- A value without occurrences is not changed. -/
theorem replace_of_occurrences_eq_nil {m : Matcher} {replacement : String → String}
    {value : String} (h : m.occurrences value = []) :
    m.replace replacement value = value := by
  simp [replace, h]

end Matcher
end VendorPrefixing
