import VendorPrefixing.Browser.Basic

/-!
# Features

A feature is a property, a value or an at-rule that some browser versions only
understand under their vendor mark.

Main results:

- Theorem `Feature.searched_of_nil`: a feature without value names is looked for
  by its own name.
-/

namespace VendorPrefixing

/-- What kind of name a feature is. -/
inductive FeatureKind
  | property
  | value
  | atRule
deriving DecidableEq, Repr

/-- A range of versions of one browser, ends included, that needs the vendor
mark.  Without a last version the range has no end. -/
structure Need where
  browser : String
  first : Version
  last : Option Version
deriving DecidableEq, Repr

/-- A name that is not yet understood everywhere. -/
structure Feature where
  name : String
  kind : FeatureKind
  needs : List Need
  /-- The properties a value feature may stand in; `*` stands for every one. -/
  properties : List String
  /-- The value names to look for; none stands for the feature's own name. -/
  values : List String
  /-- Whether the property is also marked inside lists of transitions. -/
  inTransitions : Bool
deriving DecidableEq, Repr

/-- Whether a version lies in the range. -/
def Need.holds (need : Need) (v : Version) : Bool :=
  need.first ≤ v && (match need.last with
    | some last => v ≤ last
    | none => true)

/-- The names that a feature is looked for by inside values. -/
def Feature.searched (f : Feature) : List String :=
  if f.values.isEmpty then [f.name] else f.values

/-- A feature without value names is looked for by its own name. -/
theorem Feature.searched_of_nil {f : Feature} (h : f.values = []) : f.searched = [f.name] := by
  simp [Feature.searched, h]

end VendorPrefixing
