import VendorPrefixing.Spelling.CornerRadius
import VendorPrefixing.Spelling.Flexbox
import VendorPrefixing.Spelling.Gradient
import VendorPrefixing.Spelling.LegacyFilter

/-!
# Spellings

How a feature is spelled under a vendor mark.  Most features only take the mark
in front of their name.  The few with a history of incompatible syntaxes have a
spelling of their own.

Main results:

- Theorem `Spelling.ofFeature_flex`: the flexible box properties have their own
  spelling.
- Theorem `vendorOf?_eq_none`: a name that does not start with a hyphen carries no
  vendor mark.
-/

namespace VendorPrefixing

/-- The ways in which features are spelled under a vendor mark. -/
inductive Spelling
  | plain
  | flex (property : FlexProperty)
  | display
  | cornerRadius
  | filter
  | gradient
deriving DecidableEq, Repr

namespace Spelling

/-- The spelling of a feature. -/
def ofFeature (name : String) : Spelling :=
  match name with
  | "display-flex" => .display
  | "border-radius" => .cornerRadius
  | "border-top-left-radius" => .cornerRadius
  | "border-top-right-radius" => .cornerRadius
  | "border-bottom-right-radius" => .cornerRadius
  | "border-bottom-left-radius" => .cornerRadius
  | "filter" => .filter
  | "linear-gradient" => .gradient
  | "repeating-linear-gradient" => .gradient
  | "radial-gradient" => .gradient
  | "repeating-radial-gradient" => .gradient
  | name =>
    match FlexProperty.ofName? name with
    | some property => .flex property
    | none => .plain

/-- The declarations to write before `property: value` for a vendor mark. -/
def forms (s : Spelling) (vendor property value : String) : List (String × String) :=
  match s with
  | plain => [(vendor ++ property, value)]
  | flex p => Flexbox.forms p vendor value
  | cornerRadius => [(CornerRadius.marked vendor property, value)]
  | filter => LegacyFilter.forms vendor value
  | display | gradient => []

/-- The property names that a vendor mark leads to for the feature with a name. -/
def names (s : Spelling) (vendor name : String) : List String :=
  match s with
  | plain => [vendor ++ name]
  | flex p => Flexbox.names p vendor
  | cornerRadius => [CornerRadius.marked vendor name]
  | filter => if vendor = LegacyFilter.vendor then [LegacyFilter.property] else [vendor ++ name]
  | display | gradient => []

/-- The values that stand for a value under a vendor mark.  Several values mean
several declarations in this order. -/
def values (s : Spelling) (m : Matcher) (vendor value : String) : List String :=
  match s with
  | plain | flex _ => [m.mark vendor value]
  | display => Flexbox.displays m vendor value
  | gradient => [Gradient.marked m vendor value]
  | cornerRadius => [m.replace (CornerRadius.marked vendor) value]
  | filter => if vendor = LegacyFilter.vendor then [value] else [m.mark vendor value]

/-- Whether marking a value ends the program. -/
def crashes (s : Spelling) (m : Matcher) (value : String) : Bool :=
  match s with
  | gradient => Gradient.crashes m value
  | plain | flex _ | display | cornerRadius | filter => false

/-- The names inside values that a vendor mark leads to from bare names. -/
def valueNames (s : Spelling) (vendor : String) (names : List String) : List String :=
  match s with
  | display => Flexbox.keywords vendor
  | cornerRadius => names.map (CornerRadius.marked vendor)
  | plain | flex _ | filter | gradient => names.map (vendor ++ ·)

/-- The flexible box properties have their own spelling. -/
theorem ofFeature_flex (p : FlexProperty) : ofFeature p.name = .flex p := by
  cases p <;> decide

end Spelling

/-! ## Reading marked names -/

/-- The number of characters of the vendor mark at the front of a name.  A mark
is a hyphen, at least one other character, and the next hyphen. -/
def markLength? : List Char → Option Nat
  | '-' :: rest =>
    match rest.findIdx? (· == '-') with
    | some (size + 1) => some (size + 3)
    | _ => none
  | _ => none

/-- The vendor mark at the front of a name: `-webkit-` for `-webkit-box-flex`. -/
def vendorOf? (name : String) : Option String :=
  (markLength? name.toList).map fun size => .ofList (name.toList.take size)

/-- The standard property behind an old name without its mark. -/
def standardProperty? (old : String) : Option String :=
  CornerRadius.standard? old <|> FlexProperty.standard? old

/-- The standard property that a property belongs to: the property itself, or
what its marked name stands for. -/
def unmarked (property : String) : String :=
  match markLength? property.toList with
  | some size =>
    let old := String.ofList (property.toList.drop size)
    (standardProperty? old).getD old
  | none => property

/-- A name that does not start with a hyphen carries no vendor mark. -/
theorem vendorOf?_eq_none {name : String} (h : name.toList.head? ≠ some '-') :
    vendorOf? name = none := by
  rw [vendorOf?]
  cases hn : name.toList with
  | nil => rfl
  | cons c rest =>
    rw [hn] at h
    have hc : c ≠ '-' := by simpa using h
    simp [markLength?, hc]

end VendorPrefixing
