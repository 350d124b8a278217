/-!
# Rounded corners

Under the mark `-moz-` the four corners of a box had names of their own:
`-moz-border-radius-topleft` is `border-top-left-radius`.

Main results:

- Theorem `CornerRadius.standard?_old`: the old name of a corner leads back to
  the standard one.
-/

namespace VendorPrefixing
namespace CornerRadius

/-- The corners with their standard and their old names. -/
def corners : List (String × String) :=
  [("border-top-left-radius", "border-radius-topleft"),
    ("border-top-right-radius", "border-radius-topright"),
    ("border-bottom-right-radius", "border-radius-bottomright"),
    ("border-bottom-left-radius", "border-radius-bottomleft")]

/-- The name that a property has under a vendor mark. -/
def marked (vendor property : String) : String :=
  if vendor = "-moz-" then
    match corners.find? (·.1 == property) with
    | some corner => vendor ++ corner.2
    | none => vendor ++ property
  else
    vendor ++ property

/-- The standard name of a corner, from its old name without the mark. -/
def standard? (old : String) : Option String :=
  (corners.find? (·.2 == old)).map Prod.fst

/-- The old name of each corner leads back to its standard name. -/
theorem standard?_old : ∀ corner ∈ corners, standard? corner.2 = some corner.1 := by
  decide

end CornerRadius
end VendorPrefixing
