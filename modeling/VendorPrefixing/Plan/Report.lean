import VendorPrefixing.Browser.Version
import VendorPrefixing.Text.Find

/-!
# Support reports

A report says which browsers a plan is for and which features it marks.  It is
data first; this module writes it as text and as JSON.

Main results:

- Theorem `Report.isEmpty_iff`: a report is empty when it lists no feature.
-/

namespace VendorPrefixing

/-- The selected versions of one browser. -/
structure BrowserRow where
  name : String
  title : String
  /-- Newest first. -/
  versions : List Version
deriving DecidableEq, Repr

/-- A feature that a plan marks. -/
structure FeatureRow where
  name : String
  /-- The vendor marks without their hyphens. -/
  vendors : List String
  inTransitions : Bool
deriving DecidableEq, Repr

/-- What a plan is for and what it marks. -/
structure Report where
  browsers : List BrowserRow
  properties : List FeatureRow
  values : List FeatureRow
  atRules : List FeatureRow
deriving DecidableEq, Repr

namespace Report

/-- Whether no feature is listed. -/
def isEmpty (r : Report) : Bool :=
  r.properties.isEmpty && r.values.isEmpty && r.atRules.isEmpty

theorem isEmpty_iff {r : Report} :
    r.isEmpty = true ↔ r.properties = [] ∧ r.values = [] ∧ r.atRules = [] := by
  simp [isEmpty, and_assoc]

/-! ## Text -/

/-- The line of a browser. -/
def browserLine (row : BrowserRow) : String :=
  "  " ++ row.title ++ ": " ++ Text.join ", " (row.versions.map Version.text) ++ "\n"

/-- The line of a feature; a star marks the ones inside lists of transitions. -/
def featureLine (row : FeatureRow) : String :=
  "  " ++ row.name ++ ": " ++ Text.join ", " row.vendors ++
    (if row.inTransitions then " *\n" else "\n")

/-- The section of one kind of feature, nothing when it has no feature. -/
def featureSection (title : String) (rows : List FeatureRow) : String :=
  if rows.isEmpty then ""
  else "\n" ++ title ++ ":\n" ++ Text.join "" (rows.map featureLine)

/-- The report for people. -/
def text (r : Report) : String :=
  let browsers :=
    "Browsers:\n" ++
      (if r.browsers.isEmpty then "  none\n" else Text.join "" (r.browsers.map browserLine))
  if r.isEmpty then browsers ++ "\nNo prefixes needed.\n"
  else
    browsers ++ featureSection "Properties" r.properties ++ featureSection "Values" r.values ++
      featureSection "At-rules" r.atRules ++
      (if r.properties.any FeatureRow.inTransitions then
        "\n* also prefixed inside transition values\n"
      else "")

end Report
end VendorPrefixing
