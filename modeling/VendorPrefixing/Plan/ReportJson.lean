import VendorPrefixing.Json.Printer
import VendorPrefixing.Plan.Report

/-!
# Support reports as JSON

The JSON form of a report lists the same rows under the names `browsers`,
`properties`, `values` and `at_rules`.
-/

namespace VendorPrefixing

/-- A browser as JSON. -/
def BrowserRow.toJson (row : BrowserRow) : Json :=
  .ofMembers [("name", .ofString row.name), ("title", .ofString row.title),
    ("versions", .ofStrings (row.versions.map Version.text))]

/-- A feature as JSON. -/
def FeatureRow.toJson (row : FeatureRow) : Json :=
  .ofMembers [("name", .ofString row.name), ("prefixes", .ofStrings row.vendors),
    ("transition", .bool row.inTransitions)]

/-- A report as JSON. -/
def Report.toJson (r : Report) : Json :=
  .ofMembers [("browsers", .array (r.browsers.map BrowserRow.toJson)),
    ("properties", .array (r.properties.map FeatureRow.toJson)),
    ("values", .array (r.values.map FeatureRow.toJson)),
    ("at_rules", .array (r.atRules.map FeatureRow.toJson))]

/-- The report as JSON text. -/
def Report.json (r : Report) : String :=
  Json.pretty 0 r.toJson

end VendorPrefixing
