import VendorPrefixing.Browser.Selection
import VendorPrefixing.Browser.Table
import VendorPrefixing.Feature.Table
import VendorPrefixing.Plan.Report
import VendorPrefixing.Spelling.Basic

/-!
# Plans

A plan says, for one selection of browsers, which vendor marks every feature
still needs and which of its marks have become useless.  It depends on nothing
but the tables and the selection.

Main results:

- Theorem `Plan.add_of_unknown`: a name that is no feature needs no mark.
- Theorem `Plan.mem_others`: the other marks of a plan are its marks but one.
- Theorem `FeaturePlan.remove_disjoint`: no mark is both needed and useless.
-/

namespace VendorPrefixing

/-! ## Features -/

/-- A feature with the marks it needs. -/
structure FeaturePlan where
  feature : Feature
  /-- Every known version that needs a mark, sorted. -/
  targets : List Target
  /-- The marks that selected versions need, longest first. -/
  add : List String
  /-- The marks that only versions outside the selection need, longest first. -/
  remove : List String
deriving DecidableEq, Repr

namespace Need

/-- The known versions that a need covers.  A need of an unknown browser covers
none. -/
def targets (table : BrowserTable) (need : Need) : List Target :=
  match table.find? need.browser with
  | some b => (b.versions.filter need.holds).map fun v => ⟨b.name, v⟩
  | none => []

end Need

namespace Feature

/-- Every known version that needs a mark for the feature, sorted. -/
def targets (table : BrowserTable) (f : Feature) : List Target :=
  sortDistinct Target.before (f.needs.flatMap (Need.targets table))

/-- How the feature is spelled under a mark. -/
def spelling (f : Feature) : Spelling :=
  Spelling.ofFeature f.name

/-- Finds the feature inside values.  Value features have a matcher, and so have
the properties that are marked inside lists of transitions. -/
def matcher? (f : Feature) : Option Matcher :=
  match f.kind with
  | .value => some (.ofNames f.searched)
  | .property => if f.inTransitions then some (.single f.name) else none
  | .atRule => none

/-- Whether a value feature may stand in a property. -/
def appliesTo (f : Feature) (property : String) : Bool :=
  f.properties.any fun p => p == "*" || p == property

end Feature

namespace FeaturePlan

/-- The marks that a feature needs for a selection, and the ones that have become
useless. -/
def ofFeature (table : BrowserTable) (selection : Selection) (f : Feature) : FeaturePlan :=
  let targets := f.targets table
  let add := table.vendorsOf (targets.filter selection.contains)
  let full := table.vendorsOf targets
  { feature := f
    targets := targets
    add := add
    remove := if add.length < full.length then full.filter (!add.contains ·) else [] }

/-- Finds the marked forms of the feature that have become useless inside values. -/
def removeMatcher? (f : FeaturePlan) : Option Matcher :=
  if f.feature.matcher?.isSome && !f.remove.isEmpty then
    some <| .ofNames <| f.remove.flatMap fun vendor =>
      f.feature.spelling.valueNames vendor f.feature.searched
  else
    none

/-- The property names that some marks lead to, if the feature is a property. -/
def propertyNames (vendors : List String) (f : FeaturePlan) : List String :=
  match f.feature.kind with
  | .property => vendors.flatMap fun vendor => f.feature.spelling.names vendor f.feature.name
  | .value | .atRule => []

/-- The useless forms of an at-rule, such as `@-moz-keyframes`. -/
def removedAtRules (f : FeaturePlan) : List String :=
  match f.feature.kind with
  | .atRule =>
    let bare := String.ofList (f.feature.name.toList.dropWhile (· == '@'))
    f.remove.map fun vendor => "@" ++ vendor ++ bare
  | .property | .value => []

/-- No mark is both needed and useless. -/
theorem remove_disjoint {table : BrowserTable} {selection : Selection} {f : Feature}
    {vendor : String} (h : vendor ∈ (ofFeature table selection f).remove) :
    vendor ∉ (ofFeature table selection f).add := by
  simp only [ofFeature] at h ⊢
  split at h
  · simp only [List.mem_filter, Bool.not_eq_true', List.contains_eq_mem,
      decide_eq_false_iff_not] at h
    exact h.2
  · simp at h

end FeaturePlan

/-! ## Plans -/

/-- What to mark and what to remove for one selection. -/
structure Plan where
  selection : Selection
  features : List FeaturePlan
  /-- The marks of all selected browsers, longest first. -/
  vendors : List String
  /-- The property names that have become useless. -/
  removedProperties : List String
  /-- The at-rules that have become useless, with their `@`. -/
  removedAtRules : List String
  report : Report

namespace Report

/-- The selected versions of a browser, if there are any. -/
def browserRow? (selection : Selection) (b : Browser) : Option BrowserRow :=
  match selection.versionsOf b.name with
  | [] => none
  | versions => some ⟨b.name, b.title, versions⟩

/-- A vendor mark without the hyphens around it. -/
def bareVendor (vendor : String) : String :=
  let isHyphen := fun c : Char => c == '-'
  .ofList ((vendor.toList.dropWhile isHyphen).reverse.dropWhile isHyphen).reverse

/-- The row of a feature. -/
def featureRow (f : FeaturePlan) : FeatureRow :=
  ⟨f.feature.name, f.add.map bareVendor, f.feature.inTransitions⟩

/-- The rows of the features of a kind that need a mark. -/
def featureRows (kind : FeatureKind) (features : List FeaturePlan) : List FeatureRow :=
  (features.filter fun f => !f.add.isEmpty && f.feature.kind == kind).map featureRow

/-- The report on a selection and its features. -/
def ofFeatures (table : BrowserTable) (selection : Selection) (features : List FeaturePlan) :
    Report where
  browsers := table.filterMap (browserRow? selection)
  properties := featureRows .property features
  values := featureRows .value features
  atRules := featureRows .atRule features

end Report

namespace Plan

/-- The plan for a selection according to the tables.  A property name that some
feature still needs is never useless. -/
def build (table : BrowserTable) (features : List Feature) (selection : Selection) : Plan :=
  let features := features.map (FeaturePlan.ofFeature table selection)
  let added := features.flatMap fun f => f.propertyNames f.add
  { selection := selection
    features := features
    vendors := table.vendorsOf selection.targets
    removedProperties :=
      (features.flatMap fun f => f.propertyNames f.remove).filter (!added.contains ·)
    removedAtRules := features.flatMap FeaturePlan.removedAtRules
    report := .ofFeatures table selection features }

/-- The plan for a selection according to the built-in tables. -/
def ofSelection (selection : Selection) : Plan :=
  build Browser.builtIn Feature.builtIn selection

/-- The feature with a name; of several the last one counts. -/
def feature? (plan : Plan) (name : String) : Option FeaturePlan :=
  plan.features.reverse.find? (·.feature.name == name)

/-- The marks that a name needs; a name that is no feature needs none. -/
def add (plan : Plan) (name : String) : List String :=
  match plan.feature? name with
  | some f => f.add
  | none => []

/-- The marks of a name that have become useless. -/
def remove (plan : Plan) (name : String) : List String :=
  match plan.feature? name with
  | some f => f.remove
  | none => []

/-- The marks of the selected browsers other than one. -/
def others (plan : Plan) (vendor : String) : List String :=
  plan.vendors.filter (· != vendor)

/-- The features that stand inside values. -/
def valueFeatures (plan : Plan) : List FeaturePlan :=
  plan.features.filter (·.feature.kind == .value)

/-- The properties that are also marked inside lists of transitions. -/
def transitionFeatures (plan : Plan) : List FeaturePlan :=
  plan.features.filter fun f => f.feature.kind == .property && f.feature.inTransitions

/-- The features to look for in the values of a property. -/
def featuresIn (plan : Plan) (property : String) : List FeaturePlan :=
  let values := plan.valueFeatures.filter (·.feature.appliesTo property)
  if property = "transition" || property = "transition-property" then
    values ++ plan.transitionFeatures
  else
    values

/-- Whether a property name has become useless. -/
def removesProperty (plan : Plan) (property : String) : Bool :=
  plan.removedProperties.contains property

/-- Whether an at-rule such as `@-moz-keyframes` has become useless. -/
def removesAtRule (plan : Plan) (atRule : String) : Bool :=
  plan.removedAtRules.contains atRule

/-- A name that is no feature needs no mark. -/
theorem add_of_unknown {plan : Plan} {name : String} (h : plan.feature? name = none) :
    plan.add name = [] := by
  simp [add, h]

theorem mem_others {plan : Plan} {vendor other : String} :
    other ∈ plan.others vendor ↔ other ∈ plan.vendors ∧ other ≠ vendor := by
  simp [others]

end Plan
end VendorPrefixing
