import Mathlib.Data.List.Forall2
import Mathlib.Data.List.Nodup
import VendorPrefixing.Proofs.Plan.Basic

/-!
# What a report says

A report is written browser by browser and feature by feature, while a plan keeps its
selection as one set.  Nothing is lost on the way, doubled or put in another order.

Main results:

- Theorem `Selection.pairwise_versionsOf`: the versions of a browser are listed from new to
  old.
- Theorem `Report.tellsBrowsers_ofFeatures`: the browsers and versions that a report lists.
- Theorem `Report.describes_rows`: the features that it lists.
- Theorem `Report.isEmpty_ofFeatures_iff`: when it lists none.
- Theorem `Plan.report_tells_all`: all of this for a plan.
-/

namespace VendorPrefixing

variable {table : BrowserTable} {selection : Selection} {features : List FeaturePlan}

/-! ## Browsers -/

/-- The versions of a browser are listed from new to old. -/
theorem Selection.pairwise_versionsOf (s : Selection) (name : String) :
    (s.versionsOf name).Pairwise fun v w => w < v := by
  rw [versionsOf, List.pairwise_map]
  refine (List.pairwise_reverse.mpr s.ordered).filter _ |>.imp_of_mem fun {t u} ht hu h => ?_
  simp only [List.mem_filter, beq_iff_eq] at ht hu
  have hname : u.name = t.name := hu.2.trans ht.2.symm
  simpa [Target.before, hname, String.lt_irrefl] using h

/-- The versions that a row lists, with the browser. -/
def BrowserRow.targets (row : BrowserRow) : List Target :=
  row.versions.map fun v => ⟨row.name, v⟩

namespace Report

/-- The versions that a report lists, in its order. -/
def targets (r : Report) : List Target :=
  r.browsers.flatMap BrowserRow.targets

/-- Whether a report lists the browsers and versions of a selection as the table has
them. -/
structure TellsBrowsers (table : BrowserTable) (selection : Selection) (r : Report) : Prop where
  /-- The browsers come in the order of the table. -/
  inOrder : (r.browsers.map fun row => (row.name, row.title)).Sublist
    (table.map fun b => (b.name, b.title))
  /-- No browser comes twice. -/
  nodup_names : (r.browsers.map BrowserRow.name).Nodup
  /-- No browser is listed without a version. -/
  versions_ne_nil : ∀ row ∈ r.browsers, row.versions ≠ []
  newestFirst : ∀ row ∈ r.browsers, row.versions.Pairwise fun v w => w < v
  mem_targets : ∀ t, t ∈ r.targets ↔ selection.contains t = true
  /-- No version comes twice. -/
  nodup_targets : r.targets.Nodup

theorem browserRow?_eq_some_iff {b : Browser} {row : BrowserRow} :
    browserRow? selection b = some row ↔
      selection.versionsOf b.name ≠ [] ∧ row = ⟨b.name, b.title, selection.versionsOf b.name⟩ := by
  rw [browserRow?]
  cases selection.versionsOf b.name with
  | nil => simp
  | cons v versions => simp [eq_comm]

theorem mem_browsers_iff {row : BrowserRow} :
    row ∈ (ofFeatures table selection features).browsers ↔
      ∃ b ∈ table, selection.versionsOf b.name ≠ [] ∧
        row = ⟨b.name, b.title, selection.versionsOf b.name⟩ := by
  simp only [ofFeatures, List.mem_filterMap, browserRow?_eq_some_iff]

/-- The browsers that are listed are browsers of the table, in its order. -/
theorem sublist_filterMap_browserRow? (table : BrowserTable) (selection : Selection) :
    ((table.filterMap (browserRow? selection)).map fun row => (row.name, row.title)).Sublist
      (table.map fun b => (b.name, b.title)) := by
  induction table with
  | nil => exact .slnil
  | cons b table ih =>
    cases hrow : browserRow? selection b with
    | none =>
      rw [List.filterMap_cons_none hrow]
      exact ih.cons _
    | some row =>
      obtain ⟨-, rfl⟩ := browserRow?_eq_some_iff.mp hrow
      rw [List.filterMap_cons_some hrow]
      exact ih.cons_cons _

theorem mem_targets_row {name title : String} {t : Target} :
    t ∈ BrowserRow.targets ⟨name, title, selection.versionsOf name⟩ ↔
      t ∈ selection.targets ∧ t.name = name := by
  rw [BrowserRow.targets, List.mem_map]
  constructor
  · rintro ⟨v, hv, rfl⟩
    exact ⟨Selection.mem_versionsOf.mp hv, rfl⟩
  · rintro ⟨ht, rfl⟩
    exact ⟨t.version, Selection.mem_versionsOf.mpr ht, rfl⟩

/-- Every selected version of a browser in the table is listed, and no other. -/
theorem mem_targets_ofFeatures_iff {t : Target} :
    t ∈ (ofFeatures table selection features).targets ↔
      t ∈ selection.targets ∧ ∃ b ∈ table, b.name = t.name := by
  simp only [targets, List.mem_flatMap, mem_browsers_iff]
  constructor
  · rintro ⟨_, ⟨b, hb, -, rfl⟩, ht⟩
    obtain ⟨ht, hname⟩ := mem_targets_row.mp ht
    exact ⟨ht, b, hb, hname.symm⟩
  · rintro ⟨ht, b, hb, hname⟩
    have hversion : t.version ∈ selection.versionsOf b.name :=
      Selection.mem_versionsOf.mpr (hname ▸ ht)
    exact ⟨_, ⟨b, hb, List.ne_nil_of_mem hversion, rfl⟩, mem_targets_row.mpr ⟨ht, hname.symm⟩⟩

/-- A report lists exactly the selected versions, if their browsers are in the table and
have names of their own. -/
theorem tellsBrowsers_ofFeatures (hnames : (table.map Browser.name).Nodup)
    (hselection : ∀ t ∈ selection.targets, ∃ b ∈ table, b.name = t.name) :
    TellsBrowsers table selection (ofFeatures table selection features) := by
  have hsublist := sublist_filterMap_browserRow? table selection
  have hnodup : ((ofFeatures table selection features).browsers.map BrowserRow.name).Nodup := by
    have hfst := hsublist.map Prod.fst
    rw [List.map_map, List.map_map] at hfst
    exact hnames.sublist hfst
  have hnewest : ∀ row ∈ (ofFeatures table selection features).browsers,
      row.versions.Pairwise fun v w => w < v := by
    intro row hrow
    obtain ⟨b, -, -, rfl⟩ := mem_browsers_iff.mp hrow
    exact selection.pairwise_versionsOf b.name
  refine ⟨hsublist, hnodup, fun row hrow => ?_, hnewest, fun t => ?_, ?_⟩
  · obtain ⟨b, -, hne, rfl⟩ := mem_browsers_iff.mp hrow
    exact hne
  · rw [mem_targets_ofFeatures_iff, Selection.contains_iff]
    exact and_iff_left_of_imp (hselection t)
  · rw [targets, List.nodup_flatMap]
    constructor
    · intro row hrow
      have hversions : row.versions.Nodup := (hnewest row hrow).imp fun {v w} h hvw => by
        rw [hvw, Version.lt_iff] at h
        omega
      exact hversions.map fun v w h => (Target.mk.inj h).2
    · -- Rows have different names, and so have the versions in them.
      refine (List.pairwise_map.mp hnodup).imp fun {row row'} hne t ht ht' => hne ?_
      obtain ⟨v, -, rfl⟩ := List.mem_map.mp ht
      obtain ⟨w, -, h⟩ := List.mem_map.mp ht'
      exact (Target.mk.inj h).1.symm

end Report

/-! ## Features -/

/-- Whether a row is about a feature.  It has one vendor for each mark that the feature
needs: the mark without the hyphens around it. -/
structure FeaturePlan.DescribedBy (f : FeaturePlan) (row : FeatureRow) : Prop where
  name : row.name = f.feature.name
  vendors : List.Forall₂ (fun mark vendor => mark = "-" ++ vendor ++ "-") f.add row.vendors
  inTransitions : row.inTransitions = f.feature.inTransitions

/-- A built-in mark is its vendor between hyphens. -/
theorem eq_append_bareVendor_of_mem_marks :
    ∀ mark ∈ Browser.marks, mark = "-" ++ Report.bareVendor mark ++ "-" := by
  decide

theorem FeaturePlan.describedBy_featureRow {f : FeaturePlan}
    (h : ∀ mark ∈ f.add, mark ∈ Browser.marks) : f.DescribedBy (Report.featureRow f) where
  name := rfl
  vendors := List.forall₂_map_right_iff.mpr
    (List.forall₂_same.mpr fun mark hmark => eq_append_bareVendor_of_mem_marks mark (h mark hmark))
  inTransitions := rfl

namespace Report

/-- The features of a kind that a report lists. -/
def rows (r : Report) : FeatureKind → List FeatureRow
  | .property => r.properties
  | .value => r.values
  | .atRule => r.atRules

theorem rows_ofFeatures (kind : FeatureKind) :
    (ofFeatures table selection features).rows kind = featureRows kind features := by
  cases kind <;> rfl

/-- A report has one row after the other for the features that need a mark, each among the
features of its kind. -/
theorem describes_rows (h : ∀ f ∈ features, ∀ mark ∈ f.add, mark ∈ Browser.marks)
    (kind : FeatureKind) :
    List.Forall₂ FeaturePlan.DescribedBy
      (features.filter fun f => f.feature.kind = kind ∧ f.add ≠ [])
      ((ofFeatures table selection features).rows kind) := by
  have hfilter : (features.filter fun f => f.feature.kind = kind ∧ f.add ≠ []) =
      features.filter fun f => !f.add.isEmpty && f.feature.kind == kind := by
    refine List.filter_congr fun f _ => ?_
    cases f.add <;> simp [Bool.beq_eq_decide_eq]
  rw [rows_ofFeatures, featureRows, hfilter, List.forall₂_map_right_iff, List.forall₂_same]
  intro f hf
  exact FeaturePlan.describedBy_featureRow (h f (List.mem_of_mem_filter hf))

/-- A report is empty when no feature needs a mark. -/
theorem isEmpty_ofFeatures_iff :
    (ofFeatures table selection features).isEmpty = true ↔ ∀ f ∈ features, f.add = [] := by
  rw [isEmpty_iff]
  simp only [ofFeatures, featureRows, List.map_eq_nil_iff, List.filter_eq_nil_iff,
    ← forall_and]
  refine forall_congr' fun f => ?_
  cases hkind : f.feature.kind <;> simp

end Report

/-! ## Plans -/

namespace Plan

variable {plan : Plan}

/-- Where no two features share a name, what a name needs is what its feature needs. -/
theorem add_name_of_mem (h : (plan.features.map fun f => f.feature.name).Nodup) {f : FeaturePlan}
    (hf : f ∈ plan.features) : plan.add f.feature.name = f.add := by
  cases hfind : plan.feature? f.feature.name with
  | none =>
    have hnone := List.find?_eq_none.mp hfind f (List.mem_reverse.mpr hf)
    exact absurd (beq_self_eq_true f.feature.name) hnone
  | some g =>
    obtain ⟨hg, hname⟩ := mem_features_of_feature? hfind
    rw [add, hfind, List.inj_on_of_nodup_map h hg hf hname]

/-- No feature needs a mark if no name does, and the other way round where no two features
share a name. -/
theorem forall_add_eq_nil_iff (h : (plan.features.map fun f => f.feature.name).Nodup) :
    (∀ f ∈ plan.features, f.add = []) ↔ ∀ name, plan.add name = [] := by
  constructor
  · intro hnone name
    cases hfind : plan.feature? name with
    | none => exact add_of_unknown hfind
    | some f =>
      rw [add, hfind]
      exact hnone f (mem_features_of_feature? hfind).1
  · intro hnone f hf
    rw [← add_name_of_mem h hf, hnone]

theorem map_feature_build (table : BrowserTable) (features : List Feature)
    (selection : Selection) :
    (build table features selection).features.map FeaturePlan.feature = features := by
  rw [build, List.map_map]
  exact List.map_id features

/-- The report of a plan tells all about it.  Its browsers are those of the selection, in the
order of the table and each once, with every selected version, new ones first.  Its rows
describe the features that need a mark, one after the other and each among those of its
kind.  It is empty when there is no such feature. -/
theorem report_tells_all (features : List Feature) (selection : Selection)
    (hselection : ∀ t ∈ selection.targets, ∃ b ∈ Browser.builtIn, b.name = t.name) :
    let plan := build Browser.builtIn features selection
    Report.TellsBrowsers Browser.builtIn selection plan.report ∧
      plan.features.map FeaturePlan.feature = features ∧
      (∀ kind, List.Forall₂ FeaturePlan.DescribedBy
        (plan.features.filter fun f => f.feature.kind = kind ∧ f.add ≠ [])
        (plan.report.rows kind)) ∧
      (plan.report.isEmpty = true ↔ ∀ f ∈ plan.features, f.add = []) ∧
      ((features.map Feature.name).Nodup →
        (plan.report.isEmpty = true ↔ ∀ name, plan.add name = [])) := by
  intro plan
  have hfeatures := map_feature_build Browser.builtIn features selection
  have hempty : plan.report.isEmpty = true ↔ ∀ f ∈ plan.features, f.add = [] :=
    Report.isEmpty_ofFeatures_iff
  refine ⟨Report.tellsBrowsers_ofFeatures (by decide) hselection, hfeatures,
    Report.describes_rows fun f hf mark hmark => ?_, hempty, fun hnames => ?_⟩
  · obtain ⟨g, -, rfl⟩ := List.mem_map.mp hf
    exact Browser.mem_marks_of_mem_vendorsOf hmark
  · refine hempty.trans (forall_add_eq_nil_iff ?_)
    rwa [← hfeatures, List.map_map] at hnames

/-- Three versions of two browsers. -/
def twoBrowsers : Selection :=
  .ofList [⟨"ff", ⟨23, 0⟩⟩, ⟨"chrome", ⟨25, 0⟩⟩, ⟨"ff", ⟨24, 0⟩⟩]

/-- A property that one of them needs a mark for. -/
def spinFeature : Feature where
  name := "transform"
  kind := .property
  needs := [⟨"chrome", ⟨25, 0⟩, none⟩, ⟨"ff", ⟨15, 0⟩, some ⟨15, 0⟩⟩]
  properties := []
  values := []
  inTransitions := true

/-- The report lists both browsers, the newer version of Firefox first, and the mark of
Chrome. -/
theorem report_tells_all_twoBrowsers :
    let plan := build Browser.builtIn [spinFeature] twoBrowsers
    plan.report.browsers =
        [⟨"chrome", "Chrome", [⟨25, 0⟩]⟩, ⟨"ff", "Firefox", [⟨24, 0⟩, ⟨23, 0⟩]⟩] ∧
      plan.report.properties = [⟨"transform", ["webkit"], true⟩] ∧
      Report.TellsBrowsers Browser.builtIn twoBrowsers plan.report ∧
      plan.report.isEmpty = false ∧ ¬ ∀ name, plan.add name = [] := by
  have htells := report_tells_all [spinFeature] twoBrowsers (by decide)
  have hproperties : (build Browser.builtIn [spinFeature] twoBrowsers).report.properties =
      [⟨"transform", ["webkit"], true⟩] := by decide
  have hisEmpty : (build Browser.builtIn [spinFeature] twoBrowsers).report.isEmpty = false := by
    rw [Report.isEmpty, hproperties]
    rfl
  refine ⟨by decide, hproperties, htells.1, hisEmpty, ?_⟩
  rw [← htells.2.2.2.2 (List.nodup_singleton _), hisEmpty]
  exact Bool.false_ne_true

end Plan
end VendorPrefixing
