import Mathlib.Data.List.Basic
import Mathlib.Data.List.Forall2
import Mathlib.Data.List.Perm.Subperm
import VendorPrefixing.Plan.Basic
import VendorPrefixing.Proofs.Browser.Lookup
import VendorPrefixing.Proofs.Browser.Vendor

/-!
# What a plan says

A plan is computed by expanding ranges of versions, looking names up and comparing
lists by their lengths.  What it says can be said without any of this: a mark is needed
where a selected version that a need covers uses it, and useless where only other
versions do.

Main results:

- Theorem `FeaturePlan.mem_remove_iff`: the marks of a feature are the needed and the
  useless ones.
- Theorem `FeaturePlan.means_ofFeature`: what the plan for one feature says.
- Theorem `Plan.removesProperty_build_iff`: the useless properties are those that a
  useless mark leads to and no needed one.
- Theorem `Plan.means_build`: what a plan says.
-/

namespace VendorPrefixing

variable {table : BrowserTable} {selection : Selection} {f : Feature}

/-! ## Needs -/

/-- Whether a need is about a version of a browser. -/
structure Need.Covers (table : BrowserTable) (need : Need) (b : Browser) (v : Version) :
    Prop where
  mem : b ∈ table
  named : b.IsNamed need.browser
  known : v ∈ b.versions
  first_le : need.first ≤ v
  /-- A range without a last version has no end. -/
  le_last : ∀ last, need.last = some last → v ≤ last

theorem Need.holds_iff {need : Need} {v : Version} :
    need.holds v = true ↔ need.first ≤ v ∧ ∀ last, need.last = some last → v ≤ last := by
  rw [holds, Bool.and_eq_true, decide_eq_true_eq]
  cases need.last <;> simp

/-- The targets of a need are the versions it is about. -/
theorem Need.mem_targets_iff (h : table.Unambiguous) {need : Need} {t : Target} :
    t ∈ need.targets table ↔ ∃ b v, need.Covers table b v ∧ t = ⟨b.name, v⟩ := by
  constructor
  · intro ht
    rw [targets] at ht
    split at ht
    · rename_i b hfind
      obtain ⟨hb, hnamed⟩ := (BrowserTable.find?_eq_some_iff h).mp hfind
      obtain ⟨v, hv, rfl⟩ := List.mem_map.mp ht
      obtain ⟨hknown, hholds⟩ := List.mem_filter.mp hv
      obtain ⟨hfirst, hlast⟩ := holds_iff.mp hholds
      exact ⟨b, v, ⟨hb, hnamed, hknown, hfirst, hlast⟩, rfl⟩
    · exact absurd ht List.not_mem_nil
  · rintro ⟨b, v, hcovers, rfl⟩
    have hfind := (BrowserTable.find?_eq_some_iff h).mpr ⟨hcovers.mem, hcovers.named⟩
    have hholds := holds_iff.mpr ⟨hcovers.first_le, hcovers.le_last⟩
    rw [targets, hfind]
    exact List.mem_map.mpr ⟨v, List.mem_filter.mpr ⟨hcovers.known, hholds⟩, rfl⟩

/-- The targets of a feature are the versions that its needs are about. -/
theorem Feature.mem_targets_iff (h : table.Unambiguous) {t : Target} :
    t ∈ f.targets table ↔
      ∃ need ∈ f.needs, ∃ b v, need.Covers table b v ∧ t = ⟨b.name, v⟩ := by
  rw [targets, mem_sortDistinct Target.before_strictOrder, List.mem_flatMap]
  simp only [Need.mem_targets_iff h]

/-- The marks of those targets of a feature that satisfy a condition. -/
theorem Feature.mem_vendorsOf_targets_iff (h : table.Unambiguous) {p : Target → Prop}
    {ts : List Target} (hts : ∀ t, t ∈ ts ↔ t ∈ f.targets table ∧ p t) {mark : String} :
    mark ∈ table.vendorsOf ts ↔ ∃ need ∈ f.needs, ∃ b v,
      need.Covers table b v ∧ p ⟨b.name, v⟩ ∧ b.vendorAt v = mark := by
  rw [BrowserTable.mem_vendorsOf]
  constructor
  · rintro ⟨t, ht, hvendor⟩
    obtain ⟨htarget, hp⟩ := (hts t).mp ht
    obtain ⟨need, hneed, b, v, hcovers, rfl⟩ := (mem_targets_iff h).mp htarget
    rw [BrowserTable.vendorFor?_of_mem h hcovers.mem, Option.some.injEq] at hvendor
    exact ⟨need, hneed, b, v, hcovers, hp, hvendor⟩
  · rintro ⟨need, hneed, b, v, hcovers, hp, hvendor⟩
    have htarget := (mem_targets_iff h).mpr ⟨need, hneed, b, v, hcovers, rfl⟩
    refine ⟨⟨b.name, v⟩, (hts _).mpr ⟨htarget, hp⟩, ?_⟩
    rw [BrowserTable.vendorFor?_of_mem h hcovers.mem, hvendor]

/-! ## Lists of marks -/

/-- Whether marks stand in the order of their sizes, longest first, and marks of one size
in the order of their characters. -/
def LongestFirst (marks : List String) : Prop :=
  marks.Pairwise fun a b =>
    b.utf8ByteSize < a.utf8ByteSize ∨ (a.utf8ByteSize = b.utf8ByteSize ∧ a < b)

theorem longestFirst_vendorsOf (table : BrowserTable) (ts : List Target) :
    LongestFirst (table.vendorsOf ts) := by
  refine (pairwise_sortDistinct longerFirst_strictOrder _).imp fun {a b} h => ?_
  simpa [longerFirst] using h

/-- No mark stands in such an order twice. -/
theorem LongestFirst.nodup {marks : List String} (h : LongestFirst marks) : marks.Nodup := by
  refine List.Pairwise.imp ?_ h
  rintro a b (hsize | ⟨_, hlt⟩) rfl
  · exact Nat.lt_irrefl _ hsize
  · exact String.lt_irrefl a hlt

namespace FeaturePlan

variable {mark : String}

/-- Every needed mark is one that some known version uses. -/
theorem add_subset (table : BrowserTable) (selection : Selection) (f : Feature) :
    (ofFeature table selection f).add ⊆ table.vendorsOf (f.targets table) :=
  BrowserTable.vendorsOf_subset (List.filter_subset_self _)

/-- A mark is useless when some known version uses it and it is not needed.  The lengths
of the two lists tell whether there is such a mark, since neither repeats one. -/
theorem mem_remove_iff : mark ∈ (ofFeature table selection f).remove ↔
    mark ∈ table.vendorsOf (f.targets table) ∧ mark ∉ (ofFeature table selection f).add := by
  have hsubset := add_subset table selection f
  have hadd := (longestFirst_vendorsOf table
    ((f.targets table).filter selection.contains)).nodup
  rw [ofFeature] at hsubset ⊢
  dsimp only at hsubset ⊢
  split
  · simp
  · rename_i hlength
    have hperm := (List.subperm_of_subset hadd hsubset).perm_of_length_le (Nat.le_of_not_lt hlength)
    rw [hperm.mem_iff]
    simp

theorem longestFirst_remove (table : BrowserTable) (selection : Selection) (f : Feature) :
    LongestFirst (ofFeature table selection f).remove := by
  rw [ofFeature]
  dsimp only
  split
  · exact List.Pairwise.filter _ (longestFirst_vendorsOf _ _)
  · exact List.Pairwise.nil

/-- What the plan for a feature says, read off the tables and the selection. -/
structure Means (table : BrowserTable) (selection : Selection) (f : Feature)
    (p : FeaturePlan) : Prop where
  feature_eq : p.feature = f
  /-- A mark is needed where a selected version that a need covers uses it. -/
  mem_add : ∀ mark, mark ∈ p.add ↔ ∃ need ∈ f.needs, ∃ b v, need.Covers table b v ∧
    ⟨b.name, v⟩ ∈ selection.targets ∧ b.vendorAt v = mark
  /-- It is useless where a version that a need covers uses it, but no selected one. -/
  mem_remove : ∀ mark, mark ∈ p.remove ↔
    (∃ need ∈ f.needs, ∃ b v, need.Covers table b v ∧ b.vendorAt v = mark) ∧ mark ∉ p.add
  longestFirst_add : LongestFirst p.add
  longestFirst_remove : LongestFirst p.remove
  nodup_add : p.add.Nodup
  nodup_remove : p.remove.Nodup

/-- What the plan for one feature says. -/
theorem means_ofFeature (h : table.Unambiguous) (selection : Selection) (f : Feature) :
    Means table selection f (ofFeature table selection f) where
  feature_eq := rfl
  mem_add mark := Feature.mem_vendorsOf_targets_iff h fun t => by
    rw [List.mem_filter, Selection.contains_iff]
  mem_remove mark := by
    have hall : ∀ t, t ∈ f.targets table ↔ t ∈ f.targets table ∧ True :=
      fun t => (iff_of_eq (and_true _)).symm
    rw [mem_remove_iff, Feature.mem_vendorsOf_targets_iff h hall]
    simp only [true_and]
  longestFirst_add := longestFirst_vendorsOf _ _
  longestFirst_remove := longestFirst_remove _ _ _
  nodup_add := (longestFirst_vendorsOf _ _).nodup
  nodup_remove := (longestFirst_remove _ _ _).nodup

/-- Whether one of some marks leads from the feature, which is a property, to a name. -/
def LeadsTo (p : FeaturePlan) (marks : List String) (name : String) : Prop :=
  p.feature.kind = .property ∧
    ∃ mark ∈ marks, name ∈ p.feature.spelling.names mark p.feature.name

theorem mem_propertyNames_iff {p : FeaturePlan} {marks : List String} {name : String} :
    name ∈ p.propertyNames marks ↔ p.LeadsTo marks name := by
  rw [propertyNames, LeadsTo]
  cases p.feature.kind <;> simp

end FeaturePlan

namespace Plan

/-- The useless properties are those that a useless mark leads to and no needed one. -/
theorem removesProperty_build_iff {features : List Feature} {name : String} :
    (build table features selection).removesProperty name = true ↔
      (∃ p ∈ (build table features selection).features, p.LeadsTo p.remove name) ∧
        ¬ ∃ p ∈ (build table features selection).features, p.LeadsTo p.add name := by
  rw [removesProperty, List.contains_eq_mem, decide_eq_true_eq, build]
  dsimp only
  rw [List.mem_filter, List.mem_flatMap, Bool.not_eq_true', List.contains_eq_mem,
    decide_eq_false_iff_not, List.mem_flatMap]
  simp only [FeaturePlan.mem_propertyNames_iff]

/-- A plan has one feature after the other, each with the marks that it needs and the
ones that have become useless, and the properties that have become useless with them. -/
theorem means_build (h : table.Unambiguous) (features : List Feature) (selection : Selection) :
    List.Forall₂ (FeaturePlan.Means table selection) features
        (build table features selection).features ∧
      ∀ name, (build table features selection).removesProperty name = true ↔
        (∃ p ∈ (build table features selection).features, p.LeadsTo p.remove name) ∧
          ¬ ∃ p ∈ (build table features selection).features, p.LeadsTo p.add name := by
  refine ⟨?_, fun name => removesProperty_build_iff⟩
  rw [build]
  exact List.forall₂_map_right_iff.mpr
    (List.forall₂_same.mpr fun f _ => FeaturePlan.means_ofFeature h selection f)

/-- A browser that changes its mark, and is also known as Presto. -/
def changingOpera : Browser where
  name := "opera"
  title := "Opera"
  aliases := ["presto"]
  vendor := "-o-"
  changes := [(⟨15, 0⟩, "-webkit-")]
  released := [⟨⟨16, 0⟩, 0.3⟩, ⟨⟨12, 1⟩, 0.9⟩]
  future := [⟨17, 0⟩]
  onlyWhenNamed := false

/-- A property that this browser has marked before and after the change. -/
def turningFeature : Feature where
  name := "transform"
  kind := .property
  needs := [⟨"Presto", ⟨12, 0⟩, some ⟨16, 0⟩⟩]
  properties := []
  values := []
  inTransitions := true

theorem unambiguous_changingOpera : BrowserTable.Unambiguous [changingOpera] where
  lower := by decide
  unique := by
    rintro b hb c hc _ _ _
    rw [List.mem_singleton.mp hb, List.mem_singleton.mp hc]

/-- Of the two marks only the one of the selected version is needed. -/
theorem means_build_changingOpera :
    let plan := build [changingOpera] [turningFeature] (Selection.empty.insert ⟨"opera", ⟨16, 0⟩⟩)
    plan.add "transform" = ["-webkit-"] ∧ plan.remove "transform" = ["-o-"] ∧
      List.Forall₂ (FeaturePlan.Means [changingOpera] plan.selection) [turningFeature]
        plan.features ∧ plan.removesProperty "-o-transform" = true := by
  have hmeans := means_build unambiguous_changingOpera [turningFeature]
    (Selection.empty.insert ⟨"opera", ⟨16, 0⟩⟩)
  refine ⟨by decide, by decide, hmeans.1, (hmeans.2 _).mpr ⟨?_, ?_⟩⟩
  · exact ⟨_, List.mem_singleton_self _, rfl, "-o-", by decide, by decide⟩
  · rintro ⟨p, hp, -, mark, hmark, hname⟩
    obtain rfl := List.mem_singleton.mp hp
    revert mark
    decide

end Plan
end VendorPrefixing
