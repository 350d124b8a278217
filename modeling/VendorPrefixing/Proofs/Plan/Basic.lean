import VendorPrefixing.Proofs.Feature.Table

/-!
# Plans for the built-in tables

Main results:

- Theorem `Plan.feature?_eq_none_of_head?`: a name that begins with a hyphen is no
  feature.
- Theorem `Plan.featuresIn_eq`: in most properties computed lengths are the only
  feature to look for.
- Theorem `Plan.mem_marks_of_mem_add`: every mark that a feature needs is one of four.
-/

namespace VendorPrefixing

/-- A text begins with a hyphen if it begins with a mark. -/
theorem head?_of_isPrefix_mark {mark s : String} (hmark : mark ∈ Browser.marks)
    (h : mark.toList <+: s.toList) : s.toList.head? = some '-' := by
  obtain ⟨rest, hrest⟩ := h
  have hhead := head?_of_mem_marks mark hmark
  rw [← hrest, List.head?_append, hhead]
  rfl

theorem markLength?_append_of_mem_marks : ∀ mark ∈ Browser.marks, ∀ rest,
    markLength? (mark.toList ++ rest) = some mark.toList.length := by
  intro mark hmark rest
  simp only [Browser.marks, List.mem_cons, List.not_mem_nil, or_false] at hmark
  rcases hmark with rfl | rfl | rfl | rfl <;> rfl

/-- The mark that a name begins with is read off it. -/
theorem vendorOf?_of_isPrefix_mark {mark s : String} (hmark : mark ∈ Browser.marks)
    (h : mark.toList <+: s.toList) : vendorOf? s = some mark := by
  obtain ⟨rest, hrest⟩ := h
  rw [vendorOf?, ← hrest, markLength?_append_of_mem_marks mark hmark, Option.map_some,
    List.take_left, String.ofList_toList]

/-- A name without a hyphen at its front is its own standard property. -/
theorem unmarked_eq_self {property : String} (h : property.toList.head? ≠ some '-') :
    unmarked property = property := by
  have hnone := vendorOf?_eq_none h
  rw [vendorOf?, Option.map_eq_none_iff] at hnone
  rw [unmarked, hnone]

namespace Plan

variable {selection : Selection} {f : FeaturePlan} {name property mark : String}

/-- The features of a plan are the built-in ones. -/
theorem mem_features : f ∈ (ofSelection selection).features ↔
    ∃ g ∈ Feature.builtIn, FeaturePlan.ofFeature Browser.builtIn selection g = f :=
  List.mem_map

theorem regular_of_mem_features (h : f ∈ (ofSelection selection).features) :
    f.feature.Regular := by
  obtain ⟨g, hg, rfl⟩ := mem_features.mp h
  exact Feature.regular_of_mem_builtIn g hg

/-- Every mark that a feature needs is one of four. -/
theorem mem_marks_of_mem_add (h : f ∈ (ofSelection selection).features) (hmark : mark ∈ f.add) :
    mark ∈ Browser.marks := by
  obtain ⟨g, _, rfl⟩ := mem_features.mp h
  exact Browser.mem_marks_of_mem_vendorsOf hmark

theorem mem_marks_of_mem_vendors (h : mark ∈ (ofSelection selection).vendors) :
    mark ∈ Browser.marks :=
  Browser.mem_marks_of_mem_vendorsOf h

/-- Every mark that a feature needs is one of a selected browser. -/
theorem mem_vendors_of_mem_add (h : f ∈ (ofSelection selection).features) (hmark : mark ∈ f.add) :
    mark ∈ (ofSelection selection).vendors := by
  obtain ⟨g, _, rfl⟩ := mem_features.mp h
  refine BrowserTable.vendorsOf_subset (fun target htarget => ?_) hmark
  exact Selection.contains_iff.mp (List.mem_filter.mp htarget).2

/-! ## Looking features up -/

theorem mem_features_of_feature? {plan : Plan} (h : plan.feature? name = some f) :
    f ∈ plan.features ∧ f.feature.name = name := by
  refine ⟨List.mem_reverse.mp (List.mem_of_find?_eq_some h), ?_⟩
  have hname := List.find?_some h
  exact beq_iff_eq.mp hname

/-- A name that begins with a hyphen is no feature. -/
theorem feature?_eq_none_of_head? (h : name.toList.head? = some '-') :
    (ofSelection selection).feature? name = none := by
  cases hf : (ofSelection selection).feature? name with
  | none => rfl
  | some f =>
    obtain ⟨hmem, rfl⟩ := mem_features_of_feature? hf
    exact absurd h (regular_of_mem_features hmem).head?_ne

/-- A built-in feature with a name of its own is found by that name. -/
theorem feature?_eq_some {g : Feature} (hmem : g ∈ Feature.builtIn)
    (hunique : ∀ f ∈ Feature.builtIn, f.name = g.name → f = g) :
    (ofSelection selection).feature? g.name =
      some (FeaturePlan.ofFeature Browser.builtIn selection g) := by
  cases hf : (ofSelection selection).feature? g.name with
  | none =>
    have hg : FeaturePlan.ofFeature Browser.builtIn selection g ∈
        (ofSelection selection).features := mem_features.mpr ⟨g, hmem, rfl⟩
    have hnone := List.find?_eq_none.mp hf _ (List.mem_reverse.mpr hg)
    exact absurd (beq_self_eq_true g.name) hnone
  | some f =>
    obtain ⟨hfeature, hname⟩ := mem_features_of_feature? hf
    obtain ⟨h, hh, rfl⟩ := mem_features.mp hfeature
    rw [hunique h hh hname]

/-- A feature to look for in a property is a value that may stand there or a
property inside a list of transitions. -/
theorem mem_featuresIn {plan : Plan} : f ∈ plan.featuresIn property ↔
    f ∈ plan.features ∧
      ((f.feature.kind = .value ∧ f.feature.appliesTo property = true) ∨
        ((property = "transition" ∨ property = "transition-property") ∧
          f.feature.kind = .property ∧ f.feature.inTransitions = true)) := by
  have hbase : f ∈ plan.valueFeatures.filter (·.feature.appliesTo property) ↔
      f ∈ plan.features ∧ f.feature.kind = .value ∧ f.feature.appliesTo property = true := by
    rw [valueFeatures, List.mem_filter, List.mem_filter, beq_iff_eq, and_assoc]
  rw [featuresIn]
  split
  · rename_i h
    rw [Bool.or_eq_true, decide_eq_true_eq, decide_eq_true_eq] at h
    rw [List.mem_append, hbase, transitionFeatures, List.mem_filter, Bool.and_eq_true, beq_iff_eq,
      ← and_or_left]
    simp only [h, true_and]
  · rename_i h
    rw [Bool.or_eq_true, decide_eq_true_eq, decide_eq_true_eq] at h
    rw [hbase]
    simp only [h, false_and, or_false]

/-- In most properties computed lengths are the only feature to look for. -/
theorem featuresIn_eq (hvalues : property ∉ Feature.valueProperties)
    (htransition : property ≠ "transition") (hproperty : property ≠ "transition-property") :
    (ofSelection selection).featuresIn property =
      [FeaturePlan.ofFeature Browser.builtIn selection Feature.computedLength] := by
  have hfilter := Feature.filter_appliesTo hvalues
  rw [featuresIn, if_neg (by simp [htransition, hproperty]), valueFeatures, ofSelection, build,
    List.filter_map, List.filter_map]
  exact congrArg (List.map (FeaturePlan.ofFeature Browser.builtIn selection)) hfilter

end Plan
end VendorPrefixing
