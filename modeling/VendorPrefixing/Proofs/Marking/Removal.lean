import VendorPrefixing.Marking.Removal
import VendorPrefixing.Proofs.Feature.Stem
import VendorPrefixing.Proofs.Marking.Written
import VendorPrefixing.Proofs.Plan.Meaning
import VendorPrefixing.Proofs.Spelling.Bare

/-!
# What is removed

A declaration is removed for its property or for a marked name in its value.  What
an author has written without marks never is.  What marking has written is kept
under the plan that it was written for, and removed once no browser is selected.

Main results:

- Theorem `Plan.removesDeclaration_eq_false`: a plan keeps bare declarations and what
  it has made of them.
- Theorem `Plan.removesDeclaration_of_mem_allMarkedValues_eq_false`: what a plan keeps it
  also keeps with a marked value.
- Theorem `Plan.removesDeclaration_of_mem_allMarkedValues`: without selected browsers every
  marked value is removed.
- Theorem `Plan.removesProperty_of_mem_propertyForms`: and so is every marked property.
-/

namespace VendorPrefixing
namespace Plan

variable {selection : Selection} {plan : Plan} {vendor : Option String}
variable {d e : Declaration} {f g : FeaturePlan} {mark name property value : String}

/-! ## No browsers -/

/-- Without selected browsers no feature needs a mark. -/
theorem add_ofFeature_empty (f : Feature) :
    (FeaturePlan.ofFeature Browser.builtIn .empty f).add = [] := by
  have hnone : (f.targets Browser.builtIn).filter Selection.empty.contains = [] :=
    List.filter_eq_nil_iff.mpr fun _ _ => Bool.false_ne_true
  rw [FeaturePlan.ofFeature, hnone]
  rfl

/-- Without selected browsers every mark that a feature ever needs is useless. -/
theorem mem_remove_ofFeature_empty {f : Feature}
    (h : mark ∈ (FeaturePlan.ofFeature Browser.builtIn selection f).add) :
    mark ∈ (FeaturePlan.ofFeature Browser.builtIn .empty f).remove := by
  refine FeaturePlan.mem_remove_iff.mpr ⟨FeaturePlan.add_subset _ _ _ h, ?_⟩
  rw [add_ofFeature_empty]
  exact List.not_mem_nil

theorem vendors_empty : (ofSelection .empty).vendors = [] :=
  rfl

/-! ## Properties -/

theorem removesProperty_iff : (ofSelection selection).removesProperty property = true ↔
    (∃ f ∈ (ofSelection selection).features, property ∈ f.propertyNames f.remove) ∧
      ∀ f ∈ (ofSelection selection).features, property ∉ f.propertyNames f.add := by
  rw [ofSelection, removesProperty_build_iff]
  simp only [FeaturePlan.mem_propertyNames_iff, not_exists, not_and]

theorem mem_marks_of_mem_remove (h : f ∈ (ofSelection selection).features)
    (hmark : mark ∈ f.remove) : mark ∈ Browser.marks := by
  obtain ⟨g, _, rfl⟩ := mem_features.mp h
  exact Browser.mem_marks_of_mem_vendorsOf (FeaturePlan.mem_remove_iff.mp hmark).1

/-- A bare property is never removed. -/
theorem removesProperty_of_isBare (h : IsBare property) :
    (ofSelection selection).removesProperty property = false := by
  rw [← Bool.not_eq_true, removesProperty_iff]
  rintro ⟨⟨f, hf, hnames⟩, -⟩
  obtain ⟨mark, hmark, hlead⟩ := exists_isPrefix_of_mem_propertyNames hnames
  exact isBare_iff.mp h mark (mem_marks_of_mem_remove hf hmark) hlead.isInfix

/-- A property that a plan writes is not removed under it. -/
theorem removesProperty_of_mem_propertyForms
    (h : e ∈ (ofSelection selection).propertyForms vendor d) :
    (ofSelection selection).removesProperty e.property = false := by
  obtain ⟨f, hf, hnames⟩ := mem_propertyNames_of_mem_propertyForms h
  rw [← Bool.not_eq_true, removesProperty_iff]
  exact fun hremoved => hremoved.2 f hf hnames

theorem propertyNames_subset {marks others : List String} (hfg : f.feature = g.feature)
    (h : marks ⊆ others) : f.propertyNames marks ⊆ g.propertyNames others := by
  intro property hnames
  rw [FeaturePlan.propertyNames] at hnames ⊢
  rw [← hfg]
  split at hnames
  · obtain ⟨mark, hmark, hname⟩ := List.mem_flatMap.mp hnames
    exact List.mem_flatMap.mpr ⟨mark, h hmark, hname⟩
  · exact hnames
  · exact hnames

/-- Without selected browsers every property that a plan writes is removed. -/
theorem removesProperty_empty_of_mem_propertyForms
    (h : e ∈ (ofSelection selection).propertyForms vendor d) :
    (ofSelection .empty).removesProperty e.property = true := by
  obtain ⟨f, hf, hnames⟩ := mem_propertyNames_of_mem_propertyForms h
  obtain ⟨g, hg, rfl⟩ := mem_features.mp hf
  refine removesProperty_iff.mpr ⟨⟨_, mem_features.mpr ⟨g, hg, rfl⟩, ?_⟩, fun f hf => ?_⟩
  · exact propertyNames_subset rfl (fun _ h => mem_remove_ofFeature_empty h) hnames
  · obtain ⟨g, hg, rfl⟩ := mem_features.mp hf
    rw [add_ofFeature_empty, FeaturePlan.propertyNames]
    split <;> exact List.not_mem_nil

/-! ## Values -/

theorem mem_soughtFeatures (h : f ∈ (ofSelection selection).featuresIn property) :
    f.feature ∈ Feature.soughtFeatures ∧
      f.feature.matcher? = some (.ofNames f.feature.searched) := by
  obtain ⟨hmem, hkind⟩ := mem_featuresIn.mp h
  have hregular := regular_of_mem_features hmem
  have hmatcher : f.feature.matcher? = some (.ofNames f.feature.searched) := by
    rcases hkind with ⟨hkind, _⟩ | ⟨_, hkind, htransitions⟩
    · rw [Feature.matcher?, hkind]
    · rw [Feature.matcher?, hkind, Feature.searched_of_nil (hregular.values_eq_nil hkind)]
      exact if_pos htransitions
  obtain ⟨g, hg, rfl⟩ := mem_features.mp hmem
  refine ⟨List.mem_filter.mpr ⟨hg, ?_⟩, hmatcher⟩
  exact Option.isSome_of_eq_some hmatcher

/-- What a matcher for marked forms finds is a marked name. -/
theorem exists_of_finds_removeMatcher? (h : f.removeMatcher?.any (·.finds value) = true) :
    ∃ mark ∈ f.remove, ∃ name ∈ f.feature.spelling.valueNames mark f.feature.searched,
      Stands true name.toList value.toList := by
  rw [FeaturePlan.removeMatcher?] at h
  split at h
  · obtain ⟨name, hname, hstands⟩ := Matcher.exists_standsAt_of_finds h
    obtain ⟨mark, hmark, hmem⟩ := List.mem_flatMap.mp (Matcher.mem_names.mp hname)
    exact ⟨mark, hmark, name, hmem, exists_standsAt_iff.mp hstands⟩
  · cases h

/-- A matcher for marked forms finds every marked name. -/
theorem finds_removeMatcher? (hf : f ∈ (ofSelection selection).featuresIn property)
    (hmark : mark ∈ f.remove)
    (hname : name ∈ f.feature.spelling.valueNames mark f.feature.searched)
    (hstands : Stands true name.toList value.toList) :
    f.removeMatcher?.any (·.finds value) = true := by
  obtain ⟨hsought, hmatcher⟩ := mem_soughtFeatures hf
  have hne : f.remove.isEmpty = false := List.isEmpty_eq_false_iff.mpr (List.ne_nil_of_mem hmark)
  rw [FeaturePlan.removeMatcher?, hmatcher, hne]
  obtain ⟨place, hplace⟩ := exists_standsAt_iff.mpr hstands
  refine Matcher.finds_of_standsAt (fun other hother => ?_)
    (List.mem_flatMap.mpr ⟨mark, hmark, hname⟩) hplace
  obtain ⟨mark, hmark, hother⟩ := List.mem_flatMap.mp hother
  exact Feature.isWord_of_mem_valueNames hsought
    (mem_marks_of_mem_remove (mem_featuresIn.mp hf).1 hmark) hother

/-- The names that marking writes are the ones that are looked for. -/
theorem valueNames_subset_searched {m : Matcher}
    (hmatcher : f.feature.matcher? = some (.ofNames f.feature.searched))
    (hm : f.feature.matcher? = some m) :
    f.feature.spelling.valueNames mark m.names ⊆
      f.feature.spelling.valueNames mark f.feature.searched := by
  rw [hmatcher] at hm
  obtain rfl := Option.some.inj hm
  exact Spelling.valueNames_subset fun _ hname => Matcher.mem_names.mp hname

/-- Marking one feature in a value writes marked names of the feature and directions. -/
theorem edited_of_mem_values {m : Matcher} {marked : String}
    (hf : f ∈ (ofSelection selection).featuresIn property) (hm : f.feature.matcher? = some m)
    (hfinds : m.finds value = true) (hmarked : marked ∈ f.feature.spelling.values m mark value) :
    marked = value ∨ ∃ edits news, Edited edits true value.toList marked.toList news ∧
      ∀ new ∈ news,
        (∃ name ∈ f.feature.spelling.valueNames mark f.feature.searched, new = name.toList) ∨
          ∃ old, Gradient.Turns mark old new := by
  obtain ⟨hsought, hmatcher⟩ := mem_soughtFeatures hf
  have hregular := Feature.regular_of_mem_soughtFeatures hsought
  rcases Spelling.edited_values (Feature.mem_of_spelling_display hregular hm) hfinds hmarked with
    heq | ⟨news, hedited, -⟩
  · exact .inl heq
  · refine .inr ⟨_, news, hedited, fun new hnew => ?_⟩
    obtain ⟨old, ⟨_, _, _, name, hname, rfl⟩ | ⟨_, hturns⟩⟩ := hedited.exists_edits hnew
    · exact .inl ⟨name, valueNames_subset_searched hmatcher hm hname, rfl⟩
    · exact .inr ⟨old, hturns⟩

/-- A word that stands alone in what marking one feature makes of a value has stood in
the value, or is a marked name of the feature, or stands in a direction. -/
theorem stands_cases_of_mem_values {m : Matcher} {marked : String} {word : List Char}
    (hf : f ∈ (ofSelection selection).featuresIn property) (hmark : mark ∈ f.add)
    (hm : f.feature.matcher? = some m) (hfinds : m.finds value = true)
    (hmarked : marked ∈ f.feature.spelling.values m mark value) (hword : AreWord word)
    (hstands : Stands true word marked.toList) :
    Stands true word value.toList ∨
      (∃ name ∈ f.feature.spelling.valueNames mark f.feature.searched, word = name.toList) ∨
        ∃ old new, Gradient.Turns mark old new ∧ Stands true word new := by
  have hmarks := mem_marks_of_mem_add (mem_featuresIn.mp hf).1 hmark
  have hwords : ∀ name ∈ f.feature.spelling.valueNames mark f.feature.searched,
      AreWord name.toList := fun name hname =>
    (Feature.isWord_of_mem_valueNames (mem_soughtFeatures hf).1 hmarks hname).areWord
  rcases edited_of_mem_values hf hm hfinds hmarked with rfl | ⟨edits, news, hedited, hnews⟩
  · exact .inl hstands
  have hlast : ∀ new ∈ news, ∃ c, new.getLast? = some c ∧ Word.isSeparator c = false := by
    intro new hnew
    rcases hnews new hnew with ⟨name, hname, rfl⟩ | ⟨old, hturns⟩
    · exact (hwords name hname).getLast?
    · exact (Gradient.isDirection_of_turns hturns).getLast?
  rcases hedited.stands_cases hword hlast hstands with hstands | ⟨new, hnew, hstands⟩
  · exact .inl hstands
  rcases hnews new hnew with ⟨name, hname, rfl⟩ | ⟨old, hturns⟩
  · exact .inr (.inl ⟨name, hname, hstands.eq_of_areWord (hwords name hname)⟩)
  · exact .inr (.inr ⟨old, new, hturns, hstands⟩)

/-- A name that stands alone in a marked value has stood in the value, or is a marked
name of a feature that needs the mark, or a part of a direction. -/
theorem exists_of_stands {features : List FeaturePlan} {marked : String} {word : List Char}
    (hfeatures : ∀ f ∈ features, f ∈ (ofSelection selection).featuresIn property)
    (hword : AreWord word) (h : marked ∈ markedValues features mark value)
    (hstands : Stands true word marked.toList) :
    Stands true word value.toList ∨ (∃ f ∈ features, mark ∈ f.add ∧
      ∃ name ∈ f.feature.spelling.valueNames mark f.feature.searched, word = name.toList) ∨
        ∃ direction, Gradient.IsDirection direction ∧ word <:+: direction := by
  revert hstands
  refine forall_mem_markedValues (p := fun w => Stands true word w.toList → _) .inl ?_ marked h
  intro f hf hmark m hm v hv hfinds w hw hstands
  rcases stands_cases_of_mem_values (hfeatures f hf) hmark hm hfinds hw hword hstands with
    hstands | ⟨name, hname, heq⟩ | ⟨old, new, hturns, hstands⟩
  · exact hv hstands
  · exact .inr (.inl ⟨f, hf, hmark, name, hname, heq⟩)
  · exact .inr (.inr ⟨new, Gradient.isDirection_of_turns hturns, hstands.isInfix⟩)

/-- In a marked value stands a marked name of a feature that needs the mark. -/
theorem exists_stands_of_mem_markedValues {features : List FeaturePlan} {marked : String}
    (hfeatures : ∀ f ∈ features, f ∈ (ofSelection selection).featuresIn property)
    (h : marked ∈ markedValues features mark value) :
    ∃ f ∈ features, mark ∈ f.add ∧
      ∃ name ∈ f.feature.spelling.valueNames mark f.feature.searched,
        Stands true name.toList marked.toList := by
  refine Or.resolve_left (forall_mem_markedValues (p := fun w => w = value ∨
    ∃ f ∈ features, mark ∈ f.add ∧
      ∃ name ∈ f.feature.spelling.valueNames mark f.feature.searched,
        Stands true name.toList w.toList) (.inl rfl) ?_ marked h) (markedValues_ne h)
  intro f hf hmark m hm v hv hfinds w hw
  obtain ⟨hsought, hmatcher⟩ := mem_soughtFeatures (hfeatures f hf)
  have hregular := Feature.regular_of_mem_soughtFeatures hsought
  rcases Spelling.edited_values (Feature.mem_of_spelling_display hregular hm) hfinds hw with
    rfl | ⟨news, hedited, name, hname, hmem⟩
  · exact hv
  · exact .inr ⟨f, hf, hmark, name, valueNames_subset_searched hmatcher hm hname,
      hedited.stands hmem⟩

/-- The features in a value are features that may stand there. -/
theorem mem_featuresIn_of_mem_featuresOf (h : f ∈ plan.featuresOf d) :
    f ∈ plan.featuresIn (unmarked d.property) :=
  (List.mem_filter.mp h).1

/-- A bare value holds no useless marked name. -/
theorem not_any_removeMatcher?_of_isBare (hbare : IsBare d.value) :
    ((ofSelection selection).featuresIn (unmarked d.property)).any
      (fun f => f.removeMatcher?.any (·.finds d.value)) = false := by
  rw [List.any_eq_false]
  intro g hg hfinds
  obtain ⟨other, hother, name, hname, hstands⟩ := exists_of_finds_removeMatcher? hfinds
  have hmarks := mem_marks_of_mem_remove (mem_featuresIn.mp hg).1 hother
  have hmarked := Spelling.isPrefix_of_mem_valueNames hname
  exact isBare_iff.mp hbare other hmarks (hmarked.isInfix.trans hstands.isInfix)

/-- A value without useless marked names holds none after it has been marked. -/
theorem not_any_removeMatcher?_of_mem_allMarkedValues
    (h : ((ofSelection selection).featuresIn (unmarked d.property)).any
      (fun f => f.removeMatcher?.any (·.finds d.value)) = false)
    (hvalue : value ∈ (ofSelection selection).allMarkedValues vendor d) :
    ((ofSelection selection).featuresIn (unmarked d.property)).any
      (fun f => f.removeMatcher?.any (·.finds value)) = false := by
  rw [List.any_eq_false] at h ⊢
  intro g hg hfinds
  obtain ⟨other, hother, name, hname, hstands⟩ := exists_of_finds_removeMatcher? hfinds
  obtain ⟨hsought, -⟩ := mem_soughtFeatures hg
  have hmarks := mem_marks_of_mem_remove (mem_featuresIn.mp hg).1 hother
  obtain ⟨mark, hmark, hvalue⟩ := List.mem_flatMap.mp hvalue
  rcases exists_of_stands (fun f hf => mem_featuresIn_of_mem_featuresOf hf)
      (Feature.isWord_of_mem_valueNames hsought hmarks hname).areWord hvalue hstands with
    hstands | ⟨f, hf, hadd, written, hwritten, heq⟩ | ⟨direction, hdirection, hpart⟩
  · exact h g hg (finds_removeMatcher? hg hother hname hstands)
  · -- The name belongs to one feature and one mark, which is needed and useless.
    obtain rfl := String.toList_injective heq
    have hf := mem_featuresIn_of_mem_featuresOf hf
    obtain ⟨hfg, rfl⟩ := Feature.eq_of_mem_valueNames (mem_soughtFeatures hf).1 hsought
      (mem_marks_of_mem_add (mem_featuresIn.mp hf).1 hadd) hmarks hwritten hname
    obtain ⟨_, _, rfl⟩ := mem_features.mp (mem_featuresIn.mp hf).1
    obtain ⟨_, _, rfl⟩ := mem_features.mp (mem_featuresIn.mp hg).1
    obtain rfl : _ = _ := hfg
    exact FeaturePlan.remove_disjoint hother hadd
  · have hdirection := isBare_iff.mp hdirection.isBare other hmarks
    rw [String.toList_ofList] at hdirection
    have hmarked := Spelling.isPrefix_of_mem_valueNames hname
    exact hdirection (hmarked.isInfix.trans hpart)

/-! ## Declarations -/

/-- A declaration that a plan keeps is kept with every marked value. -/
theorem removesDeclaration_of_mem_allMarkedValues_eq_false
    (h : (ofSelection selection).removesDeclaration d = false)
    (hvalue : value ∈ (ofSelection selection).allMarkedValues vendor d) :
    (ofSelection selection).removesDeclaration { d with value := value } = false := by
  rw [removesDeclaration, Bool.or_eq_false_iff] at h ⊢
  exact ⟨h.1, not_any_removeMatcher?_of_mem_allMarkedValues (d := d) h.2 hvalue⟩

/-- A plan keeps declarations with bare values and everything that it makes of
them. -/
theorem removesDeclaration_eq_false (vendor : Option String)
    (hproperty : (ofSelection selection).removesProperty d.property = false)
    (hbare : IsBare d.value)
    (hvalue : value = d.value ∨ value ∈ (ofSelection selection).allMarkedValues vendor d) :
    (ofSelection selection).removesDeclaration { d with value := value } = false := by
  have hkept : (ofSelection selection).removesDeclaration d = false := by
    rw [removesDeclaration, Bool.or_eq_false_iff]
    exact ⟨hproperty, not_any_removeMatcher?_of_isBare hbare⟩
  rcases hvalue with rfl | hvalue
  · exact hkept
  · exact removesDeclaration_of_mem_allMarkedValues_eq_false hkept hvalue

/-- Without selected browsers every declaration with a marked value is removed. -/
theorem removesDeclaration_of_mem_allMarkedValues
    (h : value ∈ (ofSelection selection).allMarkedValues vendor d) :
    (ofSelection .empty).removesDeclaration { d with value := value } = true := by
  obtain ⟨mark, hmark, hvalue⟩ := List.mem_flatMap.mp h
  obtain ⟨f, hf, hadd, name, hname, hstands⟩ :=
    exists_stands_of_mem_markedValues (fun f hf => mem_featuresIn_of_mem_featuresOf hf) hvalue
  obtain ⟨hmem, hkind⟩ := mem_featuresIn.mp (mem_featuresIn_of_mem_featuresOf hf)
  obtain ⟨g, hg, rfl⟩ := mem_features.mp hmem
  have hsame : FeaturePlan.ofFeature Browser.builtIn .empty g ∈
      (ofSelection .empty).featuresIn (unmarked d.property) :=
    mem_featuresIn.mpr ⟨mem_features.mpr ⟨g, hg, rfl⟩, hkind⟩
  rw [removesDeclaration, Bool.or_eq_true, List.any_eq_true]
  exact .inr ⟨_, hsame, finds_removeMatcher? hsame (mem_remove_ofFeature_empty hadd) hname hstands⟩

end Plan
end VendorPrefixing
