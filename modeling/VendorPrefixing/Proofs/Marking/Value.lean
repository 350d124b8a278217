import VendorPrefixing.Marking.Value
import VendorPrefixing.Proofs.Plan.Basic

/-!
# What marking a value leads to

Main results:

- Theorem `Plan.forall_mem_markedValues`: what every step of marking keeps holds of
  every marked value.
- Theorem `Plan.contains_of_mem_markedValues`: a marked value holds its mark.
- Theorem `Plan.marksFor_eq_nil`: a value that holds the mark of a selected browser
  takes no further mark.
- Theorem `Plan.calcMarked_of_mem_markedValues`: in most properties a marked value is
  the value with a mark in front of `calc`.
-/

namespace VendorPrefixing
namespace Plan

variable {selection : Selection} {features : List FeaturePlan} {mark value marked : String}

/-! ## Feature by feature -/

theorem mem_markFeature {values : List String} {f : FeaturePlan} :
    marked ∈ markFeature mark values f ↔
      (f.feature.matcher? = none ∧ marked ∈ values) ∨
        ∃ m, f.feature.matcher? = some m ∧ ∃ v ∈ values,
          (m.finds v = true ∧ marked ∈ f.feature.spelling.values m mark v) ∨
            (m.finds v = false ∧ marked = v) := by
  rw [markFeature]
  cases hm : f.feature.matcher? with
  | none => simp
  | some m =>
    simp only [List.mem_flatMap, reduceCtorEq, false_and, false_or, Option.some.injEq,
      exists_eq_left']
    constructor
    · rintro ⟨v, hv, h⟩
      split at h
      · rename_i hfinds
        exact ⟨v, hv, .inl ⟨hfinds, h⟩⟩
      · rename_i hfinds
        exact ⟨v, hv, .inr ⟨Bool.eq_false_iff.mpr hfinds, List.mem_singleton.mp h⟩⟩
    · rintro ⟨v, hv, ⟨hfinds, h⟩ | ⟨hfinds, rfl⟩⟩
      · refine ⟨v, hv, ?_⟩
        rw [if_pos hfinds]
        exact h
      · refine ⟨marked, hv, ?_⟩
        rw [hfinds]
        exact List.mem_singleton_self marked

/-- What every feature keeps holds after all of them. -/
theorem forall_mem_foldl_markFeature {p : String → Prop} {values : List String}
    (hvalues : ∀ v ∈ values, p v)
    (hstep : ∀ f ∈ features, ∀ m, f.feature.matcher? = some m → ∀ v, p v → m.finds v = true →
      ∀ w ∈ f.feature.spelling.values m mark v, p w) :
    ∀ w ∈ features.foldl (markFeature mark) values, p w := by
  induction features generalizing values with
  | nil => exact hvalues
  | cons f features ih =>
    refine ih (fun w hw => ?_) fun g hg => hstep g (List.mem_cons_of_mem f hg)
    rcases mem_markFeature.mp hw with ⟨_, hw⟩ | ⟨m, hm, v, hv, ⟨hfinds, hw⟩ | ⟨_, rfl⟩⟩
    · exact hvalues w hw
    · exact hstep f List.mem_cons_self m hm v (hvalues v hv) hfinds w hw
    · exact hvalues w hv

/-- What every step of marking keeps holds of every marked value. -/
theorem forall_mem_markedValues {p : String → Prop} (hvalue : p value)
    (hstep : ∀ f ∈ features, mark ∈ f.add → ∀ m, f.feature.matcher? = some m → ∀ v, p v →
      m.finds v = true → ∀ w ∈ f.feature.spelling.values m mark v, p w) :
    ∀ w ∈ markedValues features mark value, p w := by
  intro w hw
  refine @forall_mem_foldl_markFeature (features.filter (·.add.contains mark)) _ _ _
    (fun v hv => List.mem_singleton.mp hv ▸ hvalue) (fun f hf => ?_) w (List.mem_filter.mp hw).1
  obtain ⟨hf, hmark⟩ := List.mem_filter.mp hf
  exact hstep f hf (by simpa using hmark)

/-- A marked value holds its mark. -/
theorem contains_of_mem_markedValues (hregular : ∀ f ∈ features, f.feature.Regular)
    (h : marked ∈ markedValues features mark value) : Text.contains marked mark = true := by
  have hor := forall_mem_markedValues (p := fun w => w = value ∨ Text.contains w mark = true)
    (.inl rfl) (fun f hf _ m hm v hv hfinds w hw => ?_) marked h
  · exact hor.resolve_left (markedValues_ne h)
  · have hdisplay := Feature.mem_of_spelling_display (hregular f hf) hm
    rcases Spelling.contains_of_mem_values hdisplay hfinds hw with rfl | hcontains
    · exact hv
    · exact .inr hcontains

/-! ## Marks that are taken already -/

/-- A value that holds the mark of a selected browser takes no further mark. -/
theorem marksFor_eq_nil {plan : Plan} {vendor : Option String} {d : Declaration}
    (hmark : mark ∈ plan.vendors) (h : Text.contains d.value mark = true) :
    plan.marksFor vendor d = [] := by
  rw [marksFor, List.filter_eq_nil_iff]
  intro other _
  by_cases hother : mark = other
  · rw [← hother, h]
    simp
  · have hclaimed : plan.isClaimed other d.value = true := by
      rw [isClaimed, List.any_eq_true]
      exact ⟨mark, mem_others.mpr ⟨hmark, hother⟩, h⟩
    rw [hclaimed]
    simp

/-- A value is claimed by no other mark exactly where it lacks all other marks of selected
browsers. -/
theorem isClaimed_eq_false_iff {plan : Plan} : plan.isClaimed mark value = false ↔
    ∀ other ∈ plan.vendors, other ≠ mark → Text.contains value other = false := by
  simp only [isClaimed, List.any_eq_false, mem_others, and_imp, Bool.not_eq_true]

theorem mem_marksFor_iff {plan : Plan} {vendor : Option String} {d : Declaration} :
    mark ∈ plan.marksFor vendor d ↔
      mark ∈ plan.vendors ∧ isReadBy vendor mark = true ∧
        isReadBy (vendorOf? d.property) mark = true ∧ Text.contains d.value mark = false ∧
          plan.isClaimed mark d.value = false := by
  simp only [marksFor, List.mem_filter, Bool.and_eq_true, Bool.not_eq_true', and_assoc]

theorem mem_vendors_of_mem_marksFor {plan : Plan} {vendor : Option String} {d : Declaration}
    (h : mark ∈ plan.marksFor vendor d) : mark ∈ plan.vendors :=
  (List.mem_filter.mp h).1

/-! ## Computed lengths -/

theorem matcher?_computedLength :
    Feature.computedLength.matcher? = some (.ofNames ["calc"]) :=
  rfl

/-- Marking computed lengths puts the mark in front of `calc`. -/
theorem calcMarked_mark (value : String) (hne : (Matcher.ofNames ["calc"]).names ≠ []) :
    CalcMarked mark value ((Matcher.ofNames ["calc"]).mark mark value) := by
  refine Inserted.of_edited ((Matcher.edited_replace hne (mark ++ ·) value).mono ?_)
  rintro old new ⟨name, hname, rfl, rfl⟩
  rw [Matcher.mem_names, List.mem_singleton] at hname
  rw [hname, String.toList_append]
  exact ⟨rfl, rfl⟩

/-- In most properties a marked value is the value with a mark in front of `calc`. -/
theorem calcMarked_of_mem_markedValues {d : Declaration}
    (hhead : d.property.toList.head? ≠ some '-') (hvalues : d.property ∉ Feature.valueProperties)
    (htransition : d.property ≠ "transition") (hproperty : d.property ≠ "transition-property")
    (h : marked ∈ markedValues ((ofSelection selection).featuresOf d) mark d.value) :
    CalcMarked mark d.value marked := by
  rw [featuresOf, unmarked_eq_self hhead, featuresIn_eq hvalues htransition hproperty] at h
  have hplain : Feature.computedLength.spelling = .plain := by decide
  -- The only feature is looked for once, so its mark is put in at most once.
  have hfold : ∀ fs : List FeaturePlan, fs.Sublist
      [FeaturePlan.ofFeature Browser.builtIn selection Feature.computedLength] →
      ∀ w ∈ fs.foldl (markFeature mark) [d.value], CalcMarked mark d.value w := by
    intro fs hfs w hw
    rcases List.sublist_singleton.mp hfs with rfl | rfl
    · rw [List.foldl_nil, List.mem_singleton] at hw
      rw [hw]
      exact Inserted.refl _
    · rw [List.foldl_cons, List.foldl_nil] at hw
      rcases mem_markFeature.mp hw with ⟨hnone, _⟩ | ⟨m, hm, v, hv, ⟨hfinds, hw⟩ | ⟨_, rfl⟩⟩
      · rw [FeaturePlan.ofFeature, matcher?_computedLength] at hnone
        cases hnone
      · rw [FeaturePlan.ofFeature, matcher?_computedLength] at hm
        obtain rfl := Option.some.inj hm
        rw [FeaturePlan.ofFeature, hplain] at hw
        obtain rfl := List.mem_singleton.mp hv
        obtain rfl := List.mem_singleton.mp hw
        exact calcMarked_mark _ (Matcher.names_ne_nil_of_finds hfinds)
      · obtain rfl := List.mem_singleton.mp hv
        exact Inserted.refl _
  exact hfold _ ((List.filter_sublist).trans List.filter_sublist) marked (List.mem_filter.mp h).1

end Plan
end VendorPrefixing
