import VendorPrefixing.Proofs.Marking.Overwriting
import VendorPrefixing.Proofs.Marking.Value

/-!
# What the passes write

The declarations of a block after a pass, and where each of them comes from.

Main results:

- Theorem `Plan.mem_propertyNames_of_mem_propertyForms`: the property pass writes
  names that the needed marks of a feature lead to.
- Theorem `Plan.mem_declarations_markValuesIn`: the value pass keeps a declaration or
  puts a marked value in its place.
- Theorem `Plan.exists_mark_of_mem_allMarkedValues`: a marked value holds the mark of a
  selected browser.
-/

namespace VendorPrefixing
namespace Plan

open Node (declarations)

variable {selection : Selection} {plan : Plan} {vendor : Option String}
variable {d e : Declaration} {ns : List Node}

/-! ## Properties -/

theorem mem_propertyForms_iff :
    e ∈ plan.propertyForms vendor d ↔
      ∃ f, plan.feature? d.property = some f ∧ f.feature.kind = .property ∧
        ∃ mark ∈ f.add, isReadBy vendor mark = true ∧ plan.isClaimed mark d.value = false ∧
          ∃ form ∈ f.feature.spelling.forms mark d.property d.value,
            e = ⟨form.1, form.2, d.position⟩ := by
  rw [propertyForms]
  cases plan.feature? d.property with
  | none => simp
  | some f =>
    by_cases hkind : f.feature.kind = .property
    · simp only [hkind, if_true, List.mem_flatMap, Option.some.injEq, true_and, exists_eq_left']
      refine exists_congr fun mark => and_congr_right fun _ => ?_
      split
      · rename_i hfits
        rw [Bool.and_eq_true, Bool.not_eq_true'] at hfits
        simp [hfits, eq_comm]
      · rename_i hfits
        rw [Bool.and_eq_true, Bool.not_eq_true', not_and] at hfits
        simp only [List.not_mem_nil, false_iff]
        rintro ⟨hread, hclaimed, _⟩
        exact hfits hread hclaimed
    · simp [hkind]

/-- A form has one of the names that the needed marks of a feature lead to. -/
theorem mem_propertyNames_of_mem_propertyForms
    (h : e ∈ (ofSelection selection).propertyForms vendor d) :
    ∃ f ∈ (ofSelection selection).features, e.property ∈ f.propertyNames f.add := by
  obtain ⟨f, hf, hkind, mark, hmark, _, _, form, hform, rfl⟩ := mem_propertyForms_iff.mp h
  obtain ⟨hmem, hname⟩ := mem_features_of_feature? hf
  refine ⟨f, hmem, ?_⟩
  rw [FeaturePlan.propertyNames, hkind, hname]
  refine List.mem_flatMap.mpr ⟨mark, hmark, ?_⟩
  exact Spelling.mem_names_of_mem_forms
    (fun hfilter => hname ▸ Feature.name_eq_of_spelling_filter hfilter) hform

/-- The property names that marks lead to begin with one of them. -/
theorem exists_isPrefix_of_mem_propertyNames {f : FeaturePlan} {marks : List String}
    {property : String} (h : property ∈ f.propertyNames marks) :
    ∃ mark ∈ marks, mark.toList <+: property.toList := by
  rw [FeaturePlan.propertyNames] at h
  split at h
  · obtain ⟨mark, hmark, hnames⟩ := List.mem_flatMap.mp h
    exact ⟨mark, hmark, Spelling.isPrefix_of_mem_names hnames⟩
  · exact absurd h List.not_mem_nil
  · exact absurd h List.not_mem_nil

/-- A marked form starts with a hyphen. -/
theorem head?_of_mem_propertyForms (h : e ∈ (ofSelection selection).propertyForms vendor d) :
    e.property.toList.head? = some '-' := by
  obtain ⟨f, hf, hnames⟩ := mem_propertyNames_of_mem_propertyForms h
  obtain ⟨mark, hmark, hlead⟩ := exists_isPrefix_of_mem_propertyNames hnames
  exact head?_of_isPrefix_mark (mem_marks_of_mem_add hf hmark) hlead

/-- The value of a form is what its spelling makes of the value. -/
theorem exists_forms_of_mem_propertyForms (h : e ∈ plan.propertyForms vendor d) :
    ∃ (s : Spelling) (mark : String), ∃ form ∈ s.forms mark d.property d.value,
      form.2 = e.value := by
  obtain ⟨f, _, _, mark, _, _, _, form, hform, rfl⟩ := mem_propertyForms_iff.mp h
  exact ⟨f.feature.spelling, mark, form, hform, rfl⟩

/-! ## Values -/

/-- What stands in front of a declaration has one of its marked values. -/
theorem mem_allMarkedValues_of_mem_markValue (h : e ∈ (plan.markValue vendor d).1) :
    ∃ value ∈ plan.allMarkedValues vendor d, e = { d with value := value } := by
  cases hown : vendorOf? d.property with
  | none =>
    rw [markValue_of_unmarked hown] at h
    obtain ⟨value, hvalue, rfl⟩ := List.mem_map.mp h
    exact ⟨value, hvalue, rfl⟩
  | some own =>
    rw [markValue_of_marked hown] at h
    cases hlast : (plan.allMarkedValues vendor d).getLast? with
    | none =>
      rw [hlast] at h
      exact absurd h List.not_mem_nil
    | some last =>
      rw [hlast] at h
      obtain ⟨value, hvalue, rfl⟩ := List.mem_map.mp h
      exact ⟨value, List.dropLast_subset _ hvalue, rfl⟩

/-- A value pass keeps a declaration, or overwrites a marked property with a marked
value. -/
theorem markValue_snd_cases (plan : Plan) (vendor : Option String) (d : Declaration) :
    (plan.markValue vendor d = ([], d)) ∨
      (vendorOf? d.property = none ∧ (plan.markValue vendor d).2 = d) ∨
        ∃ value ∈ plan.allMarkedValues vendor d,
          (plan.markValue vendor d).2 = { d with value := value } := by
  cases hown : vendorOf? d.property with
  | none =>
    rw [markValue_of_unmarked hown]
    exact .inr (.inl ⟨rfl, rfl⟩)
  | some own =>
    rw [markValue_of_marked hown]
    cases hlast : (plan.allMarkedValues vendor d).getLast? with
    | none => exact .inl rfl
    | some last => exact .inr (.inr ⟨last, List.mem_of_getLast? hlast, rfl⟩)

theorem markValue_snd_eq_or (plan : Plan) (vendor : Option String) (d : Declaration) :
    (plan.markValue vendor d).2 = d ∨
      ∃ value ∈ plan.allMarkedValues vendor d,
        (plan.markValue vendor d).2 = { d with value := value } := by
  rcases plan.markValue_snd_cases vendor d with hsame | ⟨_, hsame⟩ | hvalue
  · exact .inl (congrArg Prod.snd hsame)
  · exact .inl hsame
  · exact .inr hvalue

/-- A value pass changes nothing but the value. -/
theorem exists_markValue_snd (plan : Plan) (vendor : Option String) (d : Declaration) :
    ∃ value, (plan.markValue vendor d).2 = { d with value := value } := by
  rcases plan.markValue_snd_eq_or vendor d with hsame | ⟨value, _, hvalue⟩
  · exact ⟨d.value, hsame⟩
  · exact ⟨value, hvalue⟩

theorem property_markValue_snd (plan : Plan) (vendor : Option String) (d : Declaration) :
    (plan.markValue vendor d).2.property = d.property := by
  obtain ⟨value, hvalue⟩ := exists_markValue_snd plan vendor d
  rw [hvalue]

/-- A declaration of a marked block is one that was there before the value pass,
or one with a marked value in its place. -/
theorem mem_declarations_markValuesIn (h : d ∈ declarations (plan.markValuesIn vendor ns)) :
    ∃ origin ∈ declarations ns,
      (d = origin ∧ (plan.markValue vendor d = ([], d) ∨ vendorOf? d.property = none)) ∨
        ∃ value ∈ plan.allMarkedValues vendor origin, d = { origin with value := value } := by
  obtain ⟨origin, horigin, hnew | rfl⟩ := Node.mem_declarations_weaveFrom h
  · exact ⟨origin, horigin, .inr (mem_allMarkedValues_of_mem_markValue hnew)⟩
  · refine ⟨origin, horigin, ?_⟩
    rcases plan.markValue_snd_cases vendor origin with hsame | ⟨hown, hsame⟩ | hvalue
    · rw [hsame]
      exact .inl ⟨rfl, .inl hsame⟩
    · rw [hsame]
      exact .inl ⟨rfl, .inr hown⟩
    · exact .inr hvalue

/-- Marking values keeps all properties of a block. -/
theorem any_property_markValuesIn {property : String}
    (h : (declarations ns).any (property == ·.property) = true) :
    (declarations (plan.markValuesIn vendor ns)).any (property == ·.property) = true := by
  refine Node.any_declarations_weaveFrom_of_mem (fun d hd => ?_) h
  rwa [property_markValue_snd]

/-- A marked value holds the mark of a selected browser. -/
theorem exists_mark_of_mem_allMarkedValues {value : String}
    (h : value ∈ (ofSelection selection).allMarkedValues vendor d) :
    ∃ mark ∈ (ofSelection selection).marksFor vendor d,
      value ∈ markedValues ((ofSelection selection).featuresOf d) mark d.value ∧
        Text.contains value mark = true := by
  obtain ⟨mark, hmark, hvalue⟩ := List.mem_flatMap.mp h
  refine ⟨mark, hmark, hvalue, contains_of_mem_markedValues (fun f hf => ?_) hvalue⟩
  exact regular_of_mem_features (mem_featuresIn.mp (List.mem_filter.mp hf).1).1

end Plan
end VendorPrefixing
