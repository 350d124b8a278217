import VendorPrefixing.Proofs.Marking.Written

/-!
# Adding twice

What has been added once is not added again.  The passes also go through the
declarations that they have written themselves.  A marked property is no feature,
a marked value takes no further mark, and what belongs in front of an old
declaration stands in its block.

Main results:

- Theorem `Plan.any_property_markIn`: a marked block has every marked property of its
  declarations.
- Theorem `Plan.any_pair_markIn`: a marked block has every marked value of its
  declarations.
- Theorem `Plan.addition_addition`: adding to a style sheet with everything that the
  plan needs changes and counts nothing.
-/

namespace VendorPrefixing
namespace Plan

open Node (declarations)

variable {selection : Selection} {plan : Plan} {vendor : Option String}
variable {d e : Declaration} {ns : List Node} {mark : String}

/-! ## Properties -/

/-- In the properties whose forms depend on their values, a marked value is the
value with a mark in front of `calc`. -/
theorem calcMarked_of_spelling {f : FeaturePlan} {value : String}
    (hf : (ofSelection selection).feature? d.property = some f)
    (hspelling : (∃ p, f.feature.spelling = .flex p) ∨ f.feature.spelling = .filter)
    (h : value ∈ markedValues ((ofSelection selection).featuresOf d) mark d.value) :
    CalcMarked mark d.value value := by
  obtain ⟨hmem, hname⟩ := mem_features_of_feature? hf
  have hhead := (regular_of_mem_features hmem).head?_ne
  rw [hname] at hhead
  rcases hspelling with ⟨p, hflex⟩ | hfilter
  · have hproperty : d.property = p.name := hname ▸ Feature.name_eq_of_spelling_flex hflex
    refine calcMarked_of_mem_markedValues hhead ?_ ?_ ?_ h
    · rw [hproperty]
      exact Feature.name_not_mem_valueProperties p
    · rw [hproperty]
      cases p <;> decide
    · rw [hproperty]
      cases p <;> decide
  · have hproperty : d.property = "filter" := hname ▸ Feature.name_eq_of_spelling_filter hfilter
    refine calcMarked_of_mem_markedValues hhead ?_ ?_ ?_ h
    · rw [hproperty]
      exact Feature.filter_not_mem_valueProperties
    · rw [hproperty]
      decide
    · rw [hproperty]
      decide

/-- What belongs in front of a declaration with a marked value belongs in front of
the declaration itself. -/
theorem exists_propertyForms_of_marked {value : String}
    (hvalue : value ∈ (ofSelection selection).allMarkedValues vendor d)
    (h : e ∈ (ofSelection selection).propertyForms vendor { d with value := value }) :
    ∃ form ∈ (ofSelection selection).propertyForms vendor d, form.property = e.property := by
  obtain ⟨f, hf, hkind, mark, hmark, hread, hclaimed, form, hform, rfl⟩ :=
    mem_propertyForms_iff.mp h
  obtain ⟨own, hown, hmarked, hcontains⟩ := exists_mark_of_mem_allMarkedValues hvalue
  -- Any other mark finds the value claimed.
  have hself : own = mark := by
    by_contra hne
    rw [isClaimed, List.any_eq_false] at hclaimed
    exact hclaimed own (mem_others.mpr ⟨mem_vendors_of_mem_marksFor hown, hne⟩) hcontains
  subst hself
  obtain ⟨-, -, -, -, hunclaimed⟩ := mem_marksFor_iff.mp hown
  have hnames : (f.feature.spelling.forms own d.property value).map Prod.fst =
      (f.feature.spelling.forms own d.property d.value).map Prod.fst :=
    Spelling.map_fst_forms_of_inserted
      (mem_marks_of_mem_add (mem_features_of_feature? hf).1 hmark)
      fun hspelling => calcMarked_of_spelling hf hspelling hmarked
  have hfst : form.1 ∈ (f.feature.spelling.forms own d.property d.value).map Prod.fst :=
    hnames ▸ List.mem_map_of_mem hform
  obtain ⟨other, hother, hfst⟩ := List.mem_map.mp hfst
  exact ⟨⟨other.1, other.2, d.position⟩, mem_propertyForms_iff.mpr
    ⟨f, hf, hkind, own, hmark, hread, hunclaimed, other, hother, rfl⟩, hfst⟩

/-- A declaration that is itself marked has no marked forms. -/
theorem not_head?_of_mem_propertyForms
    (h : e ∈ (ofSelection selection).propertyForms vendor d) :
    d.property.toList.head? ≠ some '-' := by
  intro hhead
  rw [propertyForms_of_unknown (feature?_eq_none_of_head? hhead)] at h
  exact List.not_mem_nil h

/-- A block with its marked properties lacks none of them. -/
theorem any_property_markPropertiesIn
    (hd : d ∈ declarations ((ofSelection selection).markPropertiesIn vendor ns))
    (he : e ∈ (ofSelection selection).propertyForms vendor d) :
    (declarations ((ofSelection selection).markPropertiesIn vendor ns)).any
      (e.property == ·.property) = true := by
  obtain ⟨origin, horigin, hnew | rfl⟩ := Node.mem_declarations_weaveFrom hd
  · exact absurd (head?_of_mem_propertyForms hnew) (not_head?_of_mem_propertyForms he)
  · exact Node.any_declarations_weaveFrom [] (fun _ => beq_self_eq_true _)
      (fun _ hx => hx) horigin he

/-- A marked block has every marked property of its declarations. -/
theorem any_property_markIn (hd : d ∈ declarations ((ofSelection selection).markIn vendor ns))
    (he : e ∈ (ofSelection selection).propertyForms vendor d) :
    (declarations ((ofSelection selection).markIn vendor ns)).any (e.property == ·.property) =
      true := by
  obtain ⟨origin, horigin, ⟨rfl, _⟩ | ⟨value, hvalue, rfl⟩⟩ := mem_declarations_markValuesIn hd
  · exact any_property_markValuesIn (any_property_markPropertiesIn horigin he)
  · obtain ⟨form, hform, hproperty⟩ := exists_propertyForms_of_marked hvalue he
    rw [← hproperty]
    exact any_property_markValuesIn (any_property_markPropertiesIn horigin hform)

/-- A marked block lacks no marked property. -/
theorem markPropertiesIn_markIn (selection : Selection) (vendor : Option String)
    (ns : List Node) :
    (ofSelection selection).markPropertiesIn vendor ((ofSelection selection).markIn vendor ns) =
      (ofSelection selection).markIn vendor ns :=
  Node.weaveFrom_eq_self (fun _ _ => rfl) fun _ hd _ he => any_property_markIn hd he

/-! ## Values -/

/-- A declaration with a marked value takes no further mark in it. -/
theorem markValue_of_marked_value {value : String}
    (hvalue : value ∈ (ofSelection selection).allMarkedValues vendor d) :
    (ofSelection selection).markValue vendor { d with value := value } =
      ([], { d with value := value }) := by
  obtain ⟨mark, hmark, _, hcontains⟩ := exists_mark_of_mem_allMarkedValues hvalue
  apply markValue_of_allMarkedValues_eq_nil
  rw [allMarkedValues, marksFor_eq_nil (mem_vendors_of_mem_marksFor hmark) hcontains]
  rfl

/-- A block with its marked values lacks none of them. -/
theorem any_pair_markValuesIn (hown : vendorOf? d.property = none) (hd : d ∈ declarations ns)
    (he : e ∈ (plan.markValue vendor d).1) :
    (declarations (plan.markValuesIn vendor ns)).any (e.pair == ·.pair) = true := by
  refine Node.any_declarations_weaveFrom [] (fun _ => beq_self_eq_true _)
    (fun other hother => ?_) hd he
  have hproperty : other.property = d.property := by
    rw [← property_of_mem_markValue he]
    exact (congrArg Prod.fst (beq_iff_eq.mp hother)).symm
  rw [markValue_of_unmarked (hproperty ▸ hown)]
  exact hother

/-- A marked block has every marked value of its declarations. -/
theorem any_pair_markIn (hd : d ∈ declarations ((ofSelection selection).markIn vendor ns))
    (he : e ∈ ((ofSelection selection).markValue vendor d).1) :
    (declarations ((ofSelection selection).markIn vendor ns)).any (e.pair == ·.pair) = true := by
  obtain ⟨origin, horigin, ⟨rfl, hsame | hown⟩ | ⟨value, hvalue, rfl⟩⟩ :=
    mem_declarations_markValuesIn hd
  · rw [hsame] at he
    exact absurd he List.not_mem_nil
  · exact any_pair_markValuesIn hown horigin he
  · rw [markValue_of_marked_value hvalue] at he
    exact absurd he List.not_mem_nil

/-- Marking values overwrites nothing in a marked block. -/
theorem markValue_snd_of_mem_markIn
    (hd : d ∈ declarations ((ofSelection selection).markIn vendor ns)) :
    ((ofSelection selection).markValue vendor d).2 = d := by
  obtain ⟨origin, _, ⟨rfl, hsame | hown⟩ | ⟨value, hvalue, rfl⟩⟩ :=
    mem_declarations_markValuesIn hd
  · rw [hsame]
  · rw [markValue_of_unmarked hown]
  · rw [markValue_of_marked_value hvalue]

/-- A marked block lacks no marked value. -/
theorem markValuesIn_markIn (selection : Selection) (vendor : Option String)
    (ns : List Node) :
    (ofSelection selection).markValuesIn vendor ((ofSelection selection).markIn vendor ns) =
      (ofSelection selection).markIn vendor ns :=
  Node.weaveFrom_eq_self (fun _ hd => markValue_snd_of_mem_markIn hd)
    fun _ hd _ he => any_pair_markIn hd he

/-! ## Style sheets -/

/-- Marking a marked block changes nothing. -/
theorem markIn_markIn (selection : Selection) (vendor : Option String) (ns : List Node) :
    (ofSelection selection).markIn vendor ((ofSelection selection).markIn vendor ns) =
      (ofSelection selection).markIn vendor ns := by
  rw [markIn, markPropertiesIn_markIn, markValuesIn_markIn]

/-- A style sheet with everything that the plan needs has all its copies. -/
theorem copyKeyframes_addMarks (plan : Plan) (n : Node) :
    plan.copyKeyframes (plan.addMarks n) = plan.addMarks n := by
  refine Node.copyAnimations_eq_self fun name hname mark hmark => ?_
  rw [animations_addMarks] at hname ⊢
  exact Node.mem_animations_copyAnimations hmark hname

/-- Adding twice is adding once. -/
theorem addMarks_addMarks (selection : Selection) (n : Node) :
    (ofSelection selection).addMarks ((ofSelection selection).addMarks n) =
      (ofSelection selection).addMarks n := by
  conv_lhs => rw [addMarks_eq, copyKeyframes_addMarks, addMarks_eq]
  rw [Node.mapContents_mapContents (ofSelection selection).onlyDeclarations_markIn, addMarks_eq]
  refine Node.mapContents_congr (p := fun _ _ => True) (fun vendor ns _ => ?_) none _
    fun _ _ => trivial
  exact markIn_markIn selection vendor ns

/-- Adding to a style sheet with everything that the plan needs changes and counts
nothing. -/
theorem addition_addition (selection : Selection) (n : Node) :
    (ofSelection selection).addition ((ofSelection selection).addition n).1 =
      (((ofSelection selection).addition n).1, .zero) := by
  have hcopied := copyKeyframes_addMarks (ofSelection selection) n
  have hadded := addMarks_addMarks selection n
  rw [addMarks, hcopied] at hadded
  rw [addition_fst, addition, hcopied, hadded, Nat.sub_self, Nat.sub_self]
  rfl

end Plan
end VendorPrefixing
