import VendorPrefixing.Feature.Table
import VendorPrefixing.Plan.Basic
import VendorPrefixing.Proofs.Spelling.Forms

/-!
# Facts about the built-in features

Main results:

- Theorem `Feature.regular_of_mem_builtIn`: names carry no mark.
- Theorem `Feature.filter_appliesTo`: in most properties computed lengths are the
  only feature that a value can hold.
-/

namespace VendorPrefixing

namespace Feature

/-- What the built-in features have in common. -/
structure Regular (f : Feature) : Prop where
  head?_ne : f.name.toList.head? ≠ some '-'
  values_eq_nil : f.kind = .property → f.values = []
  searched_eq : f.name = "display-flex" → f.searched = ["flex", "inline-flex"]

theorem regular_of_mem_builtIn : ∀ f ∈ builtIn, Regular f := by
  have htable : ∀ f ∈ builtIn, f.name.toList.head? ≠ some '-' ∧
      (f.kind = .property → f.values = []) ∧
        (f.name = "display-flex" → f.searched = ["flex", "inline-flex"]) := by
    decide +kernel
  intro f hf
  obtain ⟨hhead, hvalues, hsearched⟩ := htable f hf
  exact ⟨hhead, hvalues, hsearched⟩

/-! ## Spellings -/

variable {f : Feature}

theorem name_eq_of_spelling_display (h : f.spelling = .display) : f.name = "display-flex" := by
  rw [spelling] at h
  unfold Spelling.ofFeature at h
  split at h <;> first | assumption | cases h | (split at h <;> cases h)

theorem name_eq_of_spelling_filter (h : f.spelling = .filter) : f.name = "filter" := by
  rw [spelling] at h
  unfold Spelling.ofFeature at h
  split at h <;> first | assumption | cases h | (split at h <;> cases h)

theorem name_eq_of_spelling_flex {p : FlexProperty} (h : f.spelling = .flex p) :
    f.name = p.name := by
  rw [spelling] at h
  unfold Spelling.ofFeature at h
  split at h
  case h_12 =>
    split at h
    · rename_i q hq
      cases h
      have hname := List.find?_some hq
      exact (beq_iff_eq.mp hname).symm
    · cases h
  all_goals cases h

/-- The names a matcher of a regular feature is made of. -/
theorem names_of_matcher? (hregular : f.Regular) {m : Matcher} (h : f.matcher? = some m) :
    m = .ofNames f.searched ∧ f.kind ≠ .atRule := by
  rw [matcher?] at h
  split at h
  · rename_i hkind
    cases h
    exact ⟨rfl, by rw [hkind]; exact nofun⟩
  · rename_i hkind
    split at h
    · cases h
      refine ⟨?_, by rw [hkind]; exact nofun⟩
      rw [Matcher.single, searched_of_nil (hregular.values_eq_nil hkind)]
    · cases h
  · cases h

/-- Bare names of a feature with the spelling of `display`. -/
theorem mem_of_spelling_display (hregular : f.Regular) {m : Matcher} (hm : f.matcher? = some m)
    (h : f.spelling = .display) : ∀ name ∈ m.names, name ∈ ["flex", "inline-flex"] := by
  intro name hname
  rw [(names_of_matcher? hregular hm).1, Matcher.mem_names,
    hregular.searched_eq (name_eq_of_spelling_display h)] at hname
  exact hname

/-! ## Where values stand -/

/-- The feature of computed lengths. -/
def computedLength : Feature :=
  value "calc" calcNeeds ["*"] []

/-- The properties whose values hold other features than computed lengths. -/
def valueProperties : List String :=
  gradientProperties ++ ["display", "cursor"]

/-- A feature with properties of its own stands in no other one. -/
theorem appliesTo_eq_false {property : String} (hstar : "*" ∉ f.properties)
    (h : property ∉ f.properties) : f.appliesTo property = false := by
  rw [appliesTo, List.any_eq_false]
  intro p hp
  rw [Bool.or_eq_true, beq_iff_eq, beq_iff_eq]
  rintro (rfl | rfl)
  · exact hstar hp
  · exact h hp

theorem filter_kind_value :
    builtIn.filter (·.kind == .value) =
      gradients ++ [value "display-flex" flexboxNeeds ["display"] ["flex", "inline-flex"]] ++
        keywords :=
  rfl

/-- In most properties computed lengths are the only feature that a value can hold. -/
theorem filter_appliesTo {property : String} (h : property ∉ valueProperties) :
    (builtIn.filter (·.kind == .value)).filter (·.appliesTo property) = [computedLength] := by
  rw [valueProperties, List.mem_append, not_or] at h
  obtain ⟨hgradient, hothers⟩ := h
  have hstar : "*" ∉ gradientProperties := by decide
  have hdisplay : property ∉ ["display"] := fun hmem => hothers (List.mem_append_left ["cursor"] hmem)
  have hcursor : property ∉ ["cursor"] := fun hmem => hothers (List.mem_cons_of_mem "display" hmem)
  have hgradients : ∀ name, (value name gradientNeeds gradientProperties []).appliesTo property =
      false := fun name => appliesTo_eq_false hstar hgradient
  have hzoom : ∀ name, (value name zoomCursorNeeds ["cursor"] []).appliesTo property = false :=
    fun name => appliesTo_eq_false (show "*" ∉ ["cursor"] by decide) hcursor
  have hflex : (value "display-flex" flexboxNeeds ["display"] ["flex", "inline-flex"]).appliesTo
      property = false := appliesTo_eq_false (by decide) hdisplay
  have hcalc : computedLength.appliesTo property = true := rfl
  rw [computedLength] at hcalc ⊢
  rw [filter_kind_value, gradients, keywords]
  simp only [List.cons_append, List.nil_append, List.filter_cons, hgradients, hzoom, hflex, hcalc,
    Bool.false_eq_true, if_false, if_true, List.filter_nil]

/-- Neither the properties of flexible boxes nor `filter` are among them. -/
theorem name_not_mem_valueProperties (p : FlexProperty) : p.name ∉ valueProperties := by
  cases p <;> decide

theorem filter_not_mem_valueProperties : "filter" ∉ valueProperties := by
  decide

end Feature
end VendorPrefixing
