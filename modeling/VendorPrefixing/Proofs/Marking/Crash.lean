import VendorPrefixing.Proofs.Feature.Nested
import VendorPrefixing.Proofs.Marking.Removal
import VendorPrefixing.Proofs.Marking.Simulation
import VendorPrefixing.Proofs.Sheet.Blocks

/-!
# What ends the program

A value ends the program when a gradient is called inside of itself in it.  No other feature
brings that about: neither does marking one put a call into another one, nor do the properties
with values of their own take gradients.

Main results:

- Theorem `Plan.crashes_eq_false`: a value without such calls is marked.
- Theorem `Plan.crashesIn_eq_false`: no style sheet in which the calls of every gradient stand
  apart ends the program.
-/

namespace VendorPrefixing

/-! ## The table -/

/-- The properties with forms of their own values take no gradients. -/
theorem Feature.not_mem_valueProperties_of_mem_names : ∀ f ∈ builtIn, f.spelling ≠ .plain →
    f.spelling ≠ .cornerRadius → ∀ mark ∈ Browser.marks, ∀ name ∈ f.spelling.names mark f.name,
      unmarked name ∉ valueProperties ∧ unmarked name ≠ "transition" ∧
        unmarked name ≠ "transition-property" := by
  decide +kernel

/-- The name of a gradient is a word. -/
theorem Feature.isWord_of_spelling_gradient {g : Feature} (hg : g ∈ builtIn)
    (hgradient : g.spelling = .gradient) : IsWord g.name := by
  obtain ⟨hsought, hsearched⟩ := searched_of_spelling_gradient g hg hgradient
  apply isWord_of_mem_searched hsought
  rw [hsearched]
  exact List.mem_singleton_self _

/-- Only gradients end the program. -/
theorem Spelling.eq_gradient_of_crashes {s : Spelling} {m : Matcher} {value : String}
    (h : s.crashes m value = true) : s = .gradient ∧ Gradient.crashes m value = true := by
  cases s with
  | gradient => exact ⟨rfl, h⟩
  | _ => cases h

open Node (declarations)

namespace Plan

open VendorPrefixing.Gradient (Nests Apart Spares)

variable {selection : Selection} {vendor : Option String} {d e : Declaration}
variable {f g : FeaturePlan} {m : Matcher} {mark property value : String}

/-! ## Values -/

/-- A gradient is looked for by its name alone. -/
theorem searched_of_gradient (hg : g ∈ (ofSelection selection).featuresIn property)
    (hgradient : g.feature.spelling = .gradient) : g.feature.searched = [g.feature.name] := by
  obtain ⟨h, hh, rfl⟩ := mem_features.mp (mem_featuresIn.mp hg).1
  exact (Feature.searched_of_spelling_gradient h hh hgradient).2

theorem isWord_of_gradient (hg : g ∈ (ofSelection selection).featuresIn property)
    (hgradient : g.feature.spelling = .gradient) : IsWord g.feature.name := by
  obtain ⟨h, hh, rfl⟩ := mem_features.mp (mem_featuresIn.mp hg).1
  exact Feature.isWord_of_spelling_gradient hh hgradient

/-- Marking a feature writes no call of a gradient. -/
theorem spares_edits (hf : f ∈ (ofSelection selection).featuresIn property) (hmark : mark ∈ f.add)
    (hm : f.feature.matcher? = some m) (hg : g ∈ (ofSelection selection).featuresIn property)
    (hgradient : g.feature.spelling = .gradient) :
    Spares g.feature.name.toList (f.feature.spelling.Edits m mark) := by
  obtain ⟨hsought, hmatcher⟩ := mem_soughtFeatures hf
  have hmarks := mem_marks_of_mem_add (mem_featuresIn.mp hf).1 hmark
  have hbare : ∀ name ∈ m.names, AreWord name.toList := by
    intro name hname
    rw [hmatcher] at hm
    obtain rfl := Option.some.inj hm
    exact (Feature.isWord_of_mem_searched hsought (Matcher.mem_names.mp hname)).areWord
  have hwritten : ∀ name ∈ f.feature.spelling.valueNames mark m.names,
      name ∈ f.feature.spelling.valueNames mark f.feature.searched := fun name hname =>
    valueNames_subset_searched hmatcher hm hname
  have hword : ∀ name ∈ f.feature.spelling.valueNames mark m.names, AreWord name.toList :=
    fun name hname => (Feature.isWord_of_mem_valueNames hsought hmarks (hwritten name hname)).areWord
  have hself : g.feature.name ∈ g.feature.searched := by
    rw [searched_of_gradient hg hgradient]
    exact List.mem_singleton_self _
  constructor
  · rintro old new (⟨name, hname, rfl, marked, hmarked, rfl⟩ | ⟨-, hturns⟩)
    · exact ⟨(hbare name hname).isCalm, (hword marked hmarked).isCalm⟩
    · exact Gradient.isCalm_of_turns hturns
  · rintro old new (⟨-, -, -, marked, hmarked, rfl⟩ | ⟨-, hturns⟩)
    · exact (hword marked hmarked).getLast?
    · exact (Gradient.isDirection_of_turns hturns).getLast?
  · rintro old new (⟨-, -, -, marked, hmarked, rfl⟩ | ⟨-, hturns⟩) hstands
    · apply Feature.ne_of_mem_valueNames (mem_soughtFeatures hg).1 hself hmarks (hwritten marked hmarked)
      exact String.toList_inj.mp (hstands.eq_of_areWord (hword marked hmarked))
    · exact Feature.not_stands_of_turns (mem_soughtFeatures hg).1 hself hturns hstands

/-- Marking a feature puts no call of a gradient into another one. -/
theorem nests_of_mem_values {marked : String}
    (hf : f ∈ (ofSelection selection).featuresIn property) (hmark : mark ∈ f.add)
    (hm : f.feature.matcher? = some m) (hfinds : m.finds value = true)
    (hmarked : marked ∈ f.feature.spelling.values m mark value)
    (hg : g ∈ (ofSelection selection).featuresIn property)
    (hgradient : g.feature.spelling = .gradient)
    (h : Nests g.feature.name.toList marked.toList) : Nests g.feature.name.toList value.toList := by
  have hregular := regular_of_mem_features (mem_featuresIn.mp hf).1
  rcases Spelling.edited_values (Feature.mem_of_spelling_display hregular hm) hfinds hmarked with
    rfl | ⟨news, hedited, -⟩
  · exact h
  · exact h.of_edited (isWord_of_gradient hg hgradient).areWord
      (spares_edits hf hmark hm hg hgradient) hedited

/-- A value in which no gradient is called inside of itself is marked. -/
theorem spelling_crashes_eq_false (hf : f ∈ (ofSelection selection).featuresIn property)
    (hm : f.feature.matcher? = some m)
    (h : f.feature.spelling = .gradient → ¬ Nests f.feature.name.toList value.toList) :
    f.feature.spelling.crashes m value = false := by
  rw [Bool.eq_false_iff]
  intro hcrash
  obtain ⟨hgradient, hcrash⟩ := Spelling.eq_gradient_of_crashes hcrash
  have hsingle : m = .single f.feature.name := by
    rw [(mem_soughtFeatures hf).2, searched_of_gradient hf hgradient] at hm
    exact (Option.some.inj hm).symm
  have hapart := (Gradient.apart_iff (isWord_of_gradient hf hgradient)).mpr (h hgradient)
  rw [hsingle, Gradient.crashes_eq_false_iff.mpr hapart] at hcrash
  cases hcrash

/-- Marking one feature after the other does not end the program if no gradient is called inside
of itself at the start. -/
theorem crashesFrom_eq_false {features : List FeaturePlan} {values : List String}
    (hfeatures : ∀ f ∈ features,
      f ∈ (ofSelection selection).featuresIn property ∧ mark ∈ f.add)
    (hvalues : ∀ v ∈ values, ∀ g ∈ (ofSelection selection).featuresIn property,
      g.feature.spelling = .gradient → ¬ Nests g.feature.name.toList v.toList) :
    crashesFrom mark values features = false := by
  induction features generalizing values with
  | nil => rfl
  | cons f features ih =>
    rw [List.forall_mem_cons] at hfeatures
    obtain ⟨⟨hf, hmark⟩, hfeatures⟩ := hfeatures
    obtain ⟨-, hm⟩ := mem_soughtFeatures hf
    rw [crashesFrom, hm, Option.any_some, Bool.or_eq_false_iff, List.any_eq_false]
    constructor
    · intro v hv
      simp [spelling_crashes_eq_false hf hm (hvalues v hv f hf)]
    · apply ih hfeatures
      intro w hw g hg hgradient hnests
      rcases mem_markFeature.mp hw with ⟨_, hw⟩ | ⟨m, hm, v, hv, ⟨hfinds, hw⟩ | ⟨_, rfl⟩⟩
      · exact hvalues w hw g hg hgradient hnests
      · exact hvalues v hv g hg hgradient
          (nests_of_mem_values hf hmark hm hfinds hw hg hgradient hnests)
      · exact hvalues w hv g hg hgradient hnests

/-! ## Declarations -/

/-- Whether no gradient is called inside of itself in the value of a declaration. -/
def Unnested (d : Declaration) : Prop :=
  ∀ g ∈ Feature.builtIn, g.spelling = .gradient → ¬ Nests g.name.toList d.value.toList

/-- Whether a gradient that may stand in the property of a declaration is called inside of itself
in its value. -/
def NestsGradient (plan : Plan) (d : Declaration) : Prop :=
  ∃ f ∈ plan.featuresIn (unmarked d.property), f.feature.spelling = .gradient ∧
    Nests f.feature.name.toList d.value.toList

theorem Unnested.not_nestsGradient (h : Unnested d) : ¬ (ofSelection selection).NestsGradient d := by
  rintro ⟨f, hf, hgradient, hnests⟩
  obtain ⟨g, hg, rfl⟩ := mem_features.mp (mem_featuresIn.mp hf).1
  exact h g hg hgradient hnests

/-- The calls of every gradient stand apart in such a value. -/
theorem unnested_of_apart (h : ∀ g ∈ Feature.builtIn, g.spelling = .gradient →
    Apart ((Matcher.single g.name).calls d.value)) : Unnested d := by
  intro g hg hgradient
  rw [← Gradient.apart_iff (Feature.isWord_of_spelling_gradient hg hgradient)]
  exact h g hg hgradient

/-- The value of a declaration without such a gradient is marked. -/
theorem crashes_eq_false (vendor : Option String) (h : ¬ (ofSelection selection).NestsGradient d) :
    (ofSelection selection).crashes vendor d = false := by
  rw [crashes, List.any_eq_false]
  intro mark hmark
  have hfeatures : ∀ f ∈ ((ofSelection selection).featuresOf d).filter (·.add.contains mark),
      f ∈ (ofSelection selection).featuresIn (unmarked d.property) ∧ mark ∈ f.add := by
    intro f hf
    obtain ⟨hmem, hadd⟩ := List.mem_filter.mp hf
    exact ⟨mem_featuresIn_of_mem_featuresOf hmem, by simpa using hadd⟩
  have hvalue : ∀ v ∈ [d.value], ∀ g ∈ (ofSelection selection).featuresIn (unmarked d.property),
      g.feature.spelling = .gradient → ¬ Nests g.feature.name.toList v.toList := by
    rw [List.forall_mem_singleton]
    exact fun g hg hgradient hnests => h ⟨g, hg, hgradient, hnests⟩
  rw [crashesFrom_eq_false hfeatures hvalue]
  exact Bool.false_ne_true

/-- A property with forms of its own values takes no gradients. -/
theorem spelling_ne_gradient_of_mem_forms {form : String × String}
    (hf : f ∈ (ofSelection selection).features) (hmark : mark ∈ Browser.marks)
    (hform : form ∈ f.feature.spelling.forms mark f.feature.name value) (hvalue : form.2 ≠ value)
    (hg : g ∈ (ofSelection selection).featuresIn (unmarked form.1)) :
    g.feature.spelling ≠ .gradient := by
  obtain ⟨k, hk, rfl⟩ := mem_features.mp hf
  dsimp only [FeaturePlan.ofFeature] at hform
  have hown : k.spelling ≠ .plain ∧ k.spelling ≠ .cornerRadius := by
    rcases Spelling.forms_cases hform with hkept | ⟨p, hflex, -⟩ | ⟨hfilter, -⟩
    · exact absurd hkept hvalue
    · simp [hflex]
    · simp [hfilter]
  have hname : form.1 ∈ k.spelling.names mark k.name :=
    Spelling.mem_names_of_mem_forms Feature.name_eq_of_spelling_filter hform
  obtain ⟨hproperty, htransition, hlist⟩ :=
    Feature.not_mem_valueProperties_of_mem_names k hk hown.1 hown.2 mark hmark form.1 hname
  rw [featuresIn_eq hproperty htransition hlist, List.mem_singleton] at hg
  rw [hg]
  intro hgradient
  cases hgradient

/-- No marked form of a declaration brings such a gradient. -/
theorem not_nestsGradient_of_mem_propertyForms (h : Unnested d)
    (he : e ∈ (ofSelection selection).propertyForms vendor d) :
    ¬ (ofSelection selection).NestsGradient e := by
  obtain ⟨f, hf, -, mark, hmark, -, -, form, hform, rfl⟩ := mem_propertyForms_iff.mp he
  obtain ⟨hmem, hname⟩ := mem_features_of_feature? hf
  rw [← hname] at hform
  rintro ⟨g, hg, hgradient, hnests⟩
  by_cases hvalue : form.2 = d.value
  · dsimp only at hnests
    rw [hvalue] at hnests
    obtain ⟨k, hk, rfl⟩ := mem_features.mp (mem_featuresIn.mp hg).1
    exact h k hk hgradient hnests
  · exact spelling_ne_gradient_of_mem_forms hmem (mem_marks_of_mem_add hmem hmark) hform hvalue hg
      hgradient

end Plan

/-! ## Style sheets -/

/-- Whether the calls of every gradient stand apart in the values of a style sheet. -/
def Node.GradientsApart (n : Node) : Prop :=
  ∀ x ∈ n.placed none, ∀ g ∈ Feature.builtIn, g.spelling = .gradient →
    Gradient.Apart ((Matcher.single g.name).calls x.2.value)

instance (n : Node) : Decidable n.GradientsApart :=
  inferInstanceAs (Decidable (∀ x ∈ n.placed none, ∀ g ∈ Feature.builtIn, g.spelling = .gradient →
    Gradient.Apart ((Matcher.single g.name).calls x.2.value)))

namespace Plan

variable {selection : Selection} {vendor : Option String} {ns : List Node} {n : Node}

/-- Marking the properties of a block brings no gradient inside of itself. -/
theorem not_nestsGradient_of_mem_markPropertiesIn (h : ∀ d ∈ declarations ns, Unnested d) :
    ∀ e ∈ declarations ((ofSelection selection).markPropertiesIn vendor ns),
      ¬ (ofSelection selection).NestsGradient e := by
  intro e he
  rcases Node.mem_declarations_weaveFrom he with ⟨d, hd, hform | rfl⟩
  · exact not_nestsGradient_of_mem_propertyForms (h d hd) hform
  · exact (h _ hd).not_nestsGradient

/-- No style sheet in which the calls of every gradient stand apart ends the program. -/
theorem crashesIn_eq_false (selection : Selection) (h : n.GradientsApart) :
    (ofSelection selection).crashesIn n = false := by
  rw [crashesIn, List.any_eq_false]
  intro x hx
  have hplain : ¬ (ofSelection selection).NestsGradient x.2 := by
    cases n with
    | leaf l => exact (unnested_of_apart (h x hx)).not_nestsGradient
    | block head children =>
      have hcopied :
          ∀ x ∈ ((ofSelection selection).copyKeyframes (.block head children)).placed none,
            Unnested x.2 :=
        Node.forall_placed_copyAnimations fun x hx => unnested_of_apart (h x hx)
      exact Node.forall_placed_mapContents (onlyDeclarations_markPropertiesIn _)
        (fun _ _ => not_nestsGradient_of_mem_markPropertiesIn) none hcopied x hx
  rw [crashes_eq_false x.1 hplain]
  exact Bool.false_ne_true

end Plan
end VendorPrefixing
