import VendorPrefixing.Proofs.Marking.Removal

/-!
# Removing undoes adding

A run without selected browsers takes everything out of a style sheet that a run
for other browsers has put in, and nothing else, as long as the style sheet has no
marks of its own.

Main results:

- Theorem `Plan.removal_addMarks`: a plan removes nothing that it has added.
- Theorem `Plan.removeMarks_empty_addMarks`: without selected browsers everything that
  a plan has added is removed.
- Theorem `Plan.process_empty_process`: a run without selected browsers undoes any run
  over a style sheet without marks.
-/

namespace VendorPrefixing

/-- Whether neither the property nor the value of a declaration holds a mark. -/
structure Declaration.IsBare (d : Declaration) : Prop where
  property : VendorPrefixing.IsBare d.property
  value : VendorPrefixing.IsBare d.value

instance (d : Declaration) : Decidable d.IsBare :=
  decidable_of_iff (VendorPrefixing.IsBare d.property ∧ VendorPrefixing.IsBare d.value)
    ⟨fun h => ⟨h.1, h.2⟩, fun h => ⟨h.property, h.value⟩⟩

namespace Plan

open Node (declarations)

variable {selection : Selection} {plan : Plan} {vendor : Option String}
variable {d e : Declaration} {f : FeaturePlan} {ns : List Node} {n : Node} {mark : String}

/-! ## Animations -/

/-- The only at-rule among the features. -/
def keyframesFeature : Feature :=
  Feature.atRule "@keyframes" Feature.animationNeeds

theorem keyframesFeature_mem_builtIn : keyframesFeature ∈ Feature.builtIn := by
  decide

theorem eq_keyframesFeature_of_name :
    ∀ f ∈ Feature.builtIn, f.name = "@keyframes" → f = keyframesFeature := by
  decide

theorem eq_keyframesFeature_of_kind :
    ∀ f ∈ Feature.builtIn, f.kind = .atRule → f = keyframesFeature := by
  decide

/-- The marks that animations need. -/
theorem add_keyframes (selection : Selection) : (ofSelection selection).add "@keyframes" =
    (FeaturePlan.ofFeature Browser.builtIn selection keyframesFeature).add := by
  have hfeature : (ofSelection selection).feature? "@keyframes" =
      some (FeaturePlan.ofFeature Browser.builtIn selection keyframesFeature) :=
    feature?_eq_some keyframesFeature_mem_builtIn eq_keyframesFeature_of_name
  rw [add, hfeature]

/-- An at-rule is useless when one of the features says so. -/
theorem removesAtRule_iff {rule : String} : (ofSelection selection).removesAtRule rule = true ↔
    ∃ f ∈ (ofSelection selection).features, rule ∈ f.removedAtRules := by
  rw [removesAtRule, List.contains_eq_mem, decide_eq_true_eq, ofSelection, build]
  dsimp only
  rw [List.mem_flatMap]

theorem mem_removedAtRules {rule : String} (hkind : f.feature.kind = .atRule)
    (hname : f.feature.name = "@keyframes") :
    rule ∈ f.removedAtRules ↔ ∃ mark ∈ f.remove, "@" ++ mark ++ "keyframes" = rule := by
  have hbare : String.ofList ("@keyframes".toList.dropWhile (· == '@')) = "keyframes" := by decide
  rw [FeaturePlan.removedAtRules, hkind, hname]
  dsimp only
  rw [hbare, List.mem_map]

theorem kind_of_mem_removedAtRules {rule : String} (h : rule ∈ f.removedAtRules) :
    f.feature.kind = .atRule := by
  rw [FeaturePlan.removedAtRules] at h
  split at h
  · assumption
  · exact absurd h List.not_mem_nil
  · exact absurd h List.not_mem_nil

/-- The marks of animations that are useless. -/
theorem removesKeyframes_iff : (ofSelection selection).removesKeyframes mark = true ↔
    mark ∈ (FeaturePlan.ofFeature Browser.builtIn selection keyframesFeature).remove := by
  rw [removesKeyframes, removesAtRule_iff]
  constructor
  · rintro ⟨f, hf, hrule⟩
    obtain ⟨g, hg, rfl⟩ := mem_features.mp hf
    have hkind : g.kind = .atRule := kind_of_mem_removedAtRules hrule
    rw [eq_keyframesFeature_of_kind g hg hkind, mem_removedAtRules rfl rfl] at hrule
    obtain ⟨other, hother, heq⟩ := hrule
    rw [String.append_left_inj, String.append_right_inj] at heq
    rwa [← heq]
  · intro h
    refine ⟨_, mem_features.mpr ⟨_, keyframesFeature_mem_builtIn, rfl⟩, ?_⟩
    exact (mem_removedAtRules rfl rfl).mpr ⟨mark, h, rfl⟩

/-- No mark that animations need is a useless one. -/
theorem removesKeyframes_of_mem_add {mark : String}
    (h : mark ∈ (ofSelection selection).add "@keyframes") :
    (ofSelection selection).removesKeyframes mark = false := by
  rw [add_keyframes] at h
  rw [← Bool.not_eq_true, removesKeyframes_iff]
  exact fun hremove => FeaturePlan.remove_disjoint hremove h

/-- A plan keeps the animations that it has copied. -/
theorem removeKeyframes_addMarks (h : ∀ a ∈ n.animations, a.vendor = none) :
    (ofSelection selection).removeKeyframes ((ofSelection selection).addMarks n) =
      (ofSelection selection).addMarks n := by
  refine Node.dropAnimations_eq_self fun a ha => ?_
  rw [animations_addMarks] at ha
  rcases Node.mem_animations_of_copyAnimations ha with ha | ⟨mark, hmark, hvendor⟩
  · rw [h a ha]
    rfl
  · rw [hvendor, Option.any_some, removesKeyframes_of_mem_add hmark]

/-- Without selected browsers all copies are dropped. -/
theorem removeKeyframes_empty_addMarks (h : ∀ a ∈ n.animations, a.vendor = none) :
    (ofSelection .empty).removeKeyframes ((ofSelection selection).addMarks n) =
      n.mapContents (ofSelection selection).markIn none := by
  rw [addMarks_eq, removeKeyframes, copyKeyframes,
    Node.dropAnimations_mapContents (ofSelection selection).onlyDeclarations_markIn,
    Node.dropAnimations_copyAnimations (fun mark hmark => ?_) h]
  rw [add_keyframes] at hmark
  exact removesKeyframes_iff.mpr (mem_remove_ofFeature_empty hmark)

/-! ## Blocks -/

/-- Bare declarations are never removed. -/
theorem removesDeclaration_of_isBare (h : d.IsBare) :
    (ofSelection selection).removesDeclaration d = false :=
  removesDeclaration_eq_false none (removesProperty_of_isBare h.property) h.value (.inl rfl)

/-- A declaration with a useless property is removed. -/
theorem removesDeclaration_of_property (h : plan.removesProperty d.property = true) :
    plan.removesDeclaration d = true := by
  rw [removesDeclaration, h, Bool.true_or]

/-- The forms of a bare declaration have bare values. -/
theorem isBare_value_of_mem_propertyForms (hd : d.IsBare) (h : e ∈ plan.propertyForms vendor d) :
    VendorPrefixing.IsBare e.value := by
  obtain ⟨s, mark, form, hform, hvalue⟩ := exists_forms_of_mem_propertyForms h
  rw [← hvalue]
  exact Spelling.isBare_of_mem_forms hd.value hform

/-- A plan keeps a block of bare declarations with everything that it needs. -/
theorem dropDeclarations_markIn (h : ∀ d ∈ declarations ns, d.IsBare) :
    (ofSelection selection).dropDeclarations ((ofSelection selection).markIn vendor ns) =
      (ofSelection selection).markIn vendor ns := by
  refine dropDeclarations_eq_self fun e he => ?_
  obtain ⟨origin, horigin, hcases⟩ := mem_declarations_markValuesIn he
  -- Whether the property was there before or not, it is kept, and its value is bare.
  have hkept : (ofSelection selection).removesProperty origin.property = false ∧
      VendorPrefixing.IsBare origin.value := by
    obtain ⟨d, hd, hform | rfl⟩ := Node.mem_declarations_weaveFrom horigin
    · exact ⟨removesProperty_of_mem_propertyForms hform,
        isBare_value_of_mem_propertyForms (h d hd) hform⟩
    · exact ⟨removesProperty_of_isBare (h _ hd).property, (h _ hd).value⟩
  obtain ⟨rfl, _⟩ | ⟨value, hvalue, rfl⟩ := hcases
  · exact removesDeclaration_eq_false vendor hkept.1 hkept.2 (.inl rfl)
  · exact removesDeclaration_eq_false vendor hkept.1 hkept.2 (.inr hvalue)

/-- A mark read off a property begins it. -/
theorem isPrefix_of_vendorOf? {property : String} (h : vendorOf? property = some mark) :
    mark.toList <+: property.toList := by
  obtain ⟨size, _, rfl⟩ := Option.map_eq_some_iff.mp h
  rw [String.toList_ofList]
  exact List.take_prefix _ _

/-- The value of a bare property is never overwritten. -/
theorem markValue_snd_of_isBare (h : VendorPrefixing.IsBare d.property) :
    ((ofSelection selection).markValue vendor d).2 = d := by
  rw [markValue_snd_eq_self_iff]
  rintro ⟨mark, hmark, hown, -⟩
  have hmarks := mem_marks_of_mem_vendors (mem_vendors_of_mem_marksFor hmark)
  exact isBare_iff.mp h mark hmarks (isPrefix_of_vendorOf? hown).isInfix

/-- Without selected browsers a block of bare declarations loses everything that a plan
has added to it. -/
theorem dropDeclarations_empty_markIn (h : ∀ d ∈ declarations ns, d.IsBare) :
    (ofSelection .empty).dropDeclarations ((ofSelection selection).markIn vendor ns) = ns := by
  have hforms : ∀ d, ∀ e ∈ (ofSelection selection).propertyForms vendor d,
      (ofSelection .empty).removesProperty e.property = true := fun _ _ he =>
    removesProperty_empty_of_mem_propertyForms he
  rw [markIn, markValuesIn, dropDeclarations_weave fun d _ e he => ?_]
  rw [dropDeclarations_map_overwrite fun d hd => ?_]
  rw [markPropertiesIn, dropDeclarations_weave fun d _ e he => ?_, map_overwrite_propertyForms]
  · exact dropDeclarations_eq_self fun d hd => removesDeclaration_of_isBare (h d hd)
  · exact removesDeclaration_of_property (hforms d e he)
  · obtain ⟨origin, horigin, hform | rfl⟩ := Node.mem_declarations_weaveFrom hd
    · have hremoved := hforms origin d hform
      refine .inr ⟨removesDeclaration_of_property hremoved, removesDeclaration_of_property ?_⟩
      rwa [property_markValue_snd]
    · exact .inl (markValue_snd_of_isBare (h _ horigin).property)
  · obtain ⟨value, hvalue, rfl⟩ := mem_allMarkedValues_of_mem_markValue he
    exact removesDeclaration_of_mem_allMarkedValues hvalue

/-! ## Style sheets -/

theorem propertyForms_empty (vendor : Option String) (d : Declaration) :
    (ofSelection .empty).propertyForms vendor d = [] := by
  refine List.eq_nil_iff_forall_not_mem.mpr fun e he => ?_
  obtain ⟨f, hf, _, mark, hmark, _⟩ := mem_propertyForms_iff.mp he
  obtain ⟨g, _, rfl⟩ := mem_features.mp (mem_features_of_feature? hf).1
  rw [add_ofFeature_empty] at hmark
  exact List.not_mem_nil hmark

theorem markValue_empty (vendor : Option String) (d : Declaration) :
    (ofSelection .empty).markValue vendor d = ([], d) := by
  apply markValue_of_allMarkedValues_eq_nil
  rw [allMarkedValues, marksFor, vendors_empty]
  rfl

/-- Without selected browsers nothing is added to a block. -/
theorem markIn_empty (vendor : Option String) (ns : List Node) :
    (ofSelection .empty).markIn vendor ns = ns := by
  have hproperties : (ofSelection .empty).markPropertiesIn vendor ns = ns := by
    refine Node.weaveFrom_eq_self (fun _ _ => rfl) fun d _ e he => ?_
    rw [propertyForms_empty] at he
    exact absurd he List.not_mem_nil
  rw [markIn, hproperties]
  refine Node.weaveFrom_eq_self (fun d _ => ?_) fun d _ e he => ?_
  · rw [markValue_empty]
  · rw [markValue_empty] at he
    exact absurd he List.not_mem_nil

/-- Without selected browsers nothing is added. -/
theorem addMarks_empty (n : Node) : (ofSelection .empty).addMarks n = n := by
  rw [addMarks_eq, copyKeyframes, add_keyframes, add_ofFeature_empty, Node.copyAnimations_nil]
  exact Node.mapContents_eq_self (p := fun _ _ => True) (fun vendor ns _ => markIn_empty vendor ns)
    fun _ _ => trivial

/-- A plan removes nothing that it has added. -/
theorem removal_addMarks (hbare : ∀ x ∈ n.placed none, x.2.IsBare)
    (hanimations : ∀ a ∈ n.animations, a.vendor = none) :
    (ofSelection selection).removal ((ofSelection selection).addMarks n) =
      ((ofSelection selection).addMarks n, .zero) := by
  have hdeclarations : (ofSelection selection).removeDeclarations
      ((ofSelection selection).addMarks n) = (ofSelection selection).addMarks n := by
    rw [addMarks_eq, removeDeclarations,
      Node.mapContents_mapContents (ofSelection selection).onlyDeclarations_markIn]
    refine Node.mapContents_congr (p := fun _ d => d.IsBare)
      (fun vendor ns h => dropDeclarations_markIn h) none _ ?_
    exact Node.forall_placed_copyAnimations hbare
  rw [removal, removeKeyframes_addMarks hanimations, hdeclarations, Nat.sub_self, Nat.sub_self]
  rfl

/-- Without selected browsers everything that a plan has added is removed. -/
theorem removeMarks_empty_addMarks (hbare : ∀ x ∈ n.placed none, x.2.IsBare)
    (hanimations : ∀ a ∈ n.animations, a.vendor = none) :
    (ofSelection .empty).removeMarks ((ofSelection selection).addMarks n) = n := by
  rw [removeMarks, removeKeyframes_empty_addMarks hanimations, removeDeclarations,
    Node.mapContents_mapContents (ofSelection selection).onlyDeclarations_markIn]
  exact Node.mapContents_eq_self (p := fun _ d => d.IsBare)
    (fun vendor ns h => dropDeclarations_empty_markIn h) hbare

/-- Over a style sheet without marks a run removes nothing, and a run without selected
browsers takes it back. -/
theorem process_empty_process (selection : Selection) (n : Node)
    (hbare : ∀ x ∈ n.placed none, x.2.IsBare)
    (hanimations : ∀ a ∈ n.animations, a.vendor = none) :
    ((ofSelection selection).process n).2.declarationsRemoved = 0 ∧
      ((ofSelection selection).process n).2.keyframesRemoved = 0 ∧
        ((ofSelection .empty).process ((ofSelection selection).process n).1).1 = n := by
  have hremoval := @removal_addMarks selection n hbare hanimations
  have hfst : ((ofSelection selection).process n).1 = (ofSelection selection).addMarks n :=
    congrArg Prod.fst hremoval
  refine ⟨?_, ?_, ?_⟩
  · exact congrArg (fun r => 0 + r.2.declarationsRemoved) hremoval
  · exact congrArg (fun r => 0 + r.2.keyframesRemoved) hremoval
  · rw [hfst, process_fst, addMarks_empty, removeMarks_empty_addMarks hbare hanimations]

/-- So all that such a run does is to add. -/
theorem process_of_bare (hbare : ∀ x ∈ n.placed none, x.2.IsBare)
    (hanimations : ∀ a ∈ n.animations, a.vendor = none) :
    (ofSelection selection).process n = (ofSelection selection).addition n := by
  have hprocess : (ofSelection selection).process n =
      (((ofSelection selection).removal ((ofSelection selection).addMarks n)).1,
        ((ofSelection selection).addition n).2.merge
          ((ofSelection selection).removal ((ofSelection selection).addMarks n)).2) := rfl
  rw [hprocess, removal_addMarks hbare hanimations, Statistics.merge_zero]
  rfl

/-- A style sheet with an animation, a transition, a gradient and a flexible box. -/
def spinningSheet : Node :=
  .block .sheet [
    .block (.keyframes "spin" none) [
      .block (.frame ["to"]) [.ofDeclaration "transform" "none" ⟨1, 20⟩]],
    .block (.rule ["a"]) [
      .ofDeclaration "transition" "transform 1s" ⟨2, 3⟩,
      .ofDeclaration "background" "linear-gradient(to top, red, blue)" ⟨3, 3⟩,
      .ofDeclaration "display" "flex" ⟨4, 3⟩]]

theorem process_empty_process_spinningSheet :
    let chrome := Selection.empty.insert ⟨"chrome", ⟨25, 0⟩⟩
    ((ofSelection chrome).process spinningSheet).2.declarationsRemoved = 0 ∧
      ((ofSelection chrome).process spinningSheet).2.keyframesRemoved = 0 ∧
        ((ofSelection .empty).process ((ofSelection chrome).process spinningSheet).1).1 =
          spinningSheet :=
  process_empty_process _ spinningSheet (by decide) (by decide)

end Plan
end VendorPrefixing
