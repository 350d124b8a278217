import VendorPrefixing.Proofs.Marking.Complete
import VendorPrefixing.Proofs.Marking.Undone

/-!
# Running twice

A run first adds and then removes.  While it adds, a declaration that it is about to
remove still counts as present, so a form of that property is not written.  A second
run misses the form and writes it.  Apart from such forms, a second run changes
nothing.

Main results:

- Theorem `Plan.copyKeyframes_process`: a run leaves no animation without its copies.
- Theorem `Plan.markValues_process`: a run leaves no declaration without its marked
  values.
- Theorem `Plan.process_process_iff`: a second run changes nothing exactly where the
  first one loses no marked property.
- Theorem `Plan.process_process_obsoleteColumns`: a style sheet that a second run still
  changes.
-/

namespace VendorPrefixing
namespace Plan

open Node (declarations)

variable {selection : Selection} {plan : Plan} {vendor : Option String}
variable {d e : Declaration} {ns : List Node} {n : Node}

/-! ## Runs without an effect -/

/-- A run in which no pass does anything counts nothing. -/
theorem process_eq_self (hcopied : plan.copyKeyframes n = n) (hproperties : plan.markProperties n = n)
    (hvalues : plan.markValues n = n) (hkeyframes : plan.removeKeyframes n = n)
    (hdeclarations : plan.removeDeclarations n = n) : plan.process n = (n, .zero) := by
  have haddition : plan.addition n = (n, .zero) := by
    rw [addition, hcopied, hproperties, hvalues, Nat.sub_self, Nat.sub_self]
    rfl
  have hremoval : plan.removal n = (n, .zero) := by
    rw [removal, hkeyframes, hdeclarations, Nat.sub_self, Nat.sub_self]
    rfl
  rw [process, haddition]
  dsimp only
  rw [hremoval]
  rfl

/-! ## Blocks -/

/-- Dropping leaves the declarations that are not useless. -/
theorem declarations_dropDeclarations (plan : Plan) (ns : List Node) :
    declarations (plan.dropDeclarations ns) =
      (declarations ns).filter fun d => !plan.removesDeclaration d := by
  induction ns with
  | nil => rfl
  | cons n rest ih =>
    cases hn : n.declaration? with
    | none =>
      rw [dropDeclarations_cons_of_none hn, Node.declarations_cons_of_none hn,
        Node.declarations_cons_of_none hn, ih]
    | some d =>
      obtain rfl := Node.declaration?_eq_some.mp hn
      rw [dropDeclarations_cons_leaf, Node.declarations_cons_leaf, List.filter_cons]
      cases plan.removesDeclaration d with
      | true => exact ih
      | false => exact congrArg (d :: ·) ih

theorem mem_declarations_dropDeclarations : d ∈ declarations (plan.dropDeclarations ns) ↔
    d ∈ declarations ns ∧ plan.removesDeclaration d = false := by
  rw [declarations_dropDeclarations, List.mem_filter, Bool.not_eq_true']

theorem dropDeclarations_dropDeclarations (plan : Plan) (ns : List Node) :
    plan.dropDeclarations (plan.dropDeclarations ns) = plan.dropDeclarations ns :=
  dropDeclarations_eq_self fun _ hd => (mem_declarations_dropDeclarations.mp hd).2

/-- A block lacks no marked property exactly where marking properties leaves it alone. -/
theorem markPropertiesIn_eq_self_iff : plan.markPropertiesIn vendor ns = ns ↔
    ∀ d ∈ declarations ns, ∀ e ∈ plan.propertyForms vendor d,
      ∃ k ∈ declarations ns, k.property = e.property := by
  constructor
  · intro h d hd e he
    have hany : (declarations (plan.markPropertiesIn vendor ns)).any (e.property == ·.property) =
        true :=
      Node.any_declarations_weaveFrom [] (fun _ => beq_self_eq_true _) (fun _ hx => hx) hd he
    rw [h] at hany
    obtain ⟨k, hk, hproperty⟩ := List.any_eq_true.mp hany
    exact ⟨k, hk, (beq_iff_eq.mp hproperty).symm⟩
  · intro h
    apply Node.weaveFrom_eq_self
    · intro d _
      rfl
    · intro d hd e he
      obtain ⟨k, hk, hproperty⟩ := h d hd e he
      exact List.any_eq_true.mpr ⟨k, hk, beq_iff_eq.mpr hproperty.symm⟩

/-- Whether dropping the useless declarations of a block that belongs to `vendor` loses
a marked property: one that a declaration needs which is kept, and that only useless
declarations have. -/
def LosesForm (plan : Plan) (vendor : Option String) (ns : List Node) : Prop :=
  ∃ d ∈ declarations ns, plan.removesDeclaration d = false ∧ ∃ e ∈ plan.propertyForms vendor d,
    ∀ k ∈ declarations ns, k.property = e.property → plan.removesDeclaration k = true

theorem markPropertiesIn_dropDeclarations_iff :
    plan.markPropertiesIn vendor (plan.dropDeclarations ns) = plan.dropDeclarations ns ↔
      ¬ plan.LosesForm vendor ns := by
  rw [markPropertiesIn_eq_self_iff]
  constructor
  · rintro h ⟨d, hd, hkept, e, he, hlost⟩
    obtain ⟨k, hk, hproperty⟩ := h d (mem_declarations_dropDeclarations.mpr ⟨hd, hkept⟩) e he
    obtain ⟨hk, hkept⟩ := mem_declarations_dropDeclarations.mp hk
    rw [hlost k hk hproperty] at hkept
    cases hkept
  · intro h d hd e he
    obtain ⟨hd, hkept⟩ := mem_declarations_dropDeclarations.mp hd
    by_contra hnone
    refine h ⟨d, hd, hkept, e, he, fun k hk hproperty => ?_⟩
    by_contra hremoved
    rw [Bool.not_eq_true] at hremoved
    exact hnone ⟨k, mem_declarations_dropDeclarations.mpr ⟨hk, hremoved⟩, hproperty⟩

/-- Whether a declaration is useless depends on its property and its value. -/
theorem removesDeclaration_congr (h : d.pair = e.pair) :
    plan.removesDeclaration d = plan.removesDeclaration e := by
  obtain ⟨hproperty, hvalue⟩ := Prod.mk.inj h
  rw [removesDeclaration, removesDeclaration, hproperty, hvalue]

/-- A marked block without its useless declarations lacks no marked value. -/
theorem markValuesIn_dropDeclarations_markIn (selection : Selection) (vendor : Option String)
    (ns : List Node) :
    (ofSelection selection).markValuesIn vendor
        ((ofSelection selection).dropDeclarations ((ofSelection selection).markIn vendor ns)) =
      (ofSelection selection).dropDeclarations ((ofSelection selection).markIn vendor ns) := by
  apply Node.weaveFrom_eq_self
  · intro d hd
    exact markValue_snd_of_mem_markIn (mem_declarations_dropDeclarations.mp hd).1
  · intro d hd e he
    obtain ⟨hd, hkept⟩ := mem_declarations_dropDeclarations.mp hd
    obtain ⟨k, hk, hpair⟩ := List.any_eq_true.mp (any_pair_markIn hd he)
    -- What has the form is kept because the declaration is.
    have hform : (ofSelection selection).removesDeclaration e = false := by
      obtain ⟨value, hvalue, rfl⟩ := mem_allMarkedValues_of_mem_markValue he
      exact removesDeclaration_of_mem_allMarkedValues_eq_false hkept hvalue
    rw [removesDeclaration_congr (beq_iff_eq.mp hpair)] at hform
    exact List.any_eq_true.mpr ⟨k, mem_declarations_dropDeclarations.mpr ⟨hk, hform⟩, hpair⟩

/-! ## Style sheets -/

/-- A run is one pass over a style sheet with copied and dropped animations. -/
theorem process_fst_eq (plan : Plan) (n : Node) :
    (plan.process n).1 = (plan.removeKeyframes (plan.copyKeyframes n)).mapContents
      (fun vendor => plan.dropDeclarations ∘ plan.markIn vendor) none := by
  rw [process_fst, removeMarks, addMarks_eq, removeKeyframes, removeKeyframes,
    Node.dropAnimations_mapContents plan.onlyDeclarations_markIn, removeDeclarations,
    Node.mapContents_mapContents plan.onlyDeclarations_markIn]

theorem onlyDeclarations_dropDeclarations_markIn (plan : Plan) (vendor : Option String) :
    Node.OnlyDeclarations (plan.dropDeclarations ∘ plan.markIn vendor) :=
  plan.onlyDeclarations_dropDeclarations.comp (plan.onlyDeclarations_markIn vendor)

/-- A pass leaves the result of a run alone where it leaves every marked block without
its useless declarations alone. -/
theorem mapContents_process_eq_self {f : Option String → List Node → List Node}
    (hf : ∀ vendor, Node.OnlyDeclarations (f vendor))
    (h : ∀ vendor ns, f vendor (plan.dropDeclarations (plan.markIn vendor ns)) =
      plan.dropDeclarations (plan.markIn vendor ns)) (n : Node) :
    (plan.process n).1.mapContents f none = (plan.process n).1 := by
  rw [Node.mapContents_eq_self_iff hf, process_fst_eq,
    Node.blocks_mapContents plan.onlyDeclarations_dropDeclarations_markIn]
  intro x hx
  obtain ⟨y, _, rfl⟩ := List.mem_map.mp hx
  exact h y.1 _

/-- A run leaves no useless declaration. -/
theorem removeDeclarations_process (plan : Plan) (n : Node) :
    plan.removeDeclarations (plan.process n).1 = (plan.process n).1 :=
  mapContents_process_eq_self (fun _ => plan.onlyDeclarations_dropDeclarations)
    (fun _ _ => plan.dropDeclarations_dropDeclarations _) n

/-- A run leaves no declaration without its marked values. -/
theorem markValues_process (selection : Selection) (n : Node) :
    (ofSelection selection).markValues ((ofSelection selection).process n).1 =
      ((ofSelection selection).process n).1 :=
  mapContents_process_eq_self (ofSelection selection).onlyDeclarations_markValuesIn
    (markValuesIn_dropDeclarations_markIn selection) n

/-- The animations after a run are the copied ones without a useless mark. -/
theorem animations_process (plan : Plan) (n : Node) :
    (plan.process n).1.animations =
      (plan.copyKeyframes n).animations.filter fun a => !a.vendor.any plan.removesKeyframes := by
  rw [process_fst_eq, Node.animations_mapContents plan.onlyDeclarations_dropDeclarations_markIn,
    removeKeyframes, Node.animations_dropAnimations]

/-- A run leaves no useless animation. -/
theorem removeKeyframes_process (plan : Plan) (n : Node) :
    plan.removeKeyframes (plan.process n).1 = (plan.process n).1 := by
  apply Node.dropAnimations_eq_self
  intro a ha
  rw [animations_process] at ha
  simpa using (List.mem_filter.mp ha).2

/-- A run leaves no animation without its copies. -/
theorem copyKeyframes_process (selection : Selection) (n : Node) :
    (ofSelection selection).copyKeyframes ((ofSelection selection).process n).1 =
      ((ofSelection selection).process n).1 := by
  apply Node.copyAnimations_eq_self
  intro name hname mark hmark
  rw [animations_process] at hname ⊢
  have hcopied := Node.mem_animations_copyAnimations hmark (List.mem_filter.mp hname).1
  apply List.mem_filter.mpr
  rw [Option.any_some, removesKeyframes_of_mem_add hmark]
  exact ⟨hcopied, rfl⟩

/-- A run leaves no property without its marked forms exactly where dropping useless
declarations loses none of them. -/
theorem markProperties_process_iff (plan : Plan) (n : Node) :
    plan.markProperties (plan.process n).1 = (plan.process n).1 ↔
      ∀ x ∈ (plan.removeKeyframes (plan.addMarks n)).blocks none, ¬ plan.LosesForm x.1 x.2 := by
  have hdrop : ∀ _ : Option String, Node.OnlyDeclarations plan.dropDeclarations :=
    fun _ => plan.onlyDeclarations_dropDeclarations
  rw [process_fst, removeMarks, removeDeclarations, markProperties,
    Node.mapContents_eq_self_iff plan.onlyDeclarations_markPropertiesIn,
    Node.blocks_mapContents hdrop, List.forall_mem_map]
  refine forall₂_congr fun x _ => ?_
  rw [markPropertiesIn_dropDeclarations_iff, LosesForm, LosesForm,
    Node.declarations_mapContentsAll]

/-- A second run changes and counts nothing exactly where the first one, once it has
added everything, loses no marked property with the useless declarations of a block. -/
theorem process_process_iff (selection : Selection) (n : Node) :
    (ofSelection selection).process ((ofSelection selection).process n).1 =
        (((ofSelection selection).process n).1, .zero) ↔
      ∀ x ∈ ((ofSelection selection).removeKeyframes
          ((ofSelection selection).addMarks n)).blocks none,
        ¬ (ofSelection selection).LosesForm x.1 x.2 := by
  rw [← markProperties_process_iff]
  constructor
  · intro h
    have hempty : ((ofSelection selection).process
        ((ofSelection selection).process n).1).2.isEmpty = true := by
      rw [h]
      rfl
    exact (onlyOverwrites_of_isEmpty hempty).marked
  · intro h
    exact process_eq_self (copyKeyframes_process selection n) h (markValues_process selection n)
      (removeKeyframes_process _ n) (removeDeclarations_process _ n)

/-! ## A property that is lost -/

/-- A column width that a computed length for other browsers makes useless. -/
def obsoleteColumnWidth : Declaration where
  property := "-webkit-column-width"
  value := "-moz-calc(1px)"
  position := ⟨1, 3⟩

/-- The block that has it in front of the standard property. -/
def obsoleteBlock : List Node :=
  [.leaf (.declaration obsoleteColumnWidth), .leaf (.declaration plainColumnWidth)]

/-- The style sheet that consists of this block. -/
def obsoleteColumns : Node :=
  .block .sheet [.block (.rule ["a"]) obsoleteBlock]

/-- The style sheet in which it is left out. -/
def plainColumns : Node :=
  .block .sheet [.block (.rule ["a"]) [.leaf (.declaration plainColumnWidth)]]

/-- The only form of the standard property has the name of the useless one. -/
theorem property_of_mem_propertyForms_columnWidth
    (h : e ∈ (ofSelection chrome25).propertyForms vendor plainColumnWidth) :
    e.property = obsoleteColumnWidth.property := by
  obtain ⟨f, hf, _, mark, hmark, _, _, form, hform, rfl⟩ := mem_propertyForms_iff.mp h
  have hmem := (mem_features_of_feature? hf).1
  rw [feature?_columnWidth] at hf
  obtain rfl := Option.some.inj hf
  have hvendor := mem_vendors_of_mem_add hmem hmark
  rw [vendors_chrome25] at hvendor
  obtain rfl := List.mem_singleton.mp hvendor
  rw [FeaturePlan.ofFeature, forms_columnWidth] at hform
  obtain rfl := List.mem_singleton.mp hform
  rfl

theorem mem_propertyForms_columnWidth :
    ⟨"-webkit-column-width", "1px", ⟨2, 3⟩⟩ ∈
      (ofSelection chrome25).propertyForms none plainColumnWidth := by
  have hclaimed : (ofSelection chrome25).isClaimed "-webkit-" plainColumnWidth.value = false := by
    rw [isClaimed, others, vendors_chrome25]
    rfl
  refine mem_propertyForms_iff.mpr ⟨_, feature?_columnWidth, rfl, "-webkit-",
    mem_add_columnWidth_chrome25, rfl, hclaimed, ("-webkit-column-width", "1px"), ?_, rfl⟩
  rw [FeaturePlan.ofFeature, forms_columnWidth]
  exact List.mem_singleton_self _

/-- Computed lengths stand in neither of the values. -/
theorem markValue_of_not_calc {property value : String} {position : Position}
    (hproperty : unmarked property = "column-width")
    (hvalue : (Matcher.ofNames ["calc"]).finds value = false) :
    (ofSelection selection).markValue vendor ⟨property, value, position⟩ =
      ([], ⟨property, value, position⟩) := by
  have hfeatures : (ofSelection selection).featuresOf ⟨property, value, position⟩ = [] := by
    rw [featuresOf, hproperty, featuresIn_eq (by decide) (by decide) (by decide),
      List.filter_cons, FeaturePlan.ofFeature, matcher?_computedLength, Option.any_some, hvalue]
    rfl
  apply markValue_of_allMarkedValues_eq_nil
  rw [allMarkedValues, hfeatures, List.flatMap_eq_nil_iff]
  intro mark _
  rw [markedValues, List.filter_nil, List.foldl_nil, List.filter_singleton, bne_self_eq_false]
  rfl

/-- The block has everything that the plan needs. -/
theorem markIn_obsoleteBlock :
    (ofSelection chrome25).markIn none obsoleteBlock = obsoleteBlock := by
  have hunknown : (ofSelection chrome25).feature? obsoleteColumnWidth.property = none :=
    feature?_eq_none_of_head? (by decide)
  have hproperties : (ofSelection chrome25).markPropertiesIn none obsoleteBlock = obsoleteBlock := by
    rw [markPropertiesIn_eq_self_iff]
    intro d hd e he
    refine ⟨obsoleteColumnWidth, List.mem_cons_self, ?_⟩
    rcases List.mem_pair.mp hd with rfl | rfl
    · rw [propertyForms_of_unknown hunknown] at he
      exact absurd he List.not_mem_nil
    · exact (property_of_mem_propertyForms_columnWidth he).symm
  have hvalues : ∀ d ∈ declarations obsoleteBlock,
      (ofSelection chrome25).markValue none d = ([], d) := by
    intro d hd
    rcases List.mem_pair.mp hd with rfl | rfl
    · exact markValue_of_not_calc (by decide) (by decide +kernel)
    · exact markValue_of_not_calc (by decide) (by decide +kernel)
  rw [markIn, hproperties]
  apply Node.weaveFrom_eq_self
  · intro d hd
    rw [hvalues d hd]
  · intro d hd e he
    rw [hvalues d hd] at he
    exact absurd he List.not_mem_nil

theorem removesDeclaration_obsoleteColumnWidth :
    (ofSelection chrome25).removesDeclaration obsoleteColumnWidth = true := by
  have hremove : "-moz-" ∈
      (FeaturePlan.ofFeature Browser.builtIn chrome25 Feature.computedLength).remove := by
    decide
  have hname : "-moz-calc" ∈
      Feature.computedLength.spelling.valueNames "-moz-" Feature.computedLength.searched := by
    decide
  have hstands : Stands true "-moz-calc".toList obsoleteColumnWidth.value.toList :=
    ⟨[], "(1px)".toList, by decide, rfl, by decide⟩
  have hproperty : unmarked obsoleteColumnWidth.property = "column-width" := by decide
  have hmem : FeaturePlan.ofFeature Browser.builtIn chrome25 Feature.computedLength ∈
      (ofSelection chrome25).featuresIn (unmarked obsoleteColumnWidth.property) := by
    rw [hproperty, featuresIn_eq (by decide) (by decide) (by decide)]
    exact List.mem_singleton_self _
  rw [removesDeclaration, Bool.or_eq_true, List.any_eq_true]
  exact .inr ⟨_, hmem, finds_removeMatcher? hmem hremove hname hstands⟩

theorem removesDeclaration_plainColumnWidth :
    (ofSelection chrome25).removesDeclaration plainColumnWidth = false :=
  removesDeclaration_of_isBare (by decide)

theorem dropDeclarations_obsoleteBlock :
    (ofSelection chrome25).dropDeclarations obsoleteBlock =
      [.leaf (.declaration plainColumnWidth)] := by
  rw [obsoleteBlock, dropDeclarations_cons_leaf, dropDeclarations_cons_leaf,
    removesDeclaration_obsoleteColumnWidth, removesDeclaration_plainColumnWidth]
  rfl

/-- The first run takes the useless declaration away. -/
theorem process_fst_obsoleteColumns :
    ((ofSelection chrome25).process obsoleteColumns).1 = plainColumns := by
  have hkept : (ofSelection chrome25).removeKeyframes
      ((ofSelection chrome25).copyKeyframes obsoleteColumns) = obsoleteColumns := rfl
  have hsheet : (ofSelection chrome25).dropDeclarations ((ofSelection chrome25).markIn none
      [.block (.rule ["a"]) [.leaf (.declaration plainColumnWidth)]]) =
        [.block (.rule ["a"]) [.leaf (.declaration plainColumnWidth)]] := rfl
  have hblock : ((ofSelection chrome25).dropDeclarations ∘ (ofSelection chrome25).markIn none)
      obsoleteBlock = [.leaf (.declaration plainColumnWidth)] := by
    rw [Function.comp, markIn_obsoleteBlock, dropDeclarations_obsoleteBlock]
  rw [process_fst_eq, hkept]
  change Node.block .sheet (((ofSelection chrome25).dropDeclarations ∘
    (ofSelection chrome25).markIn none) [.block (.rule ["a"])
      (((ofSelection chrome25).dropDeclarations ∘ (ofSelection chrome25).markIn none)
        obsoleteBlock)]) = plainColumns
  rw [hblock]
  exact congrArg (Node.block .sheet) hsheet

/-- The second run writes the property that the first one has taken away. -/
theorem process_process_obsoleteColumns :
    (ofSelection chrome25).process ((ofSelection chrome25).process obsoleteColumns).1 ≠
      (((ofSelection chrome25).process obsoleteColumns).1, .zero) := by
  rw [process_fst_obsoleteColumns]
  intro h
  have hempty : ((ofSelection chrome25).process plainColumns).2.isEmpty = true := by
    rw [h]
    rfl
  have hmarked := (onlyOverwrites_of_isEmpty hempty).marked
  rw [markProperties,
    Node.mapContents_eq_self_iff (ofSelection chrome25).onlyDeclarations_markPropertiesIn] at hmarked
  have hblock : (ofSelection chrome25).markPropertiesIn none
      [.leaf (.declaration plainColumnWidth)] = [.leaf (.declaration plainColumnWidth)] :=
    hmarked (none, _) (List.mem_cons_of_mem _ List.mem_cons_self)
  obtain ⟨k, hk, hproperty⟩ := markPropertiesIn_eq_self_iff.mp hblock plainColumnWidth
    (List.mem_singleton_self _) _ mem_propertyForms_columnWidth
  obtain rfl := List.mem_singleton.mp hk
  revert hproperty
  decide

end Plan
end VendorPrefixing
