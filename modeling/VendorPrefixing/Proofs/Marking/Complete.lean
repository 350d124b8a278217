import VendorPrefixing.Proofs.Feature.Sought
import VendorPrefixing.Proofs.Marking.Idempotent
import VendorPrefixing.Proofs.Marking.Undone
import VendorPrefixing.Proofs.Marking.Untouched
import VendorPrefixing.Proofs.Sheet.Blocks

/-!
# Adding is complete

After the passes that add, a style sheet has everything that the plan needs, also
for the declarations that these passes have written themselves and for the copies
of its animations.

The value pass only looks for the features that stand in a value before it writes
anything.  It misses none that way, since what it writes brings no other feature
into the value.

Main results:

- Theorem `Plan.occursIn_of_mem_values`: marking a feature brings no other one into a
  value.
- Theorem `Plan.markedValues_featuresOf`: a value is marked for all features that may
  stand in its property.
- Theorem `Plan.addition_complete`: after adding, every animation has its copies and
  every declaration its marked forms.
-/

namespace VendorPrefixing

/-- Whether a feature stands in a value. -/
def FeaturePlan.occursIn (f : FeaturePlan) (value : String) : Bool :=
  f.feature.matcher?.any (·.finds value)

namespace Plan

open Node (declarations)

variable {selection : Selection} {plan : Plan} {vendor : Option String}
variable {d e : Declaration} {f g : FeaturePlan} {ns : List Node}
variable {mark property value : String}

/-! ## Features in values -/

/-- Marking a feature brings no other one into a value. -/
theorem occursIn_of_mem_values {m : Matcher} {marked : String}
    (hf : f ∈ (ofSelection selection).featuresIn property) (hmark : mark ∈ f.add)
    (hm : f.feature.matcher? = some m) (hfinds : m.finds value = true)
    (hmarked : marked ∈ f.feature.spelling.values m mark value)
    (hg : g ∈ (ofSelection selection).featuresIn property) (h : g.occursIn marked = true) :
    g.occursIn value = true := by
  obtain ⟨hsought, hmatcher⟩ := mem_soughtFeatures hg
  unfold FeaturePlan.occursIn at h ⊢
  rw [hmatcher, Option.any_some] at h ⊢
  obtain ⟨name, hname, hstands⟩ := Matcher.exists_standsAt_of_finds h
  rw [Matcher.mem_names] at hname
  have hword := Feature.isWord_of_mem_searched hsought hname
  rcases stands_cases_of_mem_values hf hmark hm hfinds hmarked hword.areWord
      (exists_standsAt_iff.mp hstands) with hbefore | ⟨other, hother, heq⟩ | ⟨old, new, hturns, hnew⟩
  · obtain ⟨place, hplace⟩ := exists_standsAt_iff.mpr hbefore
    apply Matcher.finds_of_standsAt _ hname hplace
    intro other hother
    exact Feature.isWord_of_mem_searched hsought hother
  · have hmarks := mem_marks_of_mem_add (mem_featuresIn.mp hf).1 hmark
    exact absurd (String.toList_injective heq)
      (Feature.ne_of_mem_valueNames hsought hname hmarks hother)
  · exact absurd hnew (Feature.not_stands_of_turns hsought hname hturns)

/-- Where a feature stands in none of the values, marking it changes none of them. -/
theorem markFeature_eq_self {values : List String} (h : ∀ v ∈ values, f.occursIn v = false) :
    markFeature mark values f = values := by
  unfold FeaturePlan.occursIn at h
  rw [markFeature]
  cases hm : f.feature.matcher? with
  | none => rfl
  | some m =>
    rw [hm] at h
    induction values with
    | nil => rfl
    | cons v values ih =>
      have hv : m.finds v = false := h v List.mem_cons_self
      have hrest := ih fun w hw => h w (List.mem_cons_of_mem v hw)
      dsimp only at hrest ⊢
      rw [List.flatMap_cons, hv, if_neg Bool.false_ne_true, hrest, List.singleton_append]

/-- Marking one feature after the other only ever concerns those that stand in the
value at the start. -/
theorem foldl_markFeature_filter {features : List FeaturePlan} {values : List String}
    (hfeatures : ∀ f ∈ features,
      f ∈ (ofSelection selection).featuresIn property ∧ mark ∈ f.add)
    (hvalues : ∀ v ∈ values, ∀ g ∈ (ofSelection selection).featuresIn property,
      g.occursIn v = true → g.occursIn value = true) :
    (features.filter (·.occursIn value)).foldl (markFeature mark) values =
      features.foldl (markFeature mark) values := by
  induction features generalizing values with
  | nil => rfl
  | cons f features ih =>
    obtain ⟨hf, hmark⟩ := hfeatures f List.mem_cons_self
    have hrest := fun g hg => hfeatures g (List.mem_cons_of_mem f hg)
    by_cases hoccurs : f.occursIn value = true
    · rw [List.filter_cons, if_pos hoccurs, List.foldl_cons, List.foldl_cons]
      apply ih hrest
      intro w hw g hg hfound
      rcases mem_markFeature.mp hw with ⟨_, hw⟩ | ⟨m, hm, v, hv, ⟨hfinds, hw⟩ | ⟨_, rfl⟩⟩
      · exact hvalues w hw g hg hfound
      · exact hvalues v hv g hg (occursIn_of_mem_values hf hmark hm hfinds hw hg hfound)
      · exact hvalues w hv g hg hfound
    · have hnone : ∀ v ∈ values, f.occursIn v = false := by
        intro v hv
        by_contra hfound
        rw [Bool.not_eq_false] at hfound
        exact hoccurs (hvalues v hv f hf hfound)
      rw [List.filter_cons, if_neg hoccurs, List.foldl_cons, markFeature_eq_self hnone]
      exact ih hrest hvalues

/-- A value is marked for all features that may stand in its property. -/
theorem markedValues_featuresOf (selection : Selection) (d : Declaration) (mark : String) :
    markedValues ((ofSelection selection).featuresOf d) mark d.value =
      markedValues ((ofSelection selection).featuresIn (unmarked d.property)) mark d.value := by
  have hswap : ((ofSelection selection).featuresOf d).filter (·.add.contains mark) =
      (((ofSelection selection).featuresIn (unmarked d.property)).filter
        (·.add.contains mark)).filter (·.occursIn d.value) := by
    rw [featuresOf, List.filter_filter, List.filter_filter]
    refine List.filter_congr fun f _ => ?_
    exact Bool.and_comm _ _
  have hneeded : ∀ f ∈ ((ofSelection selection).featuresIn (unmarked d.property)).filter
      (·.add.contains mark), f ∈ (ofSelection selection).featuresIn (unmarked d.property) ∧
        mark ∈ f.add := by
    intro f hf
    obtain ⟨hmem, hmark⟩ := List.mem_filter.mp hf
    exact ⟨hmem, by simpa using hmark⟩
  unfold markedValues
  rw [hswap, foldl_markFeature_filter hneeded]
  intro v hv g _ hfound
  rwa [← List.mem_singleton.mp hv]

/-! ## Blocks -/

/-- A block after adding is a marked block. -/
theorem exists_of_mem_blocks_addMarks {n : Node} {x : Option String × List Node}
    (h : x ∈ (plan.addMarks n).blocks none) : ∃ ns, x.2 = plan.markIn x.1 ns := by
  rw [addMarks_eq, Node.blocks_mapContents plan.onlyDeclarations_markIn] at h
  obtain ⟨y, _, rfl⟩ := List.mem_map.mp h
  exact ⟨_, rfl⟩

/-- What a block that belongs to `vendor` has for one of its declarations when nothing
is left to add. -/
structure Completes (plan : Plan) (vendor : Option String) (ns : List Node)
    (d : Declaration) : Prop where
  /-- Every property that a needed mark leads to, unless the value was written for the
  browsers of another selected mark. -/
  property : ∀ f, plan.feature? d.property = some f → f.feature.kind = .property →
    ∀ mark ∈ plan.add d.property, isReadBy vendor mark = true →
      (∀ other ∈ plan.vendors, other ≠ mark → Text.contains d.value other = false) →
        ∀ form ∈ f.feature.spelling.forms mark d.property d.value,
          ∃ e ∈ declarations ns, e.property = form.1
  /-- Every marked value of a property without a mark, unless the value was written for
  the browsers of a selected mark. -/
  value : vendorOf? d.property = none →
    (∀ mark ∈ plan.vendors, Text.contains d.value mark = false) →
      ∀ mark ∈ plan.vendors, isReadBy vendor mark = true →
        ∀ value ∈ markedValues (plan.featuresIn d.property) mark d.value,
          ∃ e ∈ declarations ns, e.property = d.property ∧ e.value = value

/-- A property without a mark is its own standard property. -/
theorem unmarked_of_vendorOf?_eq_none (h : vendorOf? property = none) :
    unmarked property = property := by
  rw [vendorOf?, Option.map_eq_none_iff] at h
  rw [unmarked, h]

/-- A property without a mark takes the mark of every selected browser that reads it,
where its value was written for none of them. -/
theorem mem_marksFor (hown : vendorOf? d.property = none)
    (hvalue : ∀ mark ∈ plan.vendors, Text.contains d.value mark = false)
    (hmark : mark ∈ plan.vendors) (hread : isReadBy vendor mark = true) :
    mark ∈ plan.marksFor vendor d := by
  have hunclaimed : plan.isClaimed mark d.value = false :=
    isClaimed_eq_false_iff.mpr fun other hother _ => hvalue other hother
  rw [mem_marksFor_iff, hown]
  exact ⟨hmark, hread, rfl, hvalue mark hmark, hunclaimed⟩

/-- A marked block has everything for each of its declarations. -/
theorem completes_markIn (hd : d ∈ declarations ((ofSelection selection).markIn vendor ns)) :
    (ofSelection selection).Completes vendor ((ofSelection selection).markIn vendor ns) d where
  property f hf hkind mark hmark hread hvalue form hform := by
    rw [add, hf] at hmark
    have hmem : ⟨form.1, form.2, d.position⟩ ∈ (ofSelection selection).propertyForms vendor d :=
      mem_propertyForms_iff.mpr
        ⟨f, hf, hkind, mark, hmark, hread, isClaimed_eq_false_iff.mpr hvalue, form, hform, rfl⟩
    obtain ⟨e, he, hproperty⟩ := List.any_eq_true.mp (any_property_markIn hd hmem)
    exact ⟨e, he, (beq_iff_eq.mp hproperty).symm⟩
  value hown hvalue mark hmark hread marked hmarked := by
    have hmem : { d with value := marked } ∈ ((ofSelection selection).markValue vendor d).1 := by
      rw [markValue_of_unmarked hown]
      refine List.mem_map_of_mem (List.mem_flatMap.mpr ⟨mark, ?_, ?_⟩)
      · exact mem_marksFor hown hvalue hmark hread
      · rwa [markedValues_featuresOf, unmarked_of_vendorOf?_eq_none hown]
    obtain ⟨e, he, hpair⟩ := List.any_eq_true.mp (any_pair_markIn hd hmem)
    obtain ⟨hproperty, hmarked⟩ := Prod.mk.inj (beq_iff_eq.mp hpair)
    exact ⟨e, he, hproperty.symm, hmarked.symm⟩

/-- A block keeps the declarations of properties without a mark. -/
theorem mem_declarations_markIn (hown : vendorOf? d.property = none) (hd : d ∈ declarations ns) :
    d ∈ declarations (plan.markIn vendor ns) := by
  have hmarked : d ∈ declarations (plan.markPropertiesIn vendor ns) :=
    Node.snd_mem_declarations_weaveFrom hd
  have hkept : (plan.markValue vendor d).2 ∈
      declarations (plan.markValuesIn vendor (plan.markPropertiesIn vendor ns)) :=
    Node.snd_mem_declarations_weaveFrom hmarked
  rwa [markValue_of_unmarked hown] at hkept

/-! ## Style sheets -/

/-- After adding, every animation without a mark has a copy for every mark that
animations need, and every block has everything for each of its declarations. -/
theorem addition_complete (selection : Selection) (n : Node) :
    (∀ name, ⟨name, none⟩ ∈ ((ofSelection selection).addition n).1.animations →
      ∀ mark ∈ (ofSelection selection).add "@keyframes",
        ⟨name, some mark⟩ ∈ ((ofSelection selection).addition n).1.animations) ∧
      ∀ x ∈ ((ofSelection selection).addition n).1.blocks none, ∀ d ∈ declarations x.2,
        (ofSelection selection).Completes x.1 x.2 d := by
  rw [addition_fst]
  constructor
  · intro name hname mark hmark
    rw [animations_addMarks] at hname ⊢
    exact Node.mem_animations_copyAnimations hmark hname
  · intro x hx d hd
    obtain ⟨ns, hns⟩ := exists_of_mem_blocks_addMarks hx
    rw [hns] at hd ⊢
    exact completes_markIn hd

/-- A column width without marks. -/
def plainColumnWidth : Declaration where
  property := "column-width"
  value := "1px"
  position := ⟨2, 3⟩

/-- A computed length without marks. -/
def plainWidth : Declaration where
  property := "width"
  value := "calc(1px + 1em)"
  position := ⟨3, 3⟩

/-- The style sheet that consists of them and of an animation. -/
def plainSheet : Node :=
  .block .sheet [
    .block (.rule ["a"])
      [.leaf (.declaration plainColumnWidth), .leaf (.declaration plainWidth)],
    .block (.keyframes "spin" none) []]

theorem feature?_columnWidth : (ofSelection selection).feature? plainColumnWidth.property =
    some (FeaturePlan.ofFeature Browser.builtIn selection columnWidthFeature) :=
  feature?_eq_some columnWidthFeature_mem_builtIn (by decide)

theorem forms_columnWidth :
    columnWidthFeature.spelling.forms "-webkit-" plainColumnWidth.property plainColumnWidth.value =
      [("-webkit-column-width", "1px")] := by
  decide

theorem mem_add_keyframes_chrome25 : "-webkit-" ∈ (ofSelection chrome25).add "@keyframes" := by
  rw [add_keyframes]
  refine mem_add_of_need (Feature.since "chrome" ⟨4, 0⟩) ⟨"chrome", ⟨25, 0⟩⟩
    List.mem_cons_self ?_ ?_ ?_ <;> decide

/-- The rule stays in front of the copies of the animation. -/
theorem mem_blocks_copyAnimations_plainSheet (marks : List String) :
    (none, [.leaf (.declaration plainColumnWidth), .leaf (.declaration plainWidth)]) ∈
      (plainSheet.copyAnimations marks).blocks none :=
  List.mem_cons_of_mem _ List.mem_cons_self

theorem mem_markedValues_plainWidth : "-webkit-calc(1px + 1em)" ∈
    markedValues ((ofSelection chrome25).featuresIn plainWidth.property) "-webkit-"
      plainWidth.value := by
  have hmarked : "-webkit-calc(1px + 1em)" ∈
      markedValues ((ofSelection chrome25).featuresOf plainWidth) "-webkit-" plainWidth.value := by
    decide +kernel
  rwa [markedValues_featuresOf, unmarked_of_vendorOf?_eq_none (by decide)] at hmarked

/-- The animation has a copy, the column width a marked property and the computed length a
marked value. -/
theorem addition_complete_plainSheet :
    ⟨"spin", some "-webkit-"⟩ ∈ ((ofSelection chrome25).addition plainSheet).1.animations ∧
      ∃ ns, (none, ns) ∈ ((ofSelection chrome25).addition plainSheet).1.blocks none ∧
        (∃ e ∈ declarations ns, e.property = "-webkit-column-width") ∧
        ∃ e ∈ declarations ns, e.property = "width" ∧ e.value = "-webkit-calc(1px + 1em)" := by
  obtain ⟨hanimations, hblocks⟩ := addition_complete chrome25 plainSheet
  have hspin : ⟨"spin", none⟩ ∈ ((ofSelection chrome25).addition plainSheet).1.animations := by
    rw [addition_fst, animations_addMarks]
    exact (Node.animationsAll_sublist_copyAll _ _ _).subset (List.mem_singleton_self _)
  have hblock : (none, (ofSelection chrome25).markIn none
      [.leaf (.declaration plainColumnWidth), .leaf (.declaration plainWidth)]) ∈
        ((ofSelection chrome25).addition plainSheet).1.blocks none := by
    rw [addition_fst, addMarks_eq,
      Node.blocks_mapContents (ofSelection chrome25).onlyDeclarations_markIn]
    exact List.mem_map_of_mem (mem_blocks_copyAnimations_plainSheet _)
  have hcompletes := hblocks _ hblock
  dsimp only at hcompletes
  refine ⟨hanimations "spin" hspin "-webkit-" mem_add_keyframes_chrome25, _, hblock, ?_, ?_⟩
  · have hd : plainColumnWidth ∈ declarations ((ofSelection chrome25).markIn none
        [.leaf (.declaration plainColumnWidth), .leaf (.declaration plainWidth)]) :=
      mem_declarations_markIn (by decide) List.mem_cons_self
    have hadd : "-webkit-" ∈ (ofSelection chrome25).add plainColumnWidth.property := by
      rw [add, feature?_columnWidth]
      exact mem_add_columnWidth_chrome25
    have hothers : ∀ other ∈ (ofSelection chrome25).vendors, other ≠ "-webkit-" →
        Text.contains plainColumnWidth.value other = false := by
      intro other hother hne
      rw [vendors_chrome25] at hother
      exact absurd (List.mem_singleton.mp hother) hne
    have hform : ("-webkit-column-width", "1px") ∈ columnWidthFeature.spelling.forms "-webkit-"
        plainColumnWidth.property plainColumnWidth.value := by
      rw [forms_columnWidth]
      exact List.mem_singleton_self _
    exact (hcompletes _ hd).property _ feature?_columnWidth rfl "-webkit-" hadd rfl hothers
      _ hform
  · have hd : plainWidth ∈ declarations ((ofSelection chrome25).markIn none
        [.leaf (.declaration plainColumnWidth), .leaf (.declaration plainWidth)]) :=
      mem_declarations_markIn (by decide) (List.mem_cons_of_mem _ List.mem_cons_self)
    have hvendors : "-webkit-" ∈ (ofSelection chrome25).vendors := by
      rw [vendors_chrome25]
      exact List.mem_singleton_self _
    have hunmarked : ∀ mark ∈ (ofSelection chrome25).vendors,
        Text.contains plainWidth.value mark = false := by
      rw [vendors_chrome25]
      decide
    exact (hcompletes _ hd).value (by decide) hunmarked "-webkit-" hvendors rfl _
      mem_markedValues_plainWidth

end Plan
end VendorPrefixing
