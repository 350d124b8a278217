import VendorPrefixing.Proofs.Marking.Removal

/-!
# What empty statistics say

A run counts the declarations and animations that it adds and removes.  It does
not count the declarations whose value it overwrites, so a run with empty
statistics may still have changed a style sheet.

Main results:

- Theorem `Plan.onlyOverwrites_of_isEmpty`: a run with empty statistics has
  overwritten values and done nothing else.
- Theorem `Plan.process_fst_eq_self_iff`: such a run leaves a style sheet as it is
  exactly where it overwrites nothing.
- Theorem `Plan.process_columns`: a run that overwrites a value and counts nothing.
-/

namespace VendorPrefixing
namespace Plan

variable {plan : Plan}

/-- What a run with empty statistics has left alone. -/
structure OnlyOverwrites (plan : Plan) (n : Node) : Prop where
  copied : plan.copyKeyframes n = n
  marked : plan.markProperties n = n
  kept : plan.removeMarks (plan.markValues n) = plan.markValues n
  overwritten : plan.markValues n =
    n.mapContents (fun vendor => (·.map (Node.overwrite (plan.markValue vendor)))) none

/-- A run with empty statistics has overwritten values and done nothing else. -/
theorem onlyOverwrites_of_isEmpty {n : Node} (h : (plan.process n).2.isEmpty = true) :
    plan.OnlyOverwrites n := by
  have hzero := Statistics.isEmpty_iff.mp h
  simp only [process, addition, removal, Statistics.merge, Statistics.zero, Nat.add_zero,
    Nat.zero_add, Statistics.mk.injEq] at hzero
  obtain ⟨hadded, hremoved, hcopies, hdropped⟩ := hzero
  have hcopied : plan.copyKeyframes n = n := by
    have hle := Node.length_animations_le_copyAnimations (plan.add "@keyframes") n
    rw [copyKeyframes] at hcopies ⊢
    exact Node.copyAnimations_eq_self_of_length (by omega)
  rw [hcopied] at hadded hremoved hdropped
  have hproperties := plan.declarationCount_le_markProperties n
  have hvalues := plan.declarationCount_le_markValues (plan.markProperties n)
  have hmarked : plan.markProperties n = n := plan.markProperties_eq_self_of_count (by omega)
  rw [hmarked] at hadded hremoved hdropped hvalues
  have hkept : plan.removeKeyframes (plan.markValues n) = plan.markValues n := by
    have hle := Node.length_animations_dropAnimations_le plan.removesKeyframes (plan.markValues n)
    rw [removeKeyframes] at hdropped ⊢
    exact Node.dropAnimations_eq_self_of_length (by omega)
  rw [hkept] at hremoved
  have hresult : plan.removeDeclarations (plan.markValues n) = plan.markValues n := by
    have hle := Node.declarationCount_mapContents_filter_le
      (fun _ h => plan.not_any_removes_of_none h) none (plan.markValues n)
    rw [removeDeclarations] at hremoved ⊢
    exact Node.mapContents_filter_eq_self_of_count
      (fun _ h => plan.not_any_removes_of_none h) (Nat.le_antisymm hle (by
        exact Nat.sub_eq_zero_iff_le.mp hremoved))
  exact ⟨hcopied, hmarked, by rw [removeMarks, hkept, hresult],
    plan.markValues_eq_of_count (by omega)⟩

theorem process_fst_of_isEmpty {n : Node} (h : (plan.process n).2.isEmpty = true) :
    (plan.process n).1 =
      n.mapContents (fun vendor => (·.map (Node.overwrite (plan.markValue vendor)))) none := by
  have honly := onlyOverwrites_of_isEmpty h
  rw [process_fst, addMarks, honly.copied, honly.marked, honly.kept, honly.overwritten]

/-! ## A value that is overwritten -/

/-- A version that is selected needs the marks of the needs that cover it. -/
theorem mem_add_of_need (need : Need) (target : Target) {selection : Selection}
    {f : Feature} {mark : String} (hneed : need ∈ f.needs) (htarget : target ∈ need.targets Browser.builtIn)
    (hselected : selection.contains target = true)
    (hmark : Browser.builtIn.vendorFor? target = some mark) :
    mark ∈ (FeaturePlan.ofFeature Browser.builtIn selection f).add := by
  refine BrowserTable.mem_vendorsOf.mpr ⟨target, List.mem_filter.mpr ⟨?_, hselected⟩, hmark⟩
  exact (mem_sortDistinct Target.before_strictOrder).mpr
    (List.mem_flatMap.mpr ⟨need, hneed, htarget⟩)

/-- Chrome 25 alone, which needs a mark for columns and for computed lengths. -/
def chrome25 : Selection :=
  Selection.empty.insert ⟨"chrome", ⟨25, 0⟩⟩

theorem vendors_chrome25 : (ofSelection chrome25).vendors = ["-webkit-"] := by
  decide

/-- The width of columns, which needs a mark. -/
def columnWidthFeature : Feature :=
  Feature.transitional "column-width" Feature.columnNeeds

theorem columnWidthFeature_mem_builtIn : columnWidthFeature ∈ Feature.builtIn := by
  decide

theorem mem_add_columnWidth_chrome25 : "-webkit-" ∈
    (FeaturePlan.ofFeature Browser.builtIn chrome25 columnWidthFeature).add := by
  refine mem_add_of_need (Feature.since "chrome" ⟨4, 0⟩) ⟨"chrome", ⟨25, 0⟩⟩
    List.mem_cons_self ?_ ?_ ?_ <;> decide

/-- A column width for older browsers. -/
def columnWidth (value : String) : Declaration where
  property := "-webkit-column-width"
  value := value
  position := ⟨1, 3⟩

/-- The style sheet that consists of this declaration. -/
def columns (value : String) : Node :=
  .block .sheet [.block (.rule ["a"]) [.leaf (.declaration (columnWidth value))]]

theorem add_computedLength_chrome25 : "-webkit-" ∈
    (FeaturePlan.ofFeature Browser.builtIn chrome25 Feature.computedLength).add := by
  refine mem_add_of_need (Feature.between "chrome" ⟨19, 0⟩ ⟨25, 0⟩) ⟨"chrome", ⟨25, 0⟩⟩
    List.mem_cons_self ?_ ?_ ?_ <;> decide

/-- The value can take the mark of its property. -/
theorem marksFor_columnWidth :
    (ofSelection chrome25).marksFor none (columnWidth "calc(1px + 1em)") = ["-webkit-"] := by
  rw [marksFor, vendors_chrome25]
  refine List.filter_eq_self.mpr fun mark hmark => ?_
  obtain rfl := List.mem_singleton.mp hmark
  rw [isClaimed, others, vendors_chrome25]
  decide

/-- Computed lengths are the only feature in the value. -/
theorem featuresOf_columnWidth :
    (ofSelection chrome25).featuresOf (columnWidth "calc(1px + 1em)") =
      [FeaturePlan.ofFeature Browser.builtIn chrome25 Feature.computedLength] := by
  have hunmarked : unmarked (columnWidth "calc(1px + 1em)").property = "column-width" := by
    decide
  have hvalues : "column-width" ∉ Feature.valueProperties := by decide
  have hfinds : (Matcher.ofNames ["calc"]).finds (columnWidth "calc(1px + 1em)").value = true := by
    decide
  rw [featuresOf, hunmarked, featuresIn_eq hvalues (by decide) (by decide)]
  refine List.filter_eq_self.mpr fun f hf => ?_
  obtain rfl := List.mem_singleton.mp hf
  rw [FeaturePlan.ofFeature, matcher?_computedLength]
  exact hfinds

theorem allMarkedValues_columnWidth :
    (ofSelection chrome25).allMarkedValues none (columnWidth "calc(1px + 1em)") =
      ["-webkit-calc(1px + 1em)"] := by
  have hneeded : (FeaturePlan.ofFeature Browser.builtIn chrome25
      Feature.computedLength).add.contains "-webkit-" = true := by
    rw [List.contains_eq_mem, decide_eq_true_eq]
    exact add_computedLength_chrome25
  have hmarked : markFeature "-webkit-" ["calc(1px + 1em)"]
      (FeaturePlan.ofFeature Browser.builtIn chrome25 Feature.computedLength) =
        ["-webkit-calc(1px + 1em)"] := by
    have hplain : Feature.computedLength.spelling = .plain := by decide
    have hmark : (if (Matcher.ofNames ["calc"]).finds "calc(1px + 1em)" = true then
        Spelling.plain.values (.ofNames ["calc"]) "-webkit-" "calc(1px + 1em)"
          else ["calc(1px + 1em)"]) = ["-webkit-calc(1px + 1em)"] := by
      decide
    rw [markFeature, FeaturePlan.ofFeature, matcher?_computedLength, hplain]
    dsimp only
    rw [List.flatMap_cons, List.flatMap_nil, List.append_nil]
    exact hmark
  have hdiffers : (["-webkit-calc(1px + 1em)"].filter (· != "calc(1px + 1em)")) =
      ["-webkit-calc(1px + 1em)"] := by
    decide
  rw [allMarkedValues, marksFor_columnWidth, featuresOf_columnWidth, List.flatMap_cons,
    List.flatMap_nil, List.append_nil, markedValues, List.filter_cons, if_pos hneeded,
    List.filter_nil, List.foldl_cons, List.foldl_nil, columnWidth, hmarked, hdiffers]

theorem removesProperty_columnWidth :
    (ofSelection chrome25).removesProperty "-webkit-column-width" = false := by
  have hname : "-webkit-column-width" ∈
      columnWidthFeature.spelling.names "-webkit-" "column-width" := by
    decide
  rw [← Bool.not_eq_true, removesProperty_iff]
  rintro ⟨-, hkept⟩
  refine hkept _ (mem_features.mpr ⟨_, columnWidthFeature_mem_builtIn, rfl⟩) ?_
  exact List.mem_flatMap.mpr ⟨"-webkit-", mem_add_columnWidth_chrome25, hname⟩

/-- A pass over this style sheet that puts nothing in only overwrites. -/
theorem mapContents_weave_columns {same : Declaration → Declaration → Bool}
    {forms : Option String → Declaration → List Declaration × Declaration} {value new : String}
    (h : forms none (columnWidth value) = ([], columnWidth new)) :
    (columns value).mapContents (fun vendor => Node.weave same (forms vendor)) none =
      columns new := by
  have hrule : Node.weave same (forms none) [.leaf (.declaration (columnWidth value))] =
      [.leaf (.declaration (columnWidth new))] := by
    rw [Node.weave, Node.weaveFrom_cons_leaf, Node.news, h]
    rfl
  exact congrArg (fun ns => Node.block .sheet [.block (.rule ["a"]) ns]) hrule

/-- Adding overwrites the value. -/
theorem addition_columns : (ofSelection chrome25).addition (columns "calc(1px + 1em)") =
    (columns "-webkit-calc(1px + 1em)", .zero) := by
  have hcopied : (ofSelection chrome25).copyKeyframes (columns "calc(1px + 1em)") =
      columns "calc(1px + 1em)" := rfl
  have hunknown : (ofSelection chrome25).feature? (columnWidth "calc(1px + 1em)").property = none :=
    feature?_eq_none_of_head? (by decide)
  have hproperties : (ofSelection chrome25).markProperties (columns "calc(1px + 1em)") =
      columns "calc(1px + 1em)" :=
    mapContents_weave_columns (congrArg (·, _) (propertyForms_of_unknown hunknown))
  have hown : vendorOf? (columnWidth "calc(1px + 1em)").property = some "-webkit-" := by
    decide
  have hvalue : (ofSelection chrome25).markValue none (columnWidth "calc(1px + 1em)") =
      ([], columnWidth "-webkit-calc(1px + 1em)") := by
    rw [markValue_of_marked hown, allMarkedValues_columnWidth]
    rfl
  have hvalues : (ofSelection chrome25).markValues (columns "calc(1px + 1em)") =
      columns "-webkit-calc(1px + 1em)" :=
    mapContents_weave_columns hvalue
  rw [addition, hcopied, hproperties, hvalues]
  rfl

/-- Nothing is removed after that. -/
theorem removal_columns : (ofSelection chrome25).removal (columns "-webkit-calc(1px + 1em)") =
    (columns "-webkit-calc(1px + 1em)", .zero) := by
  have hbare : IsBare "calc(1px + 1em)" := isBare_of_hyphen_not_mem (by decide)
  have hmarked : "-webkit-calc(1px + 1em)" ∈ (ofSelection chrome25).allMarkedValues none
      (columnWidth "calc(1px + 1em)") := by
    rw [allMarkedValues_columnWidth]
    exact List.mem_singleton_self _
  have hkept : (ofSelection chrome25).removesDeclaration
      (columnWidth "-webkit-calc(1px + 1em)") = false :=
    removesDeclaration_eq_false (d := columnWidth "calc(1px + 1em)") none removesProperty_columnWidth
      hbare (.inr hmarked)
  have hkeyframes : (ofSelection chrome25).removeKeyframes (columns "-webkit-calc(1px + 1em)") =
      columns "-webkit-calc(1px + 1em)" := rfl
  have hdeclarations : (ofSelection chrome25).removeDeclarations
      (columns "-webkit-calc(1px + 1em)") = columns "-webkit-calc(1px + 1em)" := by
    refine Node.mapContents_eq_self
      (p := fun _ d => (ofSelection chrome25).removesDeclaration d = false)
      (fun _ _ h => dropDeclarations_eq_self h) fun x hx => ?_
    obtain rfl := List.mem_singleton.mp hx
    exact hkept
  rw [removal, hkeyframes, hdeclarations, Nat.sub_self, Nat.sub_self]
  rfl

/-- A run overwrites the value and counts nothing. -/
theorem process_columns : (ofSelection chrome25).process (columns "calc(1px + 1em)") =
    (columns "-webkit-calc(1px + 1em)", .zero) := by
  rw [process, addition_columns]
  dsimp only
  rw [removal_columns]
  rfl

/-! ## Untouched style sheets -/

/-- A run with empty statistics leaves a style sheet as it is exactly where it
overwrites the value of no declaration. -/
theorem process_fst_eq_self_iff (plan : Plan) (head : Block) (children : List Node)
    (h : (plan.process (.block head children)).2.isEmpty = true) :
    (plan.process (.block head children)).1 = .block head children ↔
      ∀ x ∈ (Node.block head children).placed none, ¬ plan.Overwrites x.1 x.2 := by
  rw [process_fst_of_isEmpty h, Node.mapContents_overwrite_eq_self_iff rfl]
  simp only [markValue_snd_eq_self_iff]

theorem process_fst_columns_iff :
    ((ofSelection chrome25).process (columns "calc(1px + 1em)")).1 = columns "calc(1px + 1em)" ↔
      ∀ x ∈ (columns "calc(1px + 1em)").placed none,
        ¬ (ofSelection chrome25).Overwrites x.1 x.2 :=
  process_fst_eq_self_iff (ofSelection chrome25) .sheet _ (by
    have h := congrArg Prod.snd process_columns
    exact Statistics.isEmpty_iff.mpr h)

/-- Empty statistics do not mean an untouched style sheet. -/
theorem exists_isEmpty_process_ne :
    ((ofSelection chrome25).process (columns "calc(1px + 1em)")).2.isEmpty = true ∧
      ((ofSelection chrome25).process (columns "calc(1px + 1em)")).1 ≠
        columns "calc(1px + 1em)" := by
  rw [process_columns]
  exact ⟨rfl, by decide⟩

end Plan
end VendorPrefixing
