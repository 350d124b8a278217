import VendorPrefixing.Proofs.Marking.Filter
import VendorPrefixing.Proofs.Marking.Passes
import VendorPrefixing.Proofs.Sheet.Locality

/-!
# Processing in parts

A run treats the rules of a style sheet one by one.  Only animations of one name have to do
with each other, and a conditional block that belongs to no vendor is treated as the rules
inside of it.

Main results:

- Theorem `Plan.process_sheet`: what a run makes of the rules of a style sheet.
- Theorem `Plan.processRules_append`: rules whose animations have different names are
  processed independently.
- Theorem `Plan.processRules_block`: a conditional block is processed as its rules are.
- Theorem `Plan.process_local`: both for all rules that were read.
-/

namespace VendorPrefixing

open Node

namespace Plan

variable {plan : Plan} {ns ms : List Node} {head : Block}

/-! ## The steps of a run -/

/-- Rules with copies of their animations. -/
def copyRules (plan : Plan) (ns : List Node) : List Node :=
  (copyAll (plan.add "@keyframes") (animationsAll ns) ns).1

/-- Rules with the marked forms of their declarations. -/
def markRules (plan : Plan) : List Node → List Node :=
  mapContentsAll plan.markValuesIn none ∘ mapContentsAll plan.markPropertiesIn none

/-- Rules without their useless animations. -/
def keepRules (plan : Plan) : List Node → List Node :=
  dropAll plan.removesKeyframes

/-- Rules without their useless declarations. -/
def clearRules (plan : Plan) : List Node → List Node :=
  mapContentsAll (fun _ => plan.dropDeclarations) none

/-- A whole run over some rules, with what it has changed. -/
def processRules (plan : Plan) (ns : List Node) : List Node × Statistics :=
  let copied := plan.copyRules ns
  let added := plan.markRules copied
  let kept := plan.keepRules added
  let result := plan.clearRules kept
  (result,
    { declarationsAdded := declarationCountAll added - declarationCountAll copied
      declarationsRemoved := declarationCountAll kept - declarationCountAll result
      keyframesAdded := (animationsAll copied).length - (animationsAll ns).length
      keyframesRemoved := (animationsAll added).length - (animationsAll kept).length })

variable (plan)

/-- Weaving leaves rules alone. -/
theorem weave_eq_self {same : Declaration → Declaration → Bool}
    {forms : Declaration → List Declaration × Declaration} (h : declarations ns = []) :
    weave same forms ns = ns := by
  refine weaveFrom_eq_self ?_ ?_
  all_goals
    rw [h]
    exact fun d hd => absurd hd List.not_mem_nil

theorem isLocal_mark : IsLocal (plan.markValues ∘ plan.markProperties) plan.markRules :=
  (isLocal_mapContents fun _ _ => weave_eq_self).comp (isLocal_mapContents fun _ _ => weave_eq_self)

theorem isLocal_removeKeyframes : IsLocal plan.removeKeyframes plan.keepRules :=
  isLocal_dropAnimations plan.removesKeyframes

theorem isLocal_removeDeclarations : IsLocal plan.removeDeclarations plan.clearRules :=
  isLocal_mapContents fun _ ns hns =>
    dropDeclarations_eq_self fun d hd => by rw [hns] at hd; exact absurd hd List.not_mem_nil

section

variable (h : declarations ns = [])

include h

theorem declarations_copyRules : declarations (plan.copyRules ns) = [] :=
  (declarations_copyAll _ _ ns).trans h

theorem declarations_markRules : declarations (plan.markRules (plan.copyRules ns)) = [] :=
  plan.isLocal_mark.declarations_eq_nil _ (plan.declarations_copyRules h)

theorem declarations_keepRules :
    declarations (plan.keepRules (plan.markRules (plan.copyRules ns))) = [] :=
  plan.isLocal_removeKeyframes.declarations_eq_nil _ (plan.declarations_markRules h)

/-- What a run makes of the rules of a style sheet. -/
theorem process_sheet :
    plan.process (block .sheet ns) =
      (block .sheet (plan.processRules ns).1, (plan.processRules ns).2) := by
  have hcopied : plan.copyKeyframes (block .sheet ns) = block .sheet (plan.copyRules ns) := rfl
  have hadded := plan.isLocal_mark.sheet _ (plan.declarations_copyRules h)
  have hkept := plan.isLocal_removeKeyframes.sheet _ (plan.declarations_markRules h)
  have hresult := plan.isLocal_removeDeclarations.sheet _ (plan.declarations_keepRules h)
  rw [Function.comp] at hadded
  rw [process, addition, hcopied]
  dsimp only
  rw [hadded, removal]
  dsimp only
  rw [hkept, hresult]
  simp only [Statistics.merge, Statistics.zero, Nat.add_zero, Nat.zero_add]
  rfl

end

/-! ## What a run changes -/

/-- Marking takes no declaration away. -/
theorem declarationCountAll_le_markRules (ns : List Node) :
    declarationCountAll ns ≤ declarationCountAll (plan.markRules ns) :=
  Nat.le_trans
    (declarationCountAll_le_mapContentsAll (fun _ ms => declarationCountAll_le_weaveFrom [] ms) _ ns)
    (declarationCountAll_le_mapContentsAll (fun _ ms => declarationCountAll_le_weaveFrom [] ms) _ _)

/-- Clearing adds none. -/
theorem declarationCountAll_clearRules_le (h : declarations ns = []) :
    declarationCountAll (plan.clearRules ns) ≤ declarationCountAll ns := by
  have hle : (plan.removeDeclarations (block .sheet ns)).declarationCount ≤
      (block .sheet ns).declarationCount :=
    declarationCount_mapContents_filter_le (fun _ => plan.not_any_removes_of_none) none _
  rwa [plan.isLocal_removeDeclarations.sheet ns h] at hle

/-- Copying takes no animation away. -/
theorem length_animationsAll_le_copyRules (ns : List Node) :
    (animationsAll ns).length ≤ (animationsAll (plan.copyRules ns)).length :=
  (animationsAll_sublist_copyAll _ _ ns).length_le

/-- Dropping adds none. -/
theorem length_animationsAll_keepRules_le (ns : List Node) :
    (animationsAll (plan.keepRules ns)).length ≤ (animationsAll ns).length := by
  rw [keepRules, animationsAll_dropAll]
  exact List.length_filter_le _ _

/-! ## Rules beside each other -/

theorem copyRules_append (h : NamesApart ns ms) :
    plan.copyRules (ns ++ ms) = plan.copyRules ns ++ plan.copyRules ms :=
  copyAll_append_of_namesApart _ h

/-- Rules whose animations have different names are processed independently. -/
theorem processRules_append (hns : declarations ns = []) (hms : declarations ms = [])
    (h : NamesApart ns ms) :
    plan.processRules (ns ++ ms) =
      ((plan.processRules ns).1 ++ (plan.processRules ms).1,
        (plan.processRules ns).2.merge (plan.processRules ms).2) := by
  have hadded := fun ks => plan.declarationCountAll_le_markRules (plan.copyRules ks)
  have hcopied := plan.length_animationsAll_le_copyRules
  have hkept := fun ks => plan.length_animationsAll_keepRules_le (plan.markRules (plan.copyRules ks))
  have hclearedNs := plan.declarationCountAll_clearRules_le (plan.declarations_keepRules hns)
  have hclearedMs := plan.declarationCountAll_clearRules_le (plan.declarations_keepRules hms)
  simp only [processRules, plan.copyRules_append h, plan.isLocal_mark.append,
    plan.isLocal_removeKeyframes.append, plan.isLocal_removeDeclarations.append,
    declarationCountAll_append, animationsAll_append, List.length_append, Statistics.merge,
    Prod.mk.injEq, Statistics.mk.injEq, true_and]
  have := hadded ns
  have := hadded ms
  have := hcopied ns
  have := hcopied ms
  have := hkept ns
  have := hkept ms
  omega

/-! ## Rules inside a block -/

section

variable (hcond : head.isConditional = true)

include hcond

theorem animationsAll_block (ns : List Node) : animationsAll [block head ns] = animationsAll ns := by
  rw [animationsAll_singleton, animationsIn_of_conditional hcond]

theorem copyRules_block (ns : List Node) :
    plan.copyRules [block head ns] = [block head (plan.copyRules ns)] := by
  rw [copyRules, animationsAll_block hcond, copyAll_cons, copyIn_of_conditional hcond]
  rfl

end

theorem declarationCountAll_block (ns : List Node) :
    declarationCountAll [block head ns] = declarationCountAll ns :=
  Nat.add_zero _

/-- A conditional block of no vendor is processed as its rules are. -/
theorem processRules_block (hcond : head.isConditional = true)
    (hvendor : head.vendorWithin none = none) (h : declarations ns = []) :
    plan.processRules [block head ns] =
      ([block head (plan.processRules ns).1], (plan.processRules ns).2) := by
  simp only [processRules, plan.copyRules_block hcond,
    plan.isLocal_mark.block head _ hcond hvendor (plan.declarations_copyRules h),
    plan.isLocal_removeKeyframes.block head _ hcond hvendor (plan.declarations_markRules h),
    plan.isLocal_removeDeclarations.block head _ hcond hvendor (plan.declarations_keepRules h),
    declarationCountAll_block, animationsAll_block hcond]

/-! ## Style sheets that were read -/

/-- A run treats the rules of a style sheet that was read independently of further rules, if
these have other animations, and of a conditional block around them. -/
theorem process_local {file css : String} (h : Sheet.parse file css = .ok (block .sheet ns)) :
    ∃ done stats, plan.process (block .sheet ns) = (block .sheet done, stats) ∧
      (∀ further furtherCss ms, Sheet.parse further furtherCss = .ok (block .sheet ms) →
        NamesApart ns ms →
        ∃ furtherDone furtherStats,
          plan.process (block .sheet ms) = (block .sheet furtherDone, furtherStats) ∧
            plan.process (block .sheet (ns ++ ms)) =
              (block .sheet (done ++ furtherDone), stats.merge furtherStats)) ∧
      ∀ head : Block, head.isConditional = true → head.vendorWithin none = none →
        plan.process (block .sheet [block head ns]) = (block .sheet [block head done], stats) := by
  have hrules : ∀ {file css ks}, Sheet.parse file css = .ok (block .sheet ks) →
      declarations ks = [] := by
    intro file css ks hparse
    obtain ⟨ks', heq, hstands⟩ := Sheet.allStandIn_of_parse hparse
    obtain rfl : ks = ks' := (Node.block.inj heq).2
    exact declarations_eq_nil_of_allStandIn hstands
  have hns := hrules h
  refine ⟨_, _, plan.process_sheet hns, ?_, ?_⟩
  · intro further furtherCss ms hfurther hapart
    have hms := hrules hfurther
    have hboth : declarations (ns ++ ms) = [] := by rw [declarations_append, hns, hms]; rfl
    refine ⟨_, _, plan.process_sheet hms, ?_⟩
    rw [plan.process_sheet hboth, plan.processRules_append hns hms hapart]
  · intro head hcond hvendor
    have hblock : declarations [block head ns] = [] := rfl
    rw [plan.process_sheet hblock, plan.processRules_block hcond hvendor hns]

/-- A text with an animation of another name than the one in the text before. -/
def turnText : String :=
  "@keyframes c\x7b\x7d"

theorem parse_turnText :
    Sheet.parse Sheet.unnamed turnText = .ok (.block .sheet [.block (.keyframes "c" none) []]) := by
  have hsettle : Chars.settle turnText.toList = turnText.toList :=
    Chars.settle_eq_self (IsCommentFree.of_not_mem (by decide))
  have hrun : (Reading.ofText turnText.toList).run = .ok [.block (.keyframes "c" none) []] := by
    rw [Reading.run_of_more rfl, Reading.run_of_more rfl, Reading.run_eq]
    rfl
  rw [Sheet.parse, hsettle, hrun]

theorem process_local_operaRules :
    let kept := Node.block (.rule ["b"]) [.ofDeclaration "fit" "fill" ⟨1, 47⟩]
    let turn := Node.block (.keyframes "c" none) []
    withoutOpera.process (.block .sheet (operaRules ++ [turn])) =
        (.block .sheet [kept, turn], ⟨0, 1, 0, 1⟩) ∧
      withoutOpera.process (.block .sheet [.block (.media "print") operaRules]) =
        (.block .sheet [.block (.media "print") [kept]], ⟨0, 1, 0, 1⟩) := by
  intro kept turn
  obtain ⟨done, stats, hprocess, happend, hblock⟩ := withoutOpera.process_local parse_operaText
  have hdone : withoutOpera.process (.block .sheet operaRules) =
      (.block .sheet [kept], ⟨0, 1, 0, 1⟩) := by
    decide
  cases hprocess.symm.trans hdone
  have hapart : NamesApart operaRules [turn] := by
    unfold NamesApart
    decide
  obtain ⟨furtherDone, furtherStats, hfurther, happend⟩ :=
    happend _ _ _ parse_turnText hapart
  have hturn : withoutOpera.process (.block .sheet [turn]) = (.block .sheet [turn], .zero) := by
    decide
  cases hfurther.symm.trans hturn
  exact ⟨happend, hblock _ rfl rfl⟩

end Plan
end VendorPrefixing
