import VendorPrefixing.Marking.Process
import VendorPrefixing.Proofs.Plan.Basic
import VendorPrefixing.Proofs.Sheet.Pruned

/-!
# Removing as a filter

What a plan has no use for is dropped from a style sheet, wherever it stands, and
everything else is kept as it is.

Main results:

- Theorems `Plan.removeKeyframes_eq_prune` and `Plan.removeDeclarations_eq_prune`: what each
  of the two passes drops.
- Theorem `Plan.removal_of_allStandIn`: what removing does to a style sheet and how it is
  counted.
- Theorem `Plan.removal_eq_prune`: removing is a filter on every style sheet that was read.
-/

namespace VendorPrefixing

open Node

/-- Whether a feature is looked for in the values of a property. -/
def FeaturePlan.IsSoughtIn (f : FeaturePlan) (property : String) : Prop :=
  (f.feature.kind = .value ∧ f.feature.appliesTo property = true) ∨
    ((property = "transition" ∨ property = "transition-property") ∧
      f.feature.kind = .property ∧ f.feature.inTransitions = true)

namespace Plan

/-- Whether a node is an animation with a mark that the plan has no use for. -/
def IsUselessAnimation (plan : Plan) : Node → Prop :=
  IsAnimationWith fun mark => plan.removesAtRule ("@" ++ mark ++ "keyframes") = true

/-- Whether a node is a declaration that the plan has no use for, because of its property or
of a marked form in its value. -/
def IsUselessDeclaration (plan : Plan) : Node → Prop :=
  IsDeclarationWith fun d =>
    plan.removesProperty d.property = true ∨
      ∃ f ∈ plan.features, f.IsSoughtIn (unmarked d.property) ∧
        ∃ m, f.removeMatcher? = some m ∧ m.finds d.value = true

/-- Whether the plan has no use for a node. -/
def IsUseless (plan : Plan) (n : Node) : Prop :=
  plan.IsUselessAnimation n ∨ plan.IsUselessDeclaration n

variable {plan : Plan} {n : Node}

theorem removesDeclaration_iff {d : Declaration} :
    plan.removesDeclaration d = true ↔
      plan.removesProperty d.property = true ∨
        ∃ f ∈ plan.features, f.IsSoughtIn (unmarked d.property) ∧
          ∃ m, f.removeMatcher? = some m ∧ m.finds d.value = true := by
  rw [removesDeclaration, Bool.or_eq_true, List.any_eq_true]
  simp only [mem_featuresIn, FeaturePlan.IsSoughtIn, Option.any_eq_true, and_assoc]

theorem isUselessDeclaration_iff :
    plan.IsUselessDeclaration n ↔ n.IsDeclarationWith (plan.removesDeclaration · = true) := by
  simp only [IsUselessDeclaration, IsDeclarationWith, removesDeclaration_iff]

instance : DecidablePred plan.IsUselessAnimation :=
  inferInstanceAs (DecidablePred (IsAnimationWith _))

instance : DecidablePred plan.IsUselessDeclaration := fun _ =>
  decidable_of_iff _ isUselessDeclaration_iff.symm

instance : DecidablePred plan.IsUseless := fun n =>
  inferInstanceAs (Decidable (plan.IsUselessAnimation n ∨ plan.IsUselessDeclaration n))

/-- A useless declaration is a leaf. -/
theorem IsUselessDeclaration.exists_eq (h : plan.IsUselessDeclaration n) :
    ∃ d, n = leaf (.declaration d) := by
  obtain ⟨d, rfl, -⟩ := h
  exact ⟨d, rfl⟩

/-- Pruning does not change what is useless. -/
theorem isUselessDeclaration_prune_iff (q : Node → Prop) [DecidablePred q] :
    plan.IsUselessDeclaration (n.prune q) ↔ plan.IsUselessDeclaration n := by
  cases n with
  | leaf l => rfl
  | block head children =>
    exact iff_of_false (not_isDeclarationWith_of_none rfl) (not_isDeclarationWith_of_none rfl)

theorem isUseless_prune_iff (q : Node → Prop) [DecidablePred q] :
    plan.IsUseless (n.prune q) ↔ plan.IsUseless n :=
  or_congr (isAnimationWith_prune_iff q) (isUselessDeclaration_prune_iff q)

theorem IsUselessAnimation.not_isUselessDeclaration (h : plan.IsUselessAnimation n) :
    ¬plan.IsUselessDeclaration n := by
  rintro hdeclaration
  obtain ⟨d, rfl⟩ := hdeclaration.exists_eq
  exact not_isAnimationWith_leaf _ h

/-! ## The two passes -/

variable (plan)

/-- The first pass drops the useless animations. -/
theorem removeKeyframes_eq_prune {ns : List Node} (h : AllStandIn .rules ns) :
    plan.removeKeyframes (block .sheet ns) = (block .sheet ns).prune plan.IsUselessAnimation :=
  congrArg (block .sheet) (dropAll_eq_pruneAll ns h)

/-- The second pass drops the useless declarations. -/
theorem removeDeclarations_eq_prune (n : Node) :
    plan.removeDeclarations n = n.prune plan.IsUselessDeclaration := by
  rw [removeDeclarations]
  refine (mapContents_filter_eq_prune (fun m hm => by rw [hm]; rfl) none n).trans ?_
  refine prune_congr (fun m => ?_) n
  rw [isUselessDeclaration_iff]
  simp [IsDeclarationWith, declaration?]

variable {ns : List Node}

/-- Both passes together drop everything that is useless. -/
theorem removal_fst (h : AllStandIn .rules ns) :
    (plan.removal (block .sheet ns)).1 = (block .sheet ns).prune plan.IsUseless := by
  change plan.removeDeclarations (plan.removeKeyframes (block .sheet ns)) = _
  rw [plan.removeKeyframes_eq_prune h, removeDeclarations_eq_prune,
    prune_prune fun m => isUselessDeclaration_prune_iff plan.IsUselessAnimation]
  exact prune_congr (fun _ => Iff.rfl) _

/-- Inside of a useless declaration there is nothing to drop. -/
theorem IsUselessDeclaration.pruned_eq_nil {plan : Plan} {n : Node}
    (h : plan.IsUselessDeclaration n) (q : Node → Prop) [DecidablePred q] : n.pruned q = [] := by
  obtain ⟨d, rfl⟩ := h.exists_eq
  rfl

/-! ## Counting -/

/-- The first pass drops the useless animations of what is dropped altogether. -/
theorem pruned_isUselessAnimation (n : Node) :
    n.pruned plan.IsUselessAnimation =
      (n.pruned plan.IsUseless).filter plan.IsUselessAnimation := by
  rw [pruned_eq_filter (fun m hm => IsUselessDeclaration.pruned_eq_nil hm plan.IsUselessAnimation)
    fun m => IsUselessAnimation.not_isUselessDeclaration]
  rfl

/-- The second pass drops the useless declarations of what is dropped altogether. -/
theorem pruned_prune_isUselessAnimation (n : Node) :
    (n.prune plan.IsUselessAnimation).pruned plan.IsUselessDeclaration =
      (n.pruned plan.IsUseless).filter plan.IsUselessDeclaration := by
  rw [pruned_prune (fun m => isUselessDeclaration_prune_iff _)
    (fun m hm => prune_eq_self m (hm.pruned_eq_nil _))
    fun m => IsUselessAnimation.not_isUselessDeclaration]
  rfl

/-- How many declarations the second pass drops. -/
theorem declarationsRemoved_removal (h : AllStandIn .rules ns) :
    (plan.removal (block .sheet ns)).2.declarationsRemoved =
      (((block .sheet ns).pruned plan.IsUseless).filter plan.IsUselessDeclaration).length := by
  have hcount := declarationCount_prune_add plan.IsUselessDeclaration
    (plan.removeKeyframes (block .sheet ns))
  rw [← removeDeclarations_eq_prune, plan.removeKeyframes_eq_prune h,
    pruned_prune_isUselessAnimation, declarationCountAll_eq_length] at hcount
  · change (plan.removeKeyframes _).declarationCount -
      (plan.removeDeclarations (plan.removeKeyframes _)).declarationCount = _
    rw [plan.removeKeyframes_eq_prune h]
    omega
  · intro m hm
    obtain ⟨d, rfl⟩ := IsUselessDeclaration.exists_eq (by simpa using (List.mem_filter.mp hm).2)
    exact declarationCount_leaf_declaration d

/-- How many animations the first pass drops. -/
theorem keyframesRemoved_removal (h : AllStandIn .rules ns) :
    (plan.removal (block .sheet ns)).2.keyframesRemoved =
      (((block .sheet ns).pruned plan.IsUseless).filter plan.IsUselessAnimation).length := by
  have hcount := List.length_eq_length_filter_add (l := animationsAll ns)
    (·.vendor.any plan.removesKeyframes)
  rw [← pruned_isUselessAnimation]
  change (animationsAll ns).length - (animationsAll (dropAll plan.removesKeyframes ns)).length =
    (prunedAll (IsAnimationWith (plan.removesKeyframes · = true)) ns).length
  rw [animationsAll_dropAll, length_prunedAll ns h]
  omega

/-- What removing does to a style sheet and how it is counted. -/
theorem removal_of_allStandIn (h : AllStandIn .rules ns) :
    plan.removal (block .sheet ns) =
      ((block .sheet ns).prune plan.IsUseless,
        { Statistics.zero with
          declarationsRemoved :=
            (((block .sheet ns).pruned plan.IsUseless).filter plan.IsUselessDeclaration).length
          keyframesRemoved :=
            (((block .sheet ns).pruned plan.IsUseless).filter plan.IsUselessAnimation).length }) := by
  rw [← plan.removal_fst h, ← plan.declarationsRemoved_removal h,
    ← plan.keyframesRemoved_removal h]
  rfl

/-- Removing is a filter on every style sheet that was read.  It drops what the plan has no
use for and nothing else, counts the dropped animations and the dropped declarations that do
not stand inside of them, and drops nothing when it is done again. -/
theorem removal_eq_prune {file css : String} (h : Sheet.parse file css = .ok n) :
    plan.removal n =
      (n.prune plan.IsUseless,
        { Statistics.zero with
          declarationsRemoved :=
            ((n.pruned plan.IsUseless).filter plan.IsUselessDeclaration).length
          keyframesRemoved :=
            ((n.pruned plan.IsUseless).filter plan.IsUselessAnimation).length }) ∧
      plan.removal (n.prune plan.IsUseless) = (n.prune plan.IsUseless, Statistics.zero) := by
  obtain ⟨ns, rfl, hns⟩ := Sheet.allStandIn_of_parse h
  refine ⟨plan.removal_of_allStandIn hns, ?_⟩
  have hagain : ((block .sheet ns).prune plan.IsUseless).pruned plan.IsUseless = [] :=
    pruned_prune_self (fun _ => isUseless_prune_iff plan.IsUseless) (block .sheet ns)
  have hremoval := plan.removal_of_allStandIn (hns.pruneAll (p := plan.IsUseless))
  rw [prune] at hagain ⊢
  rw [hremoval, hagain, prune_eq_self _ hagain]
  rfl

/-- A plan that has no use for two forms with a mark. -/
def withoutOpera : Plan where
  selection := .empty
  features := []
  vendors := []
  removedProperties := ["-o-fit"]
  removedAtRules := ["@-o-keyframes"]
  report := ⟨[], [], [], []⟩

/-- A text in which both of them stand, the property also inside of the animation. -/
def operaText : String :=
  "@-o-keyframes a\x7bto\x7b-o-fit:fill\x7d\x7db\x7b-o-fit:fill;fit:fill\x7d"

/-- The rules that this text is read as. -/
def operaRules : List Node :=
  [.block (.keyframes "a" (some "-o-"))
    [.block (.frame ["to"]) [.ofDeclaration "-o-fit" "fill" ⟨1, 20⟩]],
  .block (.rule ["b"])
    [.ofDeclaration "-o-fit" "fill" ⟨1, 35⟩, .ofDeclaration "fit" "fill" ⟨1, 47⟩]]

theorem parse_operaText : Sheet.parse Sheet.unnamed operaText = .ok (.block .sheet operaRules) := by
  have hsettle : Chars.settle operaText.toList = operaText.toList :=
    Chars.settle_eq_self (IsCommentFree.of_not_mem (by decide))
  have hrun : (Reading.ofText operaText.toList).run = .ok operaRules := by
    rw [Reading.run_of_more rfl, Reading.run_of_more rfl, Reading.run_of_more rfl,
      Reading.run_of_more rfl, Reading.run_of_more rfl, Reading.run_of_more rfl,
      Reading.run_of_more rfl, Reading.run_of_more rfl, Reading.run_of_more rfl, Reading.run_eq]
    rfl
  rw [Sheet.parse, hsettle, hrun]

theorem removal_eq_prune_operaRules :
    Sheet.parse Sheet.unnamed operaText = .ok (.block .sheet operaRules) ∧
      withoutOpera.removal (.block .sheet operaRules) =
        (.block .sheet [.block (.rule ["b"]) [.ofDeclaration "fit" "fill" ⟨1, 47⟩]],
          ⟨0, 1, 0, 1⟩) := by
  have hremoval := (withoutOpera.removal_eq_prune parse_operaText).1
  refine ⟨parse_operaText, hremoval.trans ?_⟩
  decide

end Plan
end VendorPrefixing
