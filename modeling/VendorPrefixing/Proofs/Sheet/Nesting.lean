import VendorPrefixing.Proofs.Sheet.Animation
import VendorPrefixing.Proofs.Sheet.Shape

/-!
# Where animations can stand

Animations are looked for at the top of a style sheet and inside conditional blocks.  Where every
block stands in a block of a kind that it may stand in, these are all animations that there are:
what is inside of rules, pages and animations is no animation.

Main results:

- Theorem `Node.allAnimations_eq_nil`: there are no animations among frames and declarations.
- Theorem `Node.animations_eq_allAnimations`: the animations that are found are all of them.
-/

namespace VendorPrefixing

/-- The animation that a block is. -/
def Block.animation? : Block → Option Animation
  | keyframes name vendor => some ⟨name, vendor⟩
  | _ => none

/-- Only rules have blocks of other kinds than frames among them. -/
theorem Block.StandsIn.eq_frame {content : Content} {head : Block} (h : head.StandsIn content)
    (hcontent : content ≠ .rules) : ∃ selectors, head = .frame selectors := by
  cases head with
  | frame selectors => exact ⟨selectors, rfl⟩
  | sheet => exact h.elim
  | _ => exact absurd h hcontent

/-- What has rules inside stands among rules itself. -/
theorem Block.StandsIn.eq_rules {content : Content} {head : Block} (h : head.StandsIn content)
    (hhead : head.content = .rules) : content = .rules := by
  cases head with
  | frame _ => cases hhead
  | sheet => exact h.elim
  | _ => exact h

namespace Node

mutual

/-- All animations of a tree, wherever they stand, in the order of the text. -/
def allAnimations : Node → List Animation
  | leaf _ => []
  | block head children => head.animation?.toList ++ allAnimationsAll children

/-- All animations of some trees, wherever they stand, in the order of the text. -/
def allAnimationsAll : List Node → List Animation
  | [] => []
  | n :: rest => allAnimations n ++ allAnimationsAll rest

end

mutual

/-- Trees in which every block stands where its kind may stand. -/
def BlocksStandIn (content : Content) : Node → Prop
  | leaf _ => True
  | block head children => head.StandsIn content ∧ AllBlocksStandIn head.content children

/-- Lists of trees in which every block stands where its kind may stand. -/
def AllBlocksStandIn (content : Content) : List Node → Prop
  | [] => True
  | n :: rest => BlocksStandIn content n ∧ AllBlocksStandIn content rest

end

variable {content : Content} {ns : List Node} {n : Node} {head : Block} {children : List Node}

theorem allAnimationsAll_append (ns ms : List Node) :
    allAnimationsAll (ns ++ ms) = allAnimationsAll ns ++ allAnimationsAll ms := by
  induction ns with
  | nil => rfl
  | cons n ns ih => rw [List.cons_append, allAnimationsAll, ih, allAnimationsAll, List.append_assoc]

theorem allBlocksStandIn_iff :
    AllBlocksStandIn content ns ↔ ∀ n ∈ ns, n.BlocksStandIn content := by
  induction ns with
  | nil => exact iff_of_true trivial (List.forall_mem_nil _)
  | cons n ns ih => rw [AllBlocksStandIn, ih, List.forall_mem_cons]

mutual

theorem StandsIn.blocksStandIn {content : Content} :
    (n : Node) → n.StandsIn content → n.BlocksStandIn content
  | leaf _, _ => trivial
  | block _ children, h => ⟨h.1, AllStandIn.allBlocksStandIn children h.2⟩

theorem AllStandIn.allBlocksStandIn {content : Content} :
    (ns : List Node) → AllStandIn content ns → AllBlocksStandIn content ns
  | [], _ => trivial
  | n :: rest, h => ⟨StandsIn.blocksStandIn n h.1, AllStandIn.allBlocksStandIn rest h.2⟩

end

mutual

/-- There are no animations among frames and declarations. -/
theorem allAnimations_eq_nil {content : Content} (hcontent : content ≠ .rules) :
    (n : Node) → n.BlocksStandIn content → n.allAnimations = []
  | leaf _, _ => rfl
  | block head children, h => by
    obtain ⟨selectors, rfl⟩ := h.1.eq_frame hcontent
    exact allAnimationsAll_eq_nil (by simp [Block.content]) children h.2

theorem allAnimationsAll_eq_nil {content : Content} (hcontent : content ≠ .rules) :
    (ns : List Node) → AllBlocksStandIn content ns → allAnimationsAll ns = []
  | [], _ => rfl
  | n :: rest, h => by
    rw [allAnimationsAll, allAnimations_eq_nil hcontent n h.1,
      allAnimationsAll_eq_nil hcontent rest h.2]
    rfl

end

mutual

/-- Among rules, the animations that are found are all of them. -/
theorem animationsIn_eq_allAnimations :
    (n : Node) → n.BlocksStandIn .rules → animationsIn n = n.allAnimations
  | leaf _, _ => rfl
  | block head children, h => by
    cases head with
    | sheet => exact h.1.elim
    | frame _ => cases h.1
    | keyframes name vendor =>
      rw [animationsIn, allAnimations, allAnimationsAll_eq_nil (by simp [Block.content]) children h.2]
      rfl
    | rule _ => exact (allAnimationsAll_eq_nil (by simp [Block.content]) children h.2).symm
    | page _ => exact (allAnimationsAll_eq_nil (by simp [Block.content]) children h.2).symm
    | media _ => exact animationsAll_eq_allAnimationsAll children h.2
    | supports _ => exact animationsAll_eq_allAnimationsAll children h.2
    | document _ _ => exact animationsAll_eq_allAnimationsAll children h.2

theorem animationsAll_eq_allAnimationsAll :
    (ns : List Node) → AllBlocksStandIn .rules ns → animationsAll ns = allAnimationsAll ns
  | [], _ => rfl
  | n :: rest, h => by
    rw [animationsAll, animationsIn_eq_allAnimations n h.1,
      animationsAll_eq_allAnimationsAll rest h.2, allAnimationsAll]

end

/-- The animations of a style sheet that are found are all of them. -/
theorem animations_eq_allAnimations (h : AllBlocksStandIn .rules ns) :
    (block .sheet ns).animations = (block .sheet ns).allAnimations :=
  animationsAll_eq_allAnimationsAll ns h

end Node
end VendorPrefixing
