import VendorPrefixing.Plan.Basic
import VendorPrefixing.Sheet.Animation
import VendorPrefixing.Sheet.Contents

/-!
# Removing what has become useless

Animations and declarations that only browsers outside the selection read are
taken out of a style sheet.

Main results:

- Theorem `Plan.mem_dropDeclarations`: a block loses exactly its useless
  declarations.
-/

namespace VendorPrefixing
namespace Plan

/-- Whether a declaration has become useless: by its property, or by a marked form
in its value. -/
def removesDeclaration (plan : Plan) (d : Declaration) : Bool :=
  plan.removesProperty d.property ||
    (plan.featuresIn (unmarked d.property)).any fun f =>
      f.removeMatcher?.any (·.finds d.value)

/-- Whether animations with a vendor mark have become useless. -/
def removesKeyframes (plan : Plan) (mark : String) : Bool :=
  plan.removesAtRule ("@" ++ mark ++ "keyframes")

/-- The nodes that are not useless declarations. -/
def dropDeclarations (plan : Plan) (ns : List Node) : List Node :=
  ns.filter fun n => !n.declaration?.any plan.removesDeclaration

/-- The style sheet without its useless animations. -/
def removeKeyframes (plan : Plan) (n : Node) : Node :=
  n.dropAnimations plan.removesKeyframes

/-- The style sheet without its useless declarations. -/
def removeDeclarations (plan : Plan) (n : Node) : Node :=
  n.mapContents (fun _ => plan.dropDeclarations) none

/-- A block loses exactly its useless declarations. -/
theorem mem_dropDeclarations {plan : Plan} {ns : List Node} {n : Node} :
    n ∈ plan.dropDeclarations ns ↔
      n ∈ ns ∧ ∀ d, n.declaration? = some d → plan.removesDeclaration d = false := by
  simp only [dropDeclarations, List.mem_filter]
  cases n.declaration? <;> simp

end Plan
end VendorPrefixing
