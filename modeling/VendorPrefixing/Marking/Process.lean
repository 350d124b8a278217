import VendorPrefixing.Marking.Removal
import VendorPrefixing.Marking.Statistics
import VendorPrefixing.Marking.Value

/-!
# Processing a style sheet

A run first adds what the plan needs, animations before properties before values,
and then removes what the plan has no use for.  It reports what it has changed:
animations and declarations are counted before and after each step, where the
declarations inside copied animations count with the animations.

Main results:

- Theorem `Plan.process_fst`: a run adds and then removes.
-/

namespace VendorPrefixing
namespace Plan

/-- The style sheet with copies of its animations for every mark they need. -/
def copyKeyframes (plan : Plan) (n : Node) : Node :=
  n.copyAnimations (plan.add "@keyframes")

/-- The style sheet with everything that the plan needs. -/
def addMarks (plan : Plan) (n : Node) : Node :=
  plan.markValues (plan.markProperties (plan.copyKeyframes n))

/-- The style sheet without anything that the plan has no use for. -/
def removeMarks (plan : Plan) (n : Node) : Node :=
  plan.removeDeclarations (plan.removeKeyframes n)

/-- Adding, with what it has changed. -/
def addition (plan : Plan) (n : Node) : Node × Statistics :=
  let copied := plan.copyKeyframes n
  let added := plan.markValues (plan.markProperties copied)
  (added,
    { Statistics.zero with
      declarationsAdded := added.declarationCount - copied.declarationCount
      keyframesAdded := copied.animations.length - n.animations.length })

/-- Removing, with what it has changed. -/
def removal (plan : Plan) (n : Node) : Node × Statistics :=
  let kept := plan.removeKeyframes n
  let result := plan.removeDeclarations kept
  (result,
    { Statistics.zero with
      declarationsRemoved := kept.declarationCount - result.declarationCount
      keyframesRemoved := n.animations.length - kept.animations.length })

/-- A whole run, with what it has changed. -/
def process (plan : Plan) (n : Node) : Node × Statistics :=
  let (added, additions) := plan.addition n
  let (result, removals) := plan.removal added
  (result, additions.merge removals)

/-- A run adds and then removes. -/
theorem process_fst (plan : Plan) (n : Node) :
    (plan.process n).1 = plan.removeMarks (plan.addMarks n) :=
  rfl

end Plan
end VendorPrefixing
