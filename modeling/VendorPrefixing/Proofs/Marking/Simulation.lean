import VendorPrefixing.Proofs.Marking.Visits
import VendorPrefixing.Proofs.Plan.Meaning

/-!
# Runs over drafts and runs over style sheets

A run over a draft makes one edit after the other at handles.  What it leads to is what the
passes make of the style sheet that the draft stands for, and it counts what they change.  The
run has no answer exactly if a value of the style sheet ends it.

Main results:

- Theorems `Plan.addTo_cases` and `Plan.removeFrom_eq`: the steps of a run over any draft in which
  blocks stand where they may.
- Theorem `Plan.processDraft_eq`: a whole run over a style sheet that was read.
-/

namespace VendorPrefixing
namespace Plan

open Draft

/-- No mark is listed twice. -/
structure MarksOnce (plan : Plan) : Prop where
  vendors : plan.vendors.Nodup
  keyframes : (plan.add "@keyframes").Nodup

/-- Whether marking the values of a style sheet, once it has its copies of animations and marked
properties, ends the program at one of its declarations. -/
def crashesIn (plan : Plan) (n : Node) : Bool :=
  ((plan.markProperties (plan.copyKeyframes n)).placed none).any fun x => plan.crashes x.1 x.2

/-- No plan that is built for a selection lists a mark twice. -/
theorem marksOnce_build (table : BrowserTable) (features : List Feature) (selection : Selection) :
    (build table features selection).MarksOnce where
  vendors := (longestFirst_vendorsOf table selection.targets).nodup
  keyframes := by
    rw [add]
    split
    · rename_i f hf
      have hmem := List.mem_reverse.mp (List.mem_of_find?_eq_some hf)
      obtain ⟨feature, -, rfl⟩ := List.mem_map.mp hmem
      exact (longestFirst_vendorsOf table _).nodup
    · exact List.nodup_nil

variable {plan : Plan} {now : Session} {n : Node}

/-! ## Passes -/

section Pass

variable (hd : now.1.Linked [0])
include hd

/-- Copying animations in a draft. -/
theorem addKeyframes_eq (hplan : plan.MarksOnce) (hfits : now.1.Fits) :
    let copied := plan.copyKeyframes now.1.toNode
    (plan.addKeyframes now).1.Linked [0] ∧ (plan.addKeyframes now).1.toNode = copied ∧
      (plan.addKeyframes now).2 = now.2.merge
        (.ofCopied (copied.animations.length - now.1.toNode.animations.length)) := by
  rw [addKeyframes, copyKeyframes]
  cases hmarks : (plan.add "@keyframes").isEmpty with
  | true =>
    dsimp only
    rw [if_pos rfl, List.isEmpty_iff.mp hmarks, Node.copyAnimations_nil, Nat.sub_self]
    exact ⟨hd, rfl, rfl⟩
  | false =>
    have halong : KnowsAnimations now.1 now.2 (now.1.toNode.animations, now.2) := by
      obtain ⟨ns, hnode, hns⟩ := hfits.exists_toNode_eq hd
      refine ⟨hfits, fun animation => ?_, rfl⟩
      rw [hnode, Node.animations_eq_allAnimations hns]
    obtain ⟨hlinked, htree, -, -, hcount⟩ :=
      hd.walkAnimations_eq (visits_copy hplan.keyframes) halong
    obtain ⟨known, htour⟩ := Node.tour_copy (plan.add "@keyframes") now.2 now.1.toNode
    rw [htour] at htree hcount
    exact ⟨hlinked, htree, hcount⟩

/-- Marking properties in a draft. -/
theorem addProperties_eq (plan : Plan) :
    let marked := plan.markProperties now.1.toNode
    (plan.addProperties now).1.Linked [0] ∧ (plan.addProperties now).1.toNode = marked ∧
      (plan.addProperties now).2 = now.2.merge
        (.ofAdded (marked.declarationCount - now.1.toNode.declarationCount)) := by
  obtain ⟨hlinked, htree, hcount⟩ := hd.walkDeclarations_eq plan.visits_property now.2
  rw [Node.walk_weave] at htree hcount
  exact ⟨hlinked, htree, hcount⟩

/-- Marking values in a draft. -/
theorem addValues_eq (hplan : plan.MarksOnce) :
    let marked := plan.markValues now.1.toNode
    (plan.addValues now).1.Linked [0] ∧ (plan.addValues now).1.toNode = marked ∧
      (plan.addValues now).2 = now.2.merge
        (.ofAdded (marked.declarationCount - now.1.toNode.declarationCount)) := by
  obtain ⟨hlinked, htree, hcount⟩ := hd.walkDeclarations_eq (plan.visits_value hplan.vendors) now.2
  rw [Node.walk_weave] at htree hcount
  exact ⟨hlinked, htree, hcount⟩

/-- Marking the values in a draft ends the program if it does for one of the declarations. -/
theorem crashesOn_eq (plan : Plan) (hnode : now.1.toNode.declaration? = none) :
    plan.crashesOn now.1 = (now.1.toNode.placed none).any fun x => plan.crashes x.1 x.2 := by
  obtain ⟨-, -, hcrash⟩ := hd.walkDeclarations_eq plan.visits_crash false
  rw [Node.walk_any _ none false now.1.toNode hnode, Bool.false_or] at hcrash
  exact hcrash

/-- Removing from a draft comes to the same as removing from the style sheet it stands for. -/
theorem removeFrom_eq (plan : Plan) :
    (plan.removeFrom now).1.toNode = (plan.removal now.1.toNode).1 ∧
      (plan.removeFrom now).2 = now.2.merge (plan.removal now.1.toNode).2 := by
  obtain ⟨hlinked, htree, hcount⟩ := hd.walkAnimations_eq (visits_uselessAnimation plan)
    (rfl : now.2 = now.2)
  obtain ⟨-, hlast, hend⟩ := hlinked.walkDeclarations_eq plan.visits_useless
    (walkAnimations plan.visitUselessAnimation now).2
  rw [Node.tour_drop] at htree hcount
  rw [htree, Node.walk_filter] at hlast hend
  refine ⟨hlast, hend.trans ?_⟩
  rw [hcount, Statistics.merge_assoc, Statistics.ofDropped_merge_ofRemoved]
  rfl

end Pass

/-! ## Runs -/

/-- Adding to a draft ends the program, or comes to the same as adding to the style sheet it
stands for. -/
theorem addTo_cases (hplan : plan.MarksOnce) (hd : now.1.Linked [0]) (hfits : now.1.Fits) :
    (plan.crashesIn now.1.toNode = true ∧ plan.addTo now = none) ∨
    (plan.crashesIn now.1.toNode = false ∧ ∃ after, plan.addTo now = some after ∧
      after.1.Linked [0] ∧ after.1.toNode = (plan.addition now.1.toNode).1 ∧
      after.2 = now.2.merge (plan.addition now.1.toNode).2) := by
  obtain ⟨hcopied, hcopies, hfirst⟩ := addKeyframes_eq hd hplan hfits
  obtain ⟨hmarked, hmarks, hsecond⟩ := addProperties_eq hcopied plan
  obtain ⟨hlinked, hvalues, hthird⟩ := addValues_eq hmarked hplan
  have hcrash := crashesOn_eq hmarked plan
  rw [hcopies] at hmarks hsecond
  rw [hmarks] at hvalues hthird hcrash
  have hnode : (plan.markProperties (plan.copyKeyframes now.1.toNode)).declaration? = none := by
    obtain ⟨ns, hnode, -⟩ := hfits.exists_toNode_eq hd
    rw [hnode]
    rfl
  rw [addTo, hcrash hnode, crashesIn]
  split
  · rename_i h
    exact .inl ⟨h, rfl⟩
  · rename_i h
    refine .inr ⟨Bool.eq_false_iff.mpr h, _, rfl, hlinked, hvalues, ?_⟩
    have hproperties := plan.declarationCount_le_markProperties (plan.copyKeyframes now.1.toNode)
    have hadded := plan.declarationCount_le_markValues
      (plan.markProperties (plan.copyKeyframes now.1.toNode))
    rw [hthird, hsecond, hfirst, Statistics.merge_ofAdded_add, Statistics.merge_assoc,
      Statistics.ofCopied_merge_ofAdded, addition]
    dsimp only
    rw [← Nat.sub_add_comm hproperties, Nat.add_sub_cancel' hadded]

/-- A run over the draft of a style sheet that was read has no answer exactly if a value of the
style sheet ends the program.  Otherwise it leads to what the passes make of the style sheet, and
has counted what they change. -/
theorem processDraft_eq (hplan : plan.MarksOnce) {file css : String}
    (hn : Sheet.parse file css = .ok n) :
    (plan.processDraft (.ofNode n)).map (fun after => (after.1.toNode, after.2)) =
      if plan.crashesIn n then none else some (plan.process n) := by
  have hcases := @addTo_cases _ (ofNode n, .zero) hplan (linked_ofNode n)
    (fits_of_evolves hn .refl)
  rw [toNode_ofNode, Statistics.zero_merge] at hcases
  rw [processDraft]
  rcases hcases with ⟨hcrash, hnone⟩ | ⟨hcrash, after, hafter, hlinked, htree, hcount⟩
  · rw [hnone, if_pos hcrash]
    rfl
  · obtain ⟨hresult, hall⟩ := removeFrom_eq hlinked plan
    rw [htree] at hresult hall
    rw [hafter, hcrash, if_neg Bool.false_ne_true, Option.map_some, Option.map_some, hresult, hall,
      hcount]
    rfl

end Plan
end VendorPrefixing
