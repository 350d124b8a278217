import VendorPrefixing.Plan.Basic
import VendorPrefixing.Sheet.Contents

/-!
# Marked properties

A declaration of a property that still needs vendor marks gets its marked forms
in front of it.  A form is left out where the block already declares its
property, so what an author has written by hand stays in force.

Main results:

- Theorem `Plan.propertyForms_of_unknown`: a property that is no feature has no
  marked forms.
- Theorem `Plan.mem_propertyForms`: every form carries the position of the
  declaration it stands for.
-/

namespace VendorPrefixing

/-- Whether browsers that understand a mark read a block that belongs to `vendor`.
A block inside `@-moz-keyframes` is read by no others. -/
def isReadBy (vendor : Option String) (mark : String) : Bool :=
  vendor.all (· == mark)

namespace Plan

/-- Whether a value was written for another vendor of the plan. -/
def isClaimed (plan : Plan) (mark value : String) : Bool :=
  (plan.others mark).any (Text.contains value)

/-- The marked forms of a declaration in a block that belongs to `vendor`. -/
def propertyForms (plan : Plan) (vendor : Option String) (d : Declaration) :
    List Declaration :=
  match plan.feature? d.property with
  | none => []
  | some f =>
    if f.feature.kind = .property then
      f.add.flatMap fun mark =>
        if isReadBy vendor mark && !plan.isClaimed mark d.value then
          (f.feature.spelling.forms mark d.property d.value).map fun (property, value) =>
            ⟨property, value, d.position⟩
        else []
    else []

/-- The contents of a block that belongs to `vendor` with the marked forms of its
declarations.  A form is there already when its property is. -/
def markPropertiesIn (plan : Plan) (vendor : Option String) (ns : List Node) : List Node :=
  Node.weave (fun d e => d.property == e.property) (fun d => (plan.propertyForms vendor d, d)) ns

/-- The style sheet with the marked forms of its properties. -/
def markProperties (plan : Plan) (n : Node) : Node :=
  n.mapContents plan.markPropertiesIn none

/-- A property that is no feature has no marked forms. -/
theorem propertyForms_of_unknown {plan : Plan} {vendor : Option String} {d : Declaration}
    (h : plan.feature? d.property = none) : plan.propertyForms vendor d = [] := by
  rw [propertyForms, h]

/-- Every form carries the position of the declaration it stands for. -/
theorem mem_propertyForms {plan : Plan} {vendor : Option String} {d e : Declaration}
    (h : e ∈ plan.propertyForms vendor d) : e.position = d.position := by
  rw [propertyForms] at h
  split at h
  · simp at h
  · split at h
    · obtain ⟨mark, _, h⟩ := List.mem_flatMap.mp h
      split at h
      · obtain ⟨_, _, rfl⟩ := List.mem_map.mp h
        rfl
      · simp at h
    · simp at h

end Plan
end VendorPrefixing
