import VendorPrefixing.Draft.Edit
import VendorPrefixing.Marking.Process

/-!
# Processing a draft

A run over a style sheet that is kept as a draft.  Each pass lists what it has to visit when
it starts, and makes its edits at what it visits, one after the other: copies and marked
forms come to stand in front of it, its value changes, or it is removed.  The run counts what
it changes.

Main definitions:

- `Plan.addTo` and `Plan.removeFrom`: the two steps of a run.
- `Plan.processDraft`: a whole run.
-/

namespace VendorPrefixing
namespace Plan

/-- A draft and what has been changed in it so far. -/
abbrev Session :=
  Draft × Statistics

/-! ## Edits that are counted -/

/-- Puts a copy of an animation under a mark in front of it, unless there is one. -/
def copyInFront (h : Handle) (now : Session) (mark : String) : Session :=
  match now.1.copyAnimation h mark with
  | some (_, d) => (d, { now.2 with keyframesAdded := now.2.keyframesAdded + 1 })
  | none => now

/-- Puts a declaration in front of another one, unless the block has the pair. -/
def insertInFront (h : Handle) (now : Session) (property value : String) : Session :=
  match now.1.insertBefore h property value with
  | some (_, d) => (d, { now.2 with declarationsAdded := now.2.declarationsAdded + 1 })
  | none => now

/-! ## Visits -/

/-- Copies an animation without a mark for each of some marks. -/
def visitAnimation (marks : List String) (place : AnimationPlace) (now : Session) : Session :=
  match place.animation.vendor with
  | some _ => now
  | none => marks.foldl (copyInFront place.handle) now

/-- Puts the marked forms of a declaration in front of it, but for those whose property the
block has. -/
def visitProperty (plan : Plan) (place : DeclarationPlace) (now : Session) : Session :=
  match now.1.declaration? place.handle with
  | none => now
  | some d =>
    (plan.propertyForms place.vendor d).foldl (fun now form =>
      if now.1.containsProperty place.holder form.property then now
      else insertInFront place.handle now form.property form.value) now

/-- Puts values in which the features are marked in front of a declaration.  If the mark is
the one of its property, the last of them becomes its own value instead. -/
def visitMark (plan : Plan) (h : Handle) (d : Declaration) (now : Session) (mark : String) :
    Session :=
  let values := markedValues (plan.featuresOf d) mark d.value
  let insert := fun (now : Session) value => insertInFront h now d.property value
  if vendorOf? d.property = some mark then
    match values.getLast? with
    | none => now
    | some last =>
      let (edited, statistics) := values.dropLast.foldl insert now
      (edited.setValue h last, statistics)
  else values.foldl insert now

/-- Marks the value of a declaration for each of the marks it can take. -/
def visitValue (plan : Plan) (place : DeclarationPlace) (now : Session) : Session :=
  match now.1.declaration? place.handle with
  | none => now
  | some d => (plan.marksFor place.vendor d).foldl (plan.visitMark place.handle d) now

/-- Removes an animation whose mark is useless. -/
def visitUselessAnimation (plan : Plan) (place : AnimationPlace) (now : Session) : Session :=
  if place.animation.vendor.any plan.removesKeyframes then
    (now.1.removeAnimation place.handle,
      { now.2 with keyframesRemoved := now.2.keyframesRemoved + 1 })
  else now

/-- Removes a declaration that has become useless. -/
def visitUselessDeclaration (plan : Plan) (place : DeclarationPlace) (now : Session) : Session :=
  match now.1.declaration? place.handle with
  | none => now
  | some d =>
    if plan.removesDeclaration d then
      (now.1.removeDeclaration place.handle,
        { now.2 with declarationsRemoved := now.2.declarationsRemoved + 1 })
    else now

/-! ## Passes -/

/-- Copies the animations for every mark they need. -/
def addKeyframes (plan : Plan) (now : Session) : Session :=
  let marks := plan.add "@keyframes"
  if marks.isEmpty then now else Draft.walkAnimations (visitAnimation marks) now

/-- Adds the marked forms of properties. -/
def addProperties (plan : Plan) (now : Session) : Session :=
  Draft.walkDeclarations plan.visitProperty now

/-- Adds the marked forms of values. -/
def addValues (plan : Plan) (now : Session) : Session :=
  Draft.walkDeclarations plan.visitValue now

/-- Whether adding the marked forms of values ends the program at some declaration. -/
def crashesOn (plan : Plan) (d : Draft) : Bool :=
  (Draft.walkDeclarations (fun place (d, crashed) =>
    (d, crashed || (d.declaration? place.handle).any (plan.crashes place.vendor)))
    (d, false)).2

/-- Adds everything that the plan needs.  There is no answer if that ends the program. -/
def addTo (plan : Plan) (now : Session) : Option Session :=
  let now := plan.addProperties (plan.addKeyframes now)
  if plan.crashesOn now.1 then none else some (plan.addValues now)

/-- Removes everything that the plan has no use for. -/
def removeFrom (plan : Plan) (now : Session) : Session :=
  Draft.walkDeclarations plan.visitUselessDeclaration
    (Draft.walkAnimations plan.visitUselessAnimation now)

/-- A whole run over a draft, which adds and then removes.  There is no answer if that ends
the program. -/
def processDraft (plan : Plan) (d : Draft) : Option Session :=
  (plan.addTo (d, .zero)).map plan.removeFrom

end Plan
end VendorPrefixing
