import VendorPrefixing.Draft.View

/-!
# Editing drafts

Inserting, changing and removing declarations, and copying and removing
animations, by handle.  Nothing is inserted a second time: a block never gets a
pair of property and value that it already has, and a style sheet never a second
animation of one name and mark.

Main results:

- Theorem `Draft.insertBefore_eq_none_of_contains`: a pair that the block has is
  not inserted.
- Theorem `Draft.copyAnimation_eq_none_of_exists`: an animation that exists is not
  made again.
-/

namespace VendorPrefixing
namespace Draft

/-- A list of handles with a further one in front of `before`, or at its end if
`before` is not there. -/
def placedBefore (before new : Handle) (handles : List Handle) : List Handle :=
  handles.insertIdx ((handles.idxOf? before).getD handles.length) new

/-- The draft in which a node is listed by its parent, in front of `before`. -/
def enterBefore (d : Draft) (parent before new : Handle) : Draft :=
  d.modify parent fun m => { m with children := placedBefore before new m.children }

/-- Puts a declaration in front of the node with a handle, at the position of that
node if it is a declaration.  The answer is the new handle, and nothing when the
node stands in no block or its block has the pair already. -/
def insertBefore (d : Draft) (before : Handle) (property value : String) :
    Option (Handle × Draft) := do
  let m ← d.find? before
  let parent ← m.parent
  if d.contains parent (property, value) then none
  else
    let position := (m.label.declaration?.map Declaration.position).getD .none
    let pushed := d.push (.leaf (.declaration ⟨property, value, position⟩)) (some parent)
    return (d.next, pushed.enterBefore parent before d.next)

/-- Gives a declaration another value. -/
def setValue (d : Draft) (h : Handle) (value : String) : Draft :=
  d.modify h fun m => { m with label := m.label.withValue value }

/-- Removes a declaration. -/
def removeDeclaration (d : Draft) (h : Handle) : Draft :=
  d.modify h fun m => if m.label.declaration?.isSome then { m with removed := true } else m

/-- Removes an animation. -/
def removeAnimation (d : Draft) (h : Handle) : Draft :=
  d.modify h fun m => if m.label.animation?.isSome then { m with removed := true } else m

/-- The draft with a copy of the tree at a handle, which is not yet listed by its
parent, and the handle of the copy.  Removed nodes are not copied. -/
def copy? (d : Draft) (parent : Option Handle) (h : Handle) : Option (Handle × Draft) := do
  let m ← d.find? h
  let copied ← (d.liveChildren m).foldlM (fun e child => do
    let (copy, e) ← e |>.copy? (some d.next) child
    return e.enterLast d.next copy) (d.push m.label parent)
  return (d.next, copied)
partial_fixpoint

/-- Puts a copy of an animation under a vendor mark in front of it.  The answer is
the handle of the copy, and nothing when the node is no animation inside the style
sheet or the animation of that name and mark exists already. -/
def copyAnimation (d : Draft) (h : Handle) (mark : String) : Option (Handle × Draft) := do
  let m ← d.find? h
  let animation ← m.label.animation?
  if d.animations.any (·.animation == ⟨animation.name, some mark⟩) then none
  else
    let parent ← m.parent
    let (copy, copied) ← d.copy? (some parent) h
    let marked := copied.modify copy fun m => { m with label := m.label.withVendor mark }
    return (copy, marked.enterBefore parent h copy)

/-- Visits every declaration that is there when the walk starts and has not been
removed when its turn comes. -/
def walkDeclarations {α : Type} (visit : DeclarationPlace → Draft × α → Draft × α)
    (start : Draft × α) : Draft × α :=
  start.1.declarations.foldl
    (fun now place => if now.1.isRemoved place.handle then now else visit place now) start

/-- Visits every animation that is there when the walk starts and has not been
removed when its turn comes. -/
def walkAnimations {α : Type} (visit : AnimationPlace → Draft × α → Draft × α)
    (start : Draft × α) : Draft × α :=
  start.1.animations.foldl
    (fun now place => if now.1.isRemoved place.handle then now else visit place now) start

/-- A pair that the block has is not inserted. -/
theorem insertBefore_eq_none_of_contains {d : Draft} {before parent : Handle} {m : DraftNode}
    {property value : String} (hm : d.find? before = some m) (hparent : m.parent = some parent)
    (hpair : d.contains parent (property, value) = true) :
    d.insertBefore before property value = none := by
  simp [insertBefore, hm, hparent, hpair]

/-- An animation that exists is not made again. -/
theorem copyAnimation_eq_none_of_exists {d : Draft} {h : Handle} {mark : String}
    {m : DraftNode} {animation : Animation} (hm : d.find? h = some m)
    (ha : m.label.animation? = some animation)
    (hex : d.animations.any (·.animation == ⟨animation.name, some mark⟩) = true) :
    d.copyAnimation h mark = none := by
  simp only [copyAnimation, hm, ha, Option.bind_eq_bind, Option.bind_some, hex, if_true]

end Draft
end VendorPrefixing
