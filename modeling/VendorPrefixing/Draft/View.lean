import VendorPrefixing.Draft.Basic

/-!
# Looking at drafts

Lists of the declarations and animations of a draft, and questions about single
nodes.  Removed nodes and what is inside them do not show.

Main results:

- Theorem `Draft.contains_of_pair`: a block that has a pair declares its property.
-/

namespace VendorPrefixing

/-- Where a declaration of a draft is. -/
structure DeclarationPlace where
  handle : Handle
  /-- The block that directly holds it. -/
  holder : Handle
  /-- The vendor whose browsers alone read it. -/
  vendor : Option String
deriving DecidableEq, Repr

/-- Where an animation of a draft is, and which it is. -/
structure AnimationPlace where
  handle : Handle
  animation : Animation
deriving DecidableEq, Repr

namespace Draft

/-- The declaration with a handle, removed or not. -/
def declaration? (d : Draft) (h : Handle) : Option Declaration :=
  (d.find? h).bind (·.label.declaration?)

/-- The declarations inside the node with a handle, which belongs to `vendor`, in
the order of the text. -/
def declarationsIn? (d : Draft) (vendor : Option String) (h : Handle) :
    Option (List DeclarationPlace) := do
  let m ← d.find? h
  let within := m.label.vendorWithin vendor
  let places ← (d.liveChildren m).mapM fun child =>
    if (d.declaration? child).isSome then some [⟨child, h, within⟩]
    else d |>.declarationsIn? within child
  return places.flatten
partial_fixpoint

/-- The animations inside the node with a handle, in the order of the text. -/
def animationsIn? (d : Draft) (h : Handle) : Option (List AnimationPlace) := do
  let m ← d.find? h
  let places ← (d.liveChildren m).mapM fun child =>
    match (d.find? child).bind (·.label.animation?) with
    | some animation => some [⟨child, animation⟩]
    | none =>
      if (d.find? child).any (·.label.isConditional) then d |>.animationsIn? child else some []
  return places.flatten
partial_fixpoint

/-- The declarations of a draft, in the order of the text. -/
def declarations (d : Draft) : List DeclarationPlace :=
  (d.declarationsIn? none d.root.handle).getD []

/-- The animations of a draft, in the order of the text. -/
def animations (d : Draft) : List AnimationPlace :=
  (d.animationsIn? d.root.handle).getD []

/-- The declarations directly inside the node with a handle. -/
def liveDeclarations (d : Draft) (h : Handle) : List Declaration :=
  match d.find? h with
  | some m => (d.liveChildren m).filterMap d.declaration?
  | none => []

/-- Whether a block directly holds a pair of property and value. -/
def contains (d : Draft) (h : Handle) (pair : String × String) : Bool :=
  (d.liveDeclarations h).any (·.pair == pair)

/-- Whether a block directly holds a declaration of a property. -/
def containsProperty (d : Draft) (h : Handle) (property : String) : Bool :=
  (d.liveDeclarations h).any (·.property == property)

/-- A block that has a pair declares its property. -/
theorem contains_of_pair {d : Draft} {h : Handle} {property value : String}
    (hc : d.contains h (property, value) = true) : d.containsProperty h property = true := by
  simp only [contains, containsProperty, List.any_eq_true] at hc ⊢
  obtain ⟨e, he, hpair⟩ := hc
  refine ⟨e, he, ?_⟩
  simp only [Declaration.pair, beq_iff_eq, Prod.mk.injEq] at hpair ⊢
  exact hpair.1

end Draft
end VendorPrefixing
