import VendorPrefixing.Sheet.Node

/-!
# Changing the contents of blocks

A pass over a style sheet changes the contents of its blocks one by one.  What a
pass may write into a block depends on the vendor whose browsers read it, which
the innermost `@keyframes` or `@document` around it with a mark decides.

Main results:

- Theorem `Node.mapContents_id`: changing no contents changes nothing.
- Theorem `Node.declaration?_mapContents`: what is a declaration stays the
  same declaration.
- Theorem `Node.sublist_missing`: what is put into a block is taken from what was
  offered.
-/

namespace VendorPrefixing
namespace Node

mutual

/-- The tree with the contents of all its blocks changed, inner blocks first.
`change` is told the vendor whose browsers read the block. -/
def mapContents (change : Option String → List Node → List Node)
    (vendor : Option String) : Node → Node
  | leaf l => leaf l
  | block head children =>
    block head <| change (head.vendorWithin vendor) <|
      mapContentsAll change (head.vendorWithin vendor) children

/-- The trees with the contents of all their blocks changed. -/
def mapContentsAll (change : Option String → List Node → List Node)
    (vendor : Option String) : List Node → List Node
  | [] => []
  | n :: rest => mapContents change vendor n :: mapContentsAll change vendor rest

end

mutual

/-- Changing no contents changes nothing. -/
theorem mapContents_id (vendor : Option String) :
    (n : Node) → n.mapContents (fun _ => id) vendor = n
  | leaf _ => rfl
  | block head children => by
    rw [mapContents, mapContentsAll_id _ children, id]

theorem mapContentsAll_id (vendor : Option String) :
    (ns : List Node) → mapContentsAll (fun _ => id) vendor ns = ns
  | [] => rfl
  | n :: rest => by
    rw [mapContentsAll, mapContents_id vendor n, mapContentsAll_id vendor rest]

end

/-- What is a declaration stays the same declaration. -/
theorem declaration?_mapContents (change : Option String → List Node → List Node)
    (vendor : Option String) (n : Node) :
    (n.mapContents change vendor).declaration? = n.declaration? := by
  cases n <;> rfl

/-! ## Putting declarations in front of declarations -/

/-- The declarations among some nodes. -/
def declarations (ns : List Node) : List Declaration :=
  ns.filterMap declaration?

/-- The declarations of a list that are not there yet, where `known` are the ones
that are.  Each of them is known to the ones after it. -/
def missing (same : Declaration → Declaration → Bool) (known : List Declaration) :
    List Declaration → List Declaration
  | [] => []
  | d :: rest =>
    if known.any (same d) then missing same known rest
    else d :: missing same (d :: known) rest

/-- Goes through the nodes of a block.  `forms` says which declarations belong in
front of a declaration and what becomes of itself; those that the block has
already are left out.  `before` holds the declarations of the part that is
done. -/
def weaveFrom (same : Declaration → Declaration → Bool)
    (forms : Declaration → List Declaration × Declaration) (before : List Declaration) :
    List Node → List Node
  | [] => []
  | n :: rest =>
    match n.declaration? with
    | none => n :: weaveFrom same forms before rest
    | some d =>
      let new := missing same (before ++ declarations (n :: rest)) (forms d).1
      new.map (leaf ∘ .declaration) ++ leaf (.declaration (forms d).2) ::
        weaveFrom same forms (before ++ new ++ [(forms d).2]) rest

/-- The contents of a block with further declarations in front of the ones it
has. -/
def weave (same : Declaration → Declaration → Bool)
    (forms : Declaration → List Declaration × Declaration) (ns : List Node) : List Node :=
  weaveFrom same forms [] ns

/-- What is put into a block is taken from what was offered, in the same order. -/
theorem sublist_missing (same : Declaration → Declaration → Bool)
    (known new : List Declaration) : (missing same known new).Sublist new := by
  induction new generalizing known with
  | nil => exact List.Sublist.slnil
  | cons d rest ih =>
    rw [missing]
    split
    · exact (ih known).cons d
    · exact (ih (d :: known)).cons_cons d

end Node
end VendorPrefixing
