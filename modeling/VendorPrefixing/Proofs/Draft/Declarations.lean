import VendorPrefixing.Proofs.Draft.Evolution
import VendorPrefixing.Proofs.Sheet.Leaves

/-!
# The declarations of a draft

A draft is looked at in two ways: it stands for a style sheet, and it lists its declarations by
their handles.  Both follow the links from the root, each on its own, and pass over nodes that
have been removed.  What they find is the same, in the same order.  A listed declaration comes
with the block that holds it and with the vendor whose browsers alone read it; that is a matter
of the nodes around it, of which the innermost one with a vendor mark counts.

Main results:

- Theorem `Node.length_allDeclarations`: the declarations of a tree are as many as are counted.
- Theorem `Draft.Linked.exists_declarationsIn?_eq`: below any node, the declarations that are
  listed are those of the tree there.
- Theorem `Draft.declarations_exact`: so it is for the whole of every draft, and a draft without
  edits is the style sheet it was made of.
-/

namespace VendorPrefixing

/-- The declaration that a leaf is. -/
def Leaf.declaration? : Leaf → Option Declaration
  | declaration d => some d
  | comment _ | statement _ _ => none

/-- The vendor mark of a node that only some browsers read. -/
def Label.mark? : Label → Option String
  | block (.keyframes _ vendor) | block (.document _ vendor) => vendor
  | _ => none

theorem Label.vendorWithin_eq (outer : Option String) (label : Label) :
    label.vendorWithin outer = (label.mark? <|> outer) := by
  cases label with
  | leaf l => cases outer <;> rfl
  | block head => cases head <;> cases outer <;> rfl

namespace Node

/-- The declarations of a tree, in the order of the text. -/
def allDeclarations (n : Node) : List Declaration :=
  n.leaves.filterMap Leaf.declaration?

theorem allDeclarations_block (head : Block) (children : List Node) :
    (block head children).allDeclarations = children.flatMap allDeclarations := by
  rw [allDeclarations, leaves]
  induction children with
  | nil => rfl
  | cons n rest ih => rw [leavesAll, List.filterMap_append, ih, List.flatMap_cons, allDeclarations]

mutual

/-- The declarations of a tree are as many as are counted. -/
theorem length_allDeclarations : (n : Node) → n.allDeclarations.length = n.declarationCount
  | leaf l => by cases l <;> rfl
  | block head children => by
    rw [allDeclarations_block, declarationCount]
    exact length_flatMap_allDeclarations children

theorem length_flatMap_allDeclarations :
    (ns : List Node) → (ns.flatMap allDeclarations).length = declarationCountAll ns
  | [] => rfl
  | n :: rest => by
    rw [List.flatMap_cons, List.length_append, length_allDeclarations n,
      length_flatMap_allDeclarations rest, declarationCountAll]

end

end Node

/-- Lists that are found for all members of a list are joined, and what each of them stands for
is joined with them. -/
theorem exists_flatten_mapM_of_forall₂ {α β γ δ : Type} {f : α → Option (List β)}
    {meaning : γ → List δ} {r : List β → List δ → Prop} (hnil : r [] [])
    (happend : ∀ {xs xs' ys ys'}, r xs ys → r xs' ys' → r (xs ++ xs') (ys ++ ys'))
    {xs : List α} {zs : List γ}
    (h : List.Forall₂ (fun x z => ∃ ys, f x = some ys ∧ r ys (meaning z)) xs zs) :
    ∃ ys, (do
      let found ← xs.mapM f
      return found.flatten) = some ys ∧ r ys (zs.flatMap meaning) := by
  induction h with
  | nil => exact ⟨[], rfl, hnil⟩
  | cons hx _ ih =>
    obtain ⟨front, hfront, hfrontMeans⟩ := hx
    obtain ⟨back, hback, hbackMeans⟩ := ih
    obtain ⟨found, hfound, hflatten⟩ := Option.bind_eq_some_iff.mp hback
    cases hflatten
    refine ⟨front ++ found.flatten, ?_, happend hfrontMeans hbackMeans⟩
    rw [List.mapM_cons, hfront]
    simp [hfound]

namespace Draft

/-- The nodes around the node with a handle, from its parent to the root. -/
inductive Around (d : Draft) : Handle → List DraftNode → Prop
  | root {h : Handle} {m : DraftNode} : d.find? h = some m → m.parent = none → Around d h []
  | inside {h q : Handle} {m p : DraftNode} {around : List DraftNode} : d.find? h = some m →
    m.parent = some q → d.find? q = some p → Around d q around → Around d h (p :: around)

/-- Only the browsers of `vendor` read the node with a handle: of the nodes around it that have a
vendor mark, the innermost has this one, and where no such node is, all browsers do. -/
def ReadBy (d : Draft) (vendor : Option String) (h : Handle) : Prop :=
  ∃ around, d.Around h around ∧ vendor = around.findSome? (·.label.mark?)

/-- What a listed declaration comes with: the block that directly holds it, and the vendor whose
browsers alone read it. -/
structure Places (d : Draft) (place : DeclarationPlace) : Prop where
  held : ∃ m p, d.find? place.handle = some m ∧ m.removed = false ∧
    m.parent = some place.holder ∧ d.find? place.holder = some p ∧ place.handle ∈ p.children
  vendor : d.ReadBy place.vendor place.handle

/-- The listed declarations are the ones of a tree, and each is where it is said to be. -/
structure Lists (d : Draft) (places : List DeclarationPlace) (decls : List Declaration) :
    Prop where
  map_eq : places.map (fun place => d.declaration? place.handle) = decls.map some
  places : ∀ place ∈ places, d.Places place

variable {d : Draft} {loose : List Handle} {h c : Handle} {m : DraftNode} {n : Node}
  {vendor : Option String}

theorem Lists.nil : d.Lists [] [] where
  map_eq := rfl
  places := List.forall_mem_nil _

theorem Lists.append {places places' : List DeclarationPlace} {decls decls' : List Declaration}
    (h : d.Lists places decls) (h' : d.Lists places' decls') :
    d.Lists (places ++ places') (decls ++ decls') where
  map_eq := by rw [List.map_append, List.map_append, h.map_eq, h'.map_eq]
  places := List.forall_mem_append.mpr ⟨h.places, h'.places⟩

/-- A child of a node is read by the browsers that read the node, unless the node has a mark of
its own. -/
theorem ReadBy.child (hvendor : d.ReadBy vendor h) (hm : d.find? h = some m) {child : DraftNode}
    (hc : d.find? c = some child) (hparent : child.parent = some h) :
    d.ReadBy (m.label.vendorWithin vendor) c := by
  obtain ⟨around, haround, rfl⟩ := hvendor
  refine ⟨m :: around, .inside hc hparent hm haround, ?_⟩
  rw [Label.vendorWithin_eq, List.findSome?_cons]
  cases m.label.mark? <;> rfl

theorem isRemoved_of_mem_liveChildren (hc : c ∈ d.liveChildren m) : d.isRemoved c = false := by
  simpa using (List.mem_filter.mp hc).2

theorem declaration?_eq_some_iff {decl : Declaration} :
    d.declaration? h = some decl ↔
      ∃ m, d.find? h = some m ∧ m.label = .leaf (.declaration decl) := by
  rw [declaration?, Option.bind_eq_some_iff]
  refine exists_congr fun m => and_congr_right fun _ => ?_
  rw [Label.declaration?.eq_def]
  split <;> simp_all

/-- A leaf that is no declaration has none. -/
theorem allDeclarations_leaf {l : Leaf} (hm : d.find? h = some m) (hlabel : m.label = .leaf l)
    (hnone : d.declaration? h = none) : (Node.leaf l).allDeclarations = [] := by
  cases l with
  | declaration decl =>
    rw [declaration?_eq_some_iff.mpr ⟨m, hm, hlabel⟩] at hnone
    cases hnone
  | comment _ => rfl
  | statement _ _ => rfl

/-- A child that is a declaration is listed itself. -/
theorem Linked.lists_child (hd : d.Linked loose) (hm : d.find? h = some m)
    (hc : c ∈ d.liveChildren m) (hvendor : d.ReadBy vendor h) {decl : Declaration}
    (hdecl : d.declaration? c = some decl) :
    d.Lists [⟨c, h, m.label.vendorWithin vendor⟩] [decl] := by
  have hmem := mem_of_mem_liveChildren hc
  obtain ⟨child, hchild, hparent⟩ := hd.parent_of_mem hm hmem
  have hlive : child.removed = false := by
    have hremoved := isRemoved_of_mem_liveChildren hc
    rwa [isRemoved, hchild] at hremoved
  constructor
  · simp [hdecl]
  · intro place hplace
    obtain rfl := List.mem_singleton.mp hplace
    exact ⟨⟨child, m, hchild, hlive, hparent, hm, hmem⟩, hvendor.child hm hchild hparent⟩

/-- Below any node, the declarations that are listed are those of the tree there. -/
theorem Linked.exists_declarationsIn?_eq (hd : d.Linked loose) (h : Handle) (hlt : h < d.next) :
    ∀ n vendor, d.nodeAt? h = some n → d.declaration? h = none → d.ReadBy vendor h →
      ∃ places, d.declarationsIn? vendor h = some places ∧ d.Lists places n.allDeclarations := by
  refine hd.induction (motive := fun h => ∀ n vendor, d.nodeAt? h = some n →
    d.declaration? h = none → d.ReadBy vendor h → ∃ places,
      d.declarationsIn? vendor h = some places ∧ d.Lists places n.allDeclarations)
    (fun h m hm ih n vendor hn hnone hvendor => ?_) h hlt
  rw [declarationsIn?, hm, Option.bind_eq_bind, Option.bind_some]
  cases hlabel : m.label with
  | leaf l =>
    obtain rfl : n = .leaf l := Option.some.inj (hn.symm.trans (nodeAt?_leaf hm hlabel))
    rw [liveChildren, hd.children_of_leaf hm hlabel, allDeclarations_leaf hm hlabel hnone]
    exact ⟨[], rfl, .nil⟩
  | block head =>
    have hchildren : ∀ c ∈ d.liveChildren m, ∃ tree, d.nodeAt? c = some tree ∧ ∃ places,
        (if (d.declaration? c).isSome = true then some [⟨c, h, m.label.vendorWithin vendor⟩]
          else d.declarationsIn? (m.label.vendorWithin vendor) c) = some places ∧
        d.Lists places tree.allDeclarations := by
      intro c hc
      have hmem := mem_of_mem_liveChildren hc
      obtain ⟨tree, htree⟩ := hd.exists_nodeAt? c (hd.lt_of_mem hm hmem).2
      refine ⟨tree, htree, ?_⟩
      cases hdecl : d.declaration? c with
      | none =>
        obtain ⟨child, hchild, hparent⟩ := hd.parent_of_mem hm hmem
        simpa using ih c hmem tree _ htree hdecl (hvendor.child hm hchild hparent)
      | some decl =>
        obtain ⟨child, hchild, hleaf⟩ := declaration?_eq_some_iff.mp hdecl
        obtain rfl : tree = .leaf (.declaration decl) :=
          Option.some.inj (htree.symm.trans (nodeAt?_leaf hchild hleaf))
        exact ⟨_, if_pos rfl, hd.lists_child hm hc hvendor hdecl⟩
    obtain ⟨ns, hns⟩ := exists_forall₂_of_forall hchildren
    obtain rfl : n = .block head ns :=
      Option.some.inj (hn.symm.trans (nodeAt?_block hm hlabel (hns.imp fun _ _ h => h.1)))
    rw [Node.allDeclarations_block, ← hlabel]
    exact exists_flatten_mapM_of_forall₂ .nil .append (hns.imp fun _ _ h => h.2)

/-- The declarations that a draft lists are those of the style sheet that it stands for. -/
theorem Linked.lists_declarations (hd : d.Linked [0]) (hroot : d.root.label.declaration? = none) :
    d.Lists d.declarations d.toNode.allDeclarations := by
  have hlt : 0 < d.next := hd.lt_next_of_loose List.mem_cons_self
  obtain ⟨m, hm⟩ := Option.isSome_iff_exists.mp (isSome_find?_iff.mpr hlt)
  have hmroot : d.root = m := by
    have hhead : d.nodes[0]? = some m := hm
    simp [root, List.headD_eq_head?_getD, List.head?_eq_getElem?, hhead]
  have hnone : d.declaration? 0 = none := by
    rw [declaration?, hm, Option.bind_some, ← hmroot, hroot]
  have hreadBy : d.ReadBy none 0 := ⟨[], .root hm ((hd.parent_eq_none_iff hm).mpr rfl), rfl⟩
  obtain ⟨n, hn⟩ := hd.exists_nodeAt? 0 hlt
  obtain ⟨places, hplaces, hlists⟩ := hd.exists_declarationsIn?_eq 0 hlt n none hn hnone hreadBy
  rw [declarations, toNode, handle_root hd, hplaces, hn]
  exact hlists

/-- A draft without edits is the style sheet it was made of.  Whatever edits were made, if the
root is no declaration, the declarations that the draft lists are those of the style sheet that
it stands for, one by one, each with the block that holds it and the vendor whose browsers alone
read it. -/
theorem declarations_exact (n : Node) :
    (ofNode n).toNode = n ∧
      ∀ d, (ofNode n).Evolves d → d.root.label.declaration? = none →
        d.declarations.map (fun place => (d.declaration? place.handle).map Declaration.pair) =
            d.toNode.allDeclarations.map (fun decl => some decl.pair) ∧
          d.declarations.length = d.toNode.declarationCount ∧
          ∀ place ∈ d.declarations, d.Places place := by
  refine ⟨toNode_ofNode n, fun d hd hroot => ?_⟩
  have hlists := (hd.linked (linked_ofNode n)).lists_declarations hroot
  refine ⟨?_, ?_, hlists.places⟩
  · have hpairs := congrArg (List.map (Option.map Declaration.pair)) hlists.map_eq
    rw [List.map_map, List.map_map] at hpairs
    exact hpairs
  · have hlength := congrArg List.length hlists.map_eq
    rwa [List.length_map, List.length_map, Node.length_allDeclarations] at hlength

/-- Before any edit there are two declarations.  Later one of them has been removed and one has
been inserted, and another one is inside of an animation that has been removed. -/
theorem declarations_exact_hyphensWithoutSpin :
    (ofNode hyphensAndSpin).declarations.length = 2 ∧
      (ofNode hyphensAndSpin).Evolves hyphensWithoutSpin ∧
      hyphensWithoutSpin.root.label.declaration? = none ∧
      hyphensWithoutSpin.declarations.map
          (fun place => (hyphensWithoutSpin.declaration? place.handle).map Declaration.pair) =
        hyphensWithoutSpin.toNode.allDeclarations.map (fun decl => some decl.pair) ∧
      hyphensWithoutSpin.declarations.length = hyphensWithoutSpin.toNode.declarationCount ∧
      ∀ place ∈ hyphensWithoutSpin.declarations, hyphensWithoutSpin.Places place := by
  have hd : (ofNode hyphensAndSpin).Evolves hyphensWithoutSpin :=
    (((Evolves.refl.edit (by decide)).edit (by decide)).edit (by decide)).edit (by decide)
  obtain ⟨hfresh, hexact⟩ := declarations_exact hyphensAndSpin
  obtain ⟨-, hlength, -⟩ := hexact (ofNode hyphensAndSpin) .refl rfl
  rw [hfresh] at hlength
  exact ⟨hlength, hd, rfl, hexact _ hd rfl⟩

end Draft
end VendorPrefixing
