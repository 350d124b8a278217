import VendorPrefixing.Proofs.Sheet.Contents

/-!
# The blocks of a style sheet

What holds of every block of a tree is said about its blocks, each taken with the
vendor whose browsers alone read it.  A pass over declarations changes the contents
of the blocks one by one and makes no block.

Main results:

- Theorem `Node.blocks_mapContents`: the blocks after a pass are the changed blocks
  from before it.
- Theorem `Node.mapContents_eq_self_iff`: a pass leaves a tree alone exactly where it
  leaves all its blocks alone.
-/

namespace VendorPrefixing
namespace Node

variable {f : Option String → List Node → List Node}

mutual

/-- The contents of the blocks of a tree, outer blocks first, each with the vendor
whose browsers alone read the block. -/
def blocks (vendor : Option String) : Node → List (Option String × List Node)
  | leaf _ => []
  | block head children =>
    (head.vendorWithin vendor, children) :: blocksAll (head.vendorWithin vendor) children

/-- The contents of the blocks of some trees. -/
def blocksAll (vendor : Option String) : List Node → List (Option String × List Node)
  | [] => []
  | n :: rest => blocks vendor n ++ blocksAll vendor rest

end

theorem blocksAll_eq_flatMap (vendor : Option String) (ns : List Node) :
    blocksAll vendor ns = ns.flatMap (blocks vendor) := by
  induction ns with
  | nil => rfl
  | cons n rest ih => rw [blocksAll, ih, List.flatMap_cons]

/-- A change of declarations keeps the blocks among the nodes of a list. -/
theorem OnlyDeclarations.blocksAll_eq {change : List Node → List Node}
    (h : OnlyDeclarations change) (vendor : Option String) (ns : List Node) :
    blocksAll vendor (change ns) = blocksAll vendor ns := by
  rw [blocksAll_eq_flatMap, blocksAll_eq_flatMap, h.flatMap_eq fun _ => rfl]

mutual

/-- The blocks after a pass are the changed blocks from before it. -/
theorem blocks_mapContents (hf : ∀ vendor, OnlyDeclarations (f vendor)) (vendor : Option String) :
    (n : Node) → blocks vendor (n.mapContents f vendor) =
      (blocks vendor n).map fun x => (x.1, f x.1 (mapContentsAll f x.1 x.2))
  | leaf _ => rfl
  | block head children => by
    rw [mapContents, blocks, blocks, List.map_cons, (hf _).blocksAll_eq,
      blocksAll_mapContentsAll hf _ children]

theorem blocksAll_mapContentsAll (hf : ∀ vendor, OnlyDeclarations (f vendor))
    (vendor : Option String) : (ns : List Node) →
    blocksAll vendor (mapContentsAll f vendor ns) =
      (blocksAll vendor ns).map fun x => (x.1, f x.1 (mapContentsAll f x.1 x.2))
  | [] => rfl
  | n :: rest => by
    rw [mapContentsAll, blocksAll, blocksAll, List.map_append, blocks_mapContents hf vendor n,
      blocksAll_mapContentsAll hf vendor rest]

end

/-! ## Declarations in blocks -/

section Placed

variable {p q : Declaration → Prop}

mutual

/-- What holds of all declarations of a block holds of those of all blocks in it. -/
theorem forall_placed_iff (vendor : Option String) (head : Block) : (children : List Node) →
    ((∀ x ∈ placed vendor (block head children), p x.2) ↔
      ∀ y ∈ blocks vendor (block head children), ∀ d ∈ declarations y.2, p d)
  | children => by
    rw [placed, blocks, List.forall_mem_cons, forall_placedAll_iff]

theorem forall_placedAll_iff (vendor : Option String) : (ns : List Node) →
    ((∀ x ∈ placedAll vendor ns, p x.2) ↔ (∀ d ∈ declarations ns, p d) ∧
      ∀ y ∈ blocksAll vendor ns, ∀ d ∈ declarations y.2, p d)
  | [] => by simp [placedAll, blocksAll, declarations]
  | leaf l :: rest => by
    have hrest := forall_placedAll_iff vendor rest
    cases l with
    | declaration d =>
      rw [placedAll, List.forall_mem_append, hrest]
      simp [placed, blocksAll, blocks, and_assoc]
    | comment text => exact hrest
    | statement kind text => exact hrest
  | block head children :: rest => by
    rw [placedAll, blocksAll, List.forall_mem_append, List.forall_mem_append,
      forall_placed_iff vendor head children, forall_placedAll_iff vendor rest, and_left_comm]
    rfl

end

/-- A pass leads from what holds of all declarations to what it gives in each block. -/
theorem forall_placed_mapContents (hf : ∀ vendor, OnlyDeclarations (f vendor))
    (hstep : ∀ vendor ns, (∀ d ∈ declarations ns, p d) → ∀ d ∈ declarations (f vendor ns), q d)
    (vendor : Option String) {head : Block} {children : List Node}
    (h : ∀ x ∈ placed vendor (block head children), p x.2) :
    ∀ x ∈ placed vendor ((block head children).mapContents f vendor), q x.2 := by
  have hblocks := blocks_mapContents hf vendor (block head children)
  rw [mapContents] at hblocks ⊢
  rw [forall_placed_iff] at h ⊢
  rw [hblocks, List.forall_mem_map]
  intro y hy
  apply hstep
  rw [declarations_mapContentsAll]
  exact h y hy

end Placed

/-! ## What is left alone -/

/-- Passes are told apart by what they do to the nodes that are no declarations. -/
theorem mapContentsAll_eq_self_of_filter {vendor : Option String} {ns : List Node}
    (h : (mapContentsAll f vendor ns).filter (·.declaration?.isNone) =
      ns.filter (·.declaration?.isNone)) : mapContentsAll f vendor ns = ns := by
  induction ns with
  | nil => rfl
  | cons n rest ih =>
    rw [mapContentsAll, List.filter_cons, List.filter_cons, declaration?_mapContents] at h
    cases hn : n.declaration? with
    | none =>
      simp only [hn, Option.isNone_none, if_true, List.cons.injEq] at h
      rw [mapContentsAll, h.1, ih h.2]
    | some d =>
      obtain rfl := declaration?_eq_some.mp hn
      rw [mapContentsAll, mapContents, ih h]

mutual

/-- A pass leaves a tree alone exactly where it leaves all its blocks alone. -/
theorem mapContents_eq_self_iff (hf : ∀ vendor, OnlyDeclarations (f vendor))
    (vendor : Option String) : (n : Node) →
    (n.mapContents f vendor = n ↔ ∀ x ∈ blocks vendor n, f x.1 x.2 = x.2)
  | leaf _ => iff_of_true rfl (List.forall_mem_nil _)
  | block head children => by
    have hchildren := mapContentsAll_eq_self_iff hf (head.vendorWithin vendor) children
    rw [mapContents, blocks, List.forall_mem_cons, ← hchildren]
    constructor
    · intro h
      have heq := (Node.block.inj h).2
      -- Inside of the block nothing has changed, since the change keeps all inner blocks.
      have hinner : mapContentsAll f (head.vendorWithin vendor) children = children := by
        have hothers := (hf (head.vendorWithin vendor)).others
          (mapContentsAll f (head.vendorWithin vendor) children)
        rw [heq] at hothers
        exact mapContentsAll_eq_self_of_filter hothers.symm
      rw [hinner] at heq
      exact ⟨heq, hinner⟩
    · rintro ⟨heq, hinner⟩
      rw [hinner, heq]

theorem mapContentsAll_eq_self_iff (hf : ∀ vendor, OnlyDeclarations (f vendor))
    (vendor : Option String) : (ns : List Node) →
    (mapContentsAll f vendor ns = ns ↔ ∀ x ∈ blocksAll vendor ns, f x.1 x.2 = x.2)
  | [] => iff_of_true rfl (List.forall_mem_nil _)
  | n :: rest => by
    rw [mapContentsAll, blocksAll, List.forall_mem_append, List.cons.injEq,
      mapContents_eq_self_iff hf vendor n, mapContentsAll_eq_self_iff hf vendor rest]

end

end Node
end VendorPrefixing
