import Mathlib.Logic.Basic
import Mathlib.Logic.Relation
import VendorPrefixing.Sheet.Node

/-!
# Equality up to positions

Two trees have the same structure exactly when they become equal once all their
declarations are moved to one position, wherever that is.  The comparison does not
move anything: it looks past the positions while it walks through both trees, and
everything else in a leaf or a head has to be equal.

Main results:

- Theorem `Leaf.sameStructure_iff`: the comparison of leaves.
- Theorems `Node.sameStructure_iff` and `Node.sameStructureAll_iff_movedToAll`: the
  comparison of trees and of rows of trees.
- Theorem `Node.sameStructure_iff_unplaced_eq`: the same with the positions taken away.
- Theorem `Node.sameStructure_up_to_positions`: what follows from that.
-/

namespace VendorPrefixing

variable {p : Position}

namespace Leaf

/-- The leaf with its position, if it has one, replaced by another. -/
def movedTo (p : Position) : Leaf → Leaf
  | declaration d => declaration { d with position := p }
  | l => l

/-- Leaves have the same structure when only their positions differ. -/
theorem sameStructure_iff {l m : Leaf} :
    l.sameStructure m = true ↔ l.movedTo p = m.movedTo p := by
  cases l with
  | declaration d => cases m <;> simp [sameStructure, movedTo]
  | comment text => cases m <;> simp [sameStructure, movedTo]
  | statement kind text => cases m <;> simp [sameStructure, movedTo]

/-- Without its position a leaf is where the declarations are that no text holds. -/
theorem unplaced_eq (l : Leaf) : l.unplaced = l.movedTo .none := by
  cases l <;> rfl

end Leaf

namespace Node

mutual

/-- The tree with every position replaced by the same one. -/
def movedTo (p : Position) : Node → Node
  | leaf l => leaf (l.movedTo p)
  | block head children => block head (movedToAll p children)

/-- The trees with every position replaced by the same one. -/
def movedToAll (p : Position) : List Node → List Node
  | [] => []
  | n :: ns => movedTo p n :: movedToAll p ns

end

mutual

/-- Trees have the same structure when only their positions differ. -/
theorem sameStructure_iff :
    {a b : Node} → (a.sameStructure b = true ↔ a.movedTo p = b.movedTo p)
  | leaf l, leaf m => by
    rw [sameStructure, movedTo, movedTo, Leaf.sameStructure_iff (p := p), leaf.injEq]
  | block g as, block h bs => by
    rw [sameStructure, movedTo, movedTo, Bool.and_eq_true, beq_iff_eq,
      sameStructureAll_iff_movedToAll, block.injEq]
  | leaf _, block .. | block .., leaf _ => by simp [sameStructure, movedTo]

theorem sameStructureAll_iff_movedToAll :
    {as bs : List Node} → (sameStructureAll as bs = true ↔ movedToAll p as = movedToAll p bs)
  | [], [] => by simp [sameStructureAll]
  | a :: as, b :: bs => by
    rw [sameStructureAll, movedToAll, movedToAll, Bool.and_eq_true, sameStructure_iff,
      sameStructureAll_iff_movedToAll, List.cons.injEq]
  | [], _ :: _ | _ :: _, [] => by simp [sameStructureAll, movedToAll]

end

mutual

/-- Without its positions a tree is moved to where no text is. -/
theorem unplaced_eq : (a : Node) → a.unplaced = a.movedTo .none
  | leaf l => by rw [unplaced, movedTo, l.unplaced_eq]
  | block head children => by rw [unplaced, movedTo, unplacedAll_eq children]

theorem unplacedAll_eq : (as : List Node) → unplacedAll as = movedToAll .none as
  | [] => rfl
  | a :: as => by rw [unplacedAll, movedToAll, unplaced_eq a, unplacedAll_eq as]

end

/-- Trees have the same structure when they are equal without their positions. -/
theorem sameStructure_iff_unplaced_eq {a b : Node} :
    a.sameStructure b = true ↔ a.unplaced = b.unplaced := by
  rw [unplaced_eq, unplaced_eq]
  exact sameStructure_iff

/-- Having the same structure is being equal in something. -/
theorem equivalence_sameStructure : Equivalence fun a b : Node => a.sameStructure b = true := by
  simp only [sameStructure_iff (p := .none)]
  exact eq_equivalence.comap (movedTo .none)

/-- The comparison of trees is equality up to positions: it holds of exactly the trees that
become equal when all their declarations are moved to one position.  So it is an
equivalence, it keeps the number of declarations, and equality implies it. -/
theorem sameStructure_up_to_positions :
    (∀ (p : Position) (a b : Node), a.sameStructure b = true ↔ a.movedTo p = b.movedTo p) ∧
      (Equivalence fun a b : Node => a.sameStructure b = true) ∧
      (∀ a b : Node, a.sameStructure b = true → a.declarationCount = b.declarationCount) ∧
      ∀ a b : Node, (a == b) = true → a.sameStructure b = true := by
  refine ⟨fun p a b => sameStructure_iff, equivalence_sameStructure,
    fun a b h => declarationCount_eq_of_sameStructure h, fun a b h => ?_⟩
  obtain rfl : a = b := eq_of_beq h
  exact equivalence_sameStructure.refl a

/-- A rule whose declaration stands at a position. -/
def redRule (p : Position) : Node :=
  block (.rule ["a"]) [ofDeclaration "color" "red" p]

/-- Rules that were read at different places have the same structure, though they are not
equal. -/
theorem sameStructure_up_to_positions_redRule :
    redRule ⟨1, 3⟩ ≠ redRule ⟨7, 3⟩ ∧ (redRule ⟨1, 3⟩).sameStructure (redRule ⟨7, 3⟩) = true ∧
      (redRule ⟨1, 3⟩).declarationCount = (redRule ⟨7, 3⟩).declarationCount := by
  have hsame : (redRule ⟨1, 3⟩).sameStructure (redRule ⟨7, 3⟩) = true :=
    (sameStructure_up_to_positions.1 .start _ _).mpr rfl
  exact ⟨by decide, hsame, sameStructure_up_to_positions.2.2.1 _ _ hsame⟩

end Node
end VendorPrefixing
