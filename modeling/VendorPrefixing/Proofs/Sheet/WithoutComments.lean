import VendorPrefixing.Proofs.Sheet.Pruned
import VendorPrefixing.Sheet.Printer

/-!
# Printing without comments

A comment that is left out leaves no trace.  What separates two nodes depends on the node
that was printed before, and whether a line ends inside the braces of a block depends on
what was printed between them; a comment that is left out counts for neither.  So leaving
comments out while printing is the same as printing a tree that has none.

Main results:

- Theorem `Node.printAll_withoutComments`: the contents of a block are printed like those that
  are left without comments, whatever stands before them.
- Theorem `Node.print_withoutComments`: so is the whole tree, in either style.
-/

namespace VendorPrefixing

namespace Node

/-- The tree without the comments inside of it. -/
def withoutComments (n : Node) : Node :=
  n.prune (·.isComment = true)

/-- The trees that are no comments, without the comments inside of them. -/
def withoutCommentsAll (ns : List Node) : List Node :=
  pruneAll (·.isComment = true) ns

variable {n : Node} {style : PrintStyle} {keep : Bool}

@[simp]
theorem withoutComments_leaf (l : Leaf) : (leaf l).withoutComments = leaf l :=
  rfl

@[simp]
theorem withoutComments_block (head : Block) (children : List Node) :
    (block head children).withoutComments = block head (withoutCommentsAll children) :=
  rfl

theorem withoutCommentsAll_cons_of_comment (hn : n.isComment = true) (rest : List Node) :
    withoutCommentsAll (n :: rest) = withoutCommentsAll rest :=
  pruneAll_cons_of_pos hn rest

theorem withoutCommentsAll_cons (hn : ¬n.isComment = true) (rest : List Node) :
    withoutCommentsAll (n :: rest) = n.withoutComments :: withoutCommentsAll rest :=
  pruneAll_cons_of_neg hn rest

@[simp]
theorem isComment_withoutComments (n : Node) : n.withoutComments.isComment = n.isComment := by
  cases n <;> simp [isComment]

@[simp]
theorem declaration?_withoutComments (n : Node) :
    n.withoutComments.declaration? = n.declaration? := by
  cases n <;> simp [declaration?]

/-! ## Printing -/

/-- What separates a node from the one before it does not depend on comments. -/
theorem separator_withoutComments (content : Content) (previous : Option Node) :
    Layout.separator ⟨style, keep⟩ content (previous.map withoutComments) =
      Layout.separator ⟨style, false⟩ content previous := by
  cases previous <;> simp [Layout.separator]

/-- Only comments are left out. -/
theorem hides_of_not_comment (hn : ¬n.isComment = true) (o : Layout) : o.hides n = false := by
  simp [Layout.hides, hn]

mutual

/-- A tree inside some blocks is printed like the tree without comments. -/
theorem printAt_withoutComments (depth : Nat) : (n : Node) →
    n.printAt ⟨style, false⟩ depth = n.withoutComments.printAt ⟨style, keep⟩ depth
  | leaf _ => rfl
  | block head children => by
    have hchildren := printAll_withoutComments head.content (Layout.depthWithin depth head)
      none children
    rw [withoutComments_block, printAt, printAt, hchildren, Option.map_none]
    rfl

/-- The contents of a block are printed like those that are left without comments, whatever
stands before them. -/
theorem printAll_withoutComments (content : Content) (depth : Nat) (previous : Option Node) :
    (ns : List Node) → printAll ⟨style, false⟩ content depth previous ns =
      printAll ⟨style, keep⟩ content depth (previous.map withoutComments) (withoutCommentsAll ns)
  | [] => rfl
  | n :: rest => by
    by_cases hn : n.isComment = true
    · rw [printAll_of_isComment rfl hn, withoutCommentsAll_cons_of_comment hn]
      exact printAll_withoutComments content depth previous rest
    · have hn' : ¬n.withoutComments.isComment = true := by simpa using hn
      have hrest := printAll_withoutComments content depth (some n) rest
      rw [withoutCommentsAll_cons hn, printAll, printAll]
      simp only [hides_of_not_comment hn, hides_of_not_comment hn', Bool.false_eq_true, if_false]
      rw [separator_withoutComments, printAt_withoutComments depth n, hrest, Option.map_some]

end

/-- Leaving comments out while printing a tree is the same as printing the tree without
comments. -/
theorem print_withoutComments (style : PrintStyle) (keep : Bool) (n : Node) :
    n.print ⟨style, false⟩ = n.withoutComments.print ⟨style, keep⟩ := by
  rw [print, print, printAt_withoutComments 0 n]
  rfl

/-- A comment alone in a block, and one between two declarations. -/
example :
    (block .sheet [
      block (.media "print") [leaf (.comment "none yet")],
      block (.rule ["a"]) [
        leaf (.declaration ⟨"top", "0", .none⟩),
        leaf (.comment "and"),
        leaf (.declaration ⟨"left", "0", .none⟩)]]).print Layout.compact =
      "@media print\x7b\x7da\x7btop:0;left:0\x7d" := by
  decide

end Node
end VendorPrefixing
