import VendorPrefixing.Sheet.Position

/-!
# Style sheets as trees

A style sheet is a tree of nodes.  A leaf is a declaration, a comment or a
statement such as `@import`; a block has a head and holds further nodes.  The
texts in a tree are kept as they were written, without white space at their
ends.

Main results:

- Theorem `Node.sameStructure_refl`: every tree has its own structure.
- Theorem `Node.declarationCount_eq_of_sameStructure`: trees of one structure have
  equally many declarations.
- Theorem `Node.sameStructure_unplaced`: taking the positions away keeps the
  structure.
-/

namespace VendorPrefixing

/-- The rules that consist of a keyword and a text. -/
inductive Statement
  | importRule
  | charsetRule
  | namespaceRule
deriving DecidableEq, Repr

/-- The keyword of a statement, without the at sign. -/
def Statement.keyword : Statement → String
  | importRule => "import"
  | charsetRule => "charset"
  | namespaceRule => "namespace"

/-- A property with its value. -/
structure Declaration where
  property : String
  value : String
  /-- Where the property stands in the text the declaration was read from. -/
  position : Position
deriving DecidableEq, Repr

/-- What two declarations have to agree on to count as the same. -/
def Declaration.pair (d : Declaration) : String × String :=
  (d.property, d.value)

/-- The nodes that hold no others. -/
inductive Leaf
  | declaration (d : Declaration)
  /-- A comment, without its marks. -/
  | comment (text : String)
  | statement (kind : Statement) (text : String)
deriving DecidableEq, Repr

/-- The heads of the nodes that hold others. -/
inductive Block
  /-- A whole style sheet. -/
  | sheet
  /-- A rule for some selectors, or an at-rule with declarations of its own. -/
  | rule (selectors : List String)
  | media (query : String)
  | supports (condition : String)
  /-- An animation, with the vendor mark of its keyword. -/
  | keyframes (name : String) (vendor : Option String)
  /-- One frame of an animation. -/
  | frame (selectors : List String)
  | page (selectors : List String)
  /-- Rules for some documents, with the vendor mark of the keyword. -/
  | document (condition : String) (vendor : Option String)
deriving DecidableEq, Repr

/-- What a block is made of. -/
inductive Content
  | rules
  | frames
  | declarations
deriving DecidableEq, Repr

/-- What stands inside a block of this kind. -/
def Block.content : Block → Content
  | sheet | media _ | supports _ | document .. => .rules
  | keyframes .. => .frames
  | rule _ | frame _ | page _ => .declarations

/-- The vendor whose browsers alone read a block of this kind, where the blocks
around it belong to `outer`. -/
def Block.vendorWithin (outer : Option String) : Block → Option String
  | keyframes _ vendor | document _ vendor => vendor <|> outer
  | _ => outer

/-- A style sheet or a part of one. -/
inductive Node
  | leaf (l : Leaf)
  | block (head : Block) (children : List Node)
deriving Repr

namespace Leaf

/-- Whether two leaves agree in everything but positions. -/
def sameStructure : Leaf → Leaf → Bool
  | declaration d, declaration e => d.property == e.property && d.value == e.value
  | comment s, comment t => s == t
  | statement j s, statement k t => j == k && s == t
  | _, _ => false

/-- The leaf without its position. -/
def unplaced : Leaf → Leaf
  | declaration d => declaration { d with position := .none }
  | l => l

/-- The number of declarations in a leaf. -/
def declarationCount : Leaf → Nat
  | declaration _ => 1
  | _ => 0

@[simp]
theorem sameStructure_refl (l : Leaf) : l.sameStructure l = true := by
  cases l <;> simp [sameStructure]

@[simp]
theorem sameStructure_unplaced (l : Leaf) : l.sameStructure l.unplaced = true := by
  cases l <;> simp [sameStructure, unplaced]

theorem declarationCount_eq_of_sameStructure {l m : Leaf} (h : l.sameStructure m = true) :
    l.declarationCount = m.declarationCount := by
  cases l <;> cases m <;> simp_all [sameStructure, declarationCount]

end Leaf

namespace Node

/-- The declaration with the given property, value and position. -/
def ofDeclaration (property value : String) (position : Position) : Node :=
  leaf (.declaration ⟨property, value, position⟩)

/-- The declaration that a node is. -/
def declaration? : Node → Option Declaration
  | leaf (.declaration d) => some d
  | _ => none

/-- Whether a node is a comment. -/
def isComment : Node → Bool
  | leaf (.comment _) => true
  | _ => false

mutual

/-- Whether two trees are equal, positions included. -/
def decEq : (a b : Node) → Decidable (a = b)
  | leaf l, leaf m => if h : l = m then isTrue (h ▸ rfl) else isFalse (by simpa using h)
  | block g as, block h bs =>
    if hgh : g = h then
      match decEqAll as bs with
      | isTrue heq => isTrue (hgh ▸ heq ▸ rfl)
      | isFalse hne => isFalse (by simp [hne])
    else isFalse (by simp [hgh])
  | leaf _, block .. | block .., leaf _ => isFalse nofun

/-- Whether two lists of trees are equal, positions included. -/
def decEqAll : (as bs : List Node) → Decidable (as = bs)
  | [], [] => isTrue rfl
  | a :: as, b :: bs =>
    match decEq a b, decEqAll as bs with
    | isTrue h, isTrue hs => isTrue (h ▸ hs ▸ rfl)
    | isFalse h, _ => isFalse (by simp [h])
    | _, isFalse hs => isFalse (by simp [hs])
  | [], _ :: _ | _ :: _, [] => isFalse nofun

end

instance : DecidableEq Node :=
  decEq

mutual

/-- Whether two trees agree in everything but positions. -/
def sameStructure : Node → Node → Bool
  | leaf l, leaf m => l.sameStructure m
  | block g as, block h bs => g == h && sameStructureAll as bs
  | _, _ => false

/-- Whether two lists of trees agree in everything but positions. -/
def sameStructureAll : List Node → List Node → Bool
  | [], [] => true
  | a :: as, b :: bs => sameStructure a b && sameStructureAll as bs
  | _, _ => false

end

mutual

/-- The tree without its positions. -/
def unplaced : Node → Node
  | leaf l => leaf l.unplaced
  | block g as => block g (unplacedAll as)

/-- The trees without their positions. -/
def unplacedAll : List Node → List Node
  | [] => []
  | a :: as => unplaced a :: unplacedAll as

end

mutual

/-- The number of declarations in a tree. -/
def declarationCount : Node → Nat
  | leaf l => l.declarationCount
  | block _ as => declarationCountAll as

/-- The number of declarations in a list of trees. -/
def declarationCountAll : List Node → Nat
  | [] => 0
  | a :: as => declarationCount a + declarationCountAll as

end

mutual

/-- Every tree has its own structure. -/
theorem sameStructure_refl : (a : Node) → a.sameStructure a = true
  | leaf l => by rw [sameStructure, l.sameStructure_refl]
  | block g as => by rw [sameStructure, sameStructureAll_refl as]; simp

theorem sameStructureAll_refl : (as : List Node) → sameStructureAll as as = true
  | [] => rfl
  | a :: as => by
    rw [sameStructureAll, sameStructure_refl a, sameStructureAll_refl as, Bool.and_self]

end

mutual

/-- Taking the positions away keeps the structure. -/
theorem sameStructure_unplaced : (a : Node) → a.sameStructure a.unplaced = true
  | leaf l => by rw [unplaced, sameStructure, l.sameStructure_unplaced]
  | block g as => by rw [unplaced, sameStructure, sameStructureAll_unplacedAll as]; simp

theorem sameStructureAll_unplacedAll :
    (as : List Node) → sameStructureAll as (unplacedAll as) = true
  | [] => rfl
  | a :: as => by
    rw [unplacedAll, sameStructureAll, sameStructure_unplaced a,
      sameStructureAll_unplacedAll as, Bool.and_self]

end

mutual

/-- Trees of one structure have equally many declarations. -/
theorem declarationCount_eq_of_sameStructure :
    {a b : Node} → a.sameStructure b = true → a.declarationCount = b.declarationCount
  | leaf _, leaf _, h => by
    rw [sameStructure] at h
    exact Leaf.declarationCount_eq_of_sameStructure h
  | block g as, block k bs, h => by
    rw [sameStructure, Bool.and_eq_true] at h
    exact declarationCountAll_eq_of_sameStructureAll h.2
  | leaf _, block .., h | block .., leaf _, h => by simp [sameStructure] at h

theorem declarationCountAll_eq_of_sameStructureAll :
    {as bs : List Node} → sameStructureAll as bs = true →
      declarationCountAll as = declarationCountAll bs
  | [], [], _ => rfl
  | a :: as, b :: bs, h => by
    rw [sameStructureAll, Bool.and_eq_true] at h
    rw [declarationCountAll, declarationCountAll, declarationCount_eq_of_sameStructure h.1,
      declarationCountAll_eq_of_sameStructureAll h.2]
  | [], _ :: _, h | _ :: _, [], h => by simp [sameStructureAll] at h

end

end Node
end VendorPrefixing
