import VendorPrefixing.Sheet.Node

/-!
# Animations

The `@keyframes` blocks of a style sheet.  They stand at its top or inside the
conditional blocks `@media`, `@supports` and `@document`, and are told apart by
their name and the vendor mark of their keyword.

Main results:

- Theorem `Node.copyAnimations_nil`: without marks nothing is copied.
- Theorem `Node.dropAnimations_never`: where no mark is useless nothing is dropped.
-/

namespace VendorPrefixing

/-- What tells `@keyframes` blocks apart. -/
structure Animation where
  name : String
  vendor : Option String
deriving DecidableEq, Repr

/-- Whether a block only says under which condition its contents count. -/
def Block.isConditional : Block → Bool
  | media _ | supports _ | document .. => true
  | _ => false

namespace Node

/-! ## Finding animations -/

mutual

/-- The animations in a node of a list, in the order of the text. -/
def animationsIn : Node → List Animation
  | leaf _ => []
  | block head children =>
    match head with
    | .keyframes name vendor => [⟨name, vendor⟩]
    | head => if head.isConditional then animationsAll children else []

/-- The animations in the nodes of a list, in the order of the text. -/
def animationsAll : List Node → List Animation
  | [] => []
  | n :: rest => animationsIn n ++ animationsAll rest

end

/-- The animations of a style sheet. -/
def animations : Node → List Animation
  | leaf _ => []
  | block _ children => animationsAll children

/-! ## Copying animations -/

mutual

/-- A node of a list with the copies in front of it, and the animations known
after that. -/
def copyIn (marks : List String) (known : List Animation) : Node → List Node × List Animation
  | leaf l => ([leaf l], known)
  | block head children =>
    match head with
    | .keyframes name none =>
      let missing := marks.filter fun mark => !known.contains ⟨name, some mark⟩
      (missing.map (fun mark => block (.keyframes name (some mark)) children) ++
          [block head children],
        known ++ missing.map fun mark => ⟨name, some mark⟩)
    | head =>
      if head.isConditional then
        let (children, known) := copyAll marks known children
        ([block head children], known)
      else
        ([block head children], known)

/-- The nodes of a list with the copies among them, and the animations known after
that. -/
def copyAll (marks : List String) (known : List Animation) :
    List Node → List Node × List Animation
  | [] => ([], known)
  | n :: rest =>
    let (front, known) := copyIn marks known n
    let (back, known) := copyAll marks known rest
    (front ++ back, known)

end

/-- The style sheet in which a copy for each of the marks stands in front of every
animation without a mark, unless there is an animation of that name and mark
anywhere. -/
def copyAnimations (marks : List String) : Node → Node
  | leaf l => leaf l
  | block head children => block head (copyAll marks (animationsAll children) children).1

/-! ## Dropping animations -/

mutual

/-- What is left of a node of a list. -/
def dropIn (useless : String → Bool) : Node → List Node
  | leaf l => [leaf l]
  | block head children =>
    match head with
    | .keyframes _ vendor => if vendor.any useless then [] else [block head children]
    | head =>
      if head.isConditional then [block head (dropAll useless children)]
      else [block head children]

/-- What is left of the nodes of a list. -/
def dropAll (useless : String → Bool) : List Node → List Node
  | [] => []
  | n :: rest => dropIn useless n ++ dropAll useless rest

end

/-- The style sheet without the animations whose mark is useless. -/
def dropAnimations (useless : String → Bool) : Node → Node
  | leaf l => leaf l
  | block head children => block head (dropAll useless children)

mutual

theorem copyIn_nil (known : List Animation) : (n : Node) → copyIn [] known n = ([n], known)
  | leaf _ => rfl
  | block head children => by
    unfold copyIn
    split
    · simp
    · split
      · rw [copyAll_nil known children]
      · rfl

theorem copyAll_nil (known : List Animation) : (ns : List Node) → copyAll [] known ns = (ns, known)
  | [] => rfl
  | n :: rest => by
    simp [copyAll, copyIn_nil known n, copyAll_nil known rest]

end

/-- Without marks nothing is copied. -/
@[simp]
theorem copyAnimations_nil (n : Node) : n.copyAnimations [] = n := by
  cases n with
  | leaf l => rfl
  | block head children => rw [copyAnimations, copyAll_nil]

mutual

theorem dropIn_never : (n : Node) → dropIn (fun _ => false) n = [n]
  | leaf _ => rfl
  | block head children => by
    unfold dropIn
    split
    · simp
    · split
      · rw [dropAll_never children]
      · rfl

theorem dropAll_never : (ns : List Node) → dropAll (fun _ => false) ns = ns
  | [] => rfl
  | n :: rest => by
    rw [dropAll, dropIn_never n, dropAll_never rest]
    rfl

end

/-- Where no mark is useless nothing is dropped. -/
theorem dropAnimations_never (n : Node) : n.dropAnimations (fun _ => false) = n := by
  cases n with
  | leaf l => rfl
  | block head children => rw [dropAnimations, dropAll_never]

end Node
end VendorPrefixing
