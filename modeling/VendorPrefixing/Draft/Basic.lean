import VendorPrefixing.Sheet.Animation

/-!
# Drafts

A draft is a style sheet under edit.  Its nodes stand in one row, in the order in
which they came into being, and the place of a node in the row is its handle.  A
node knows its parent and lists its children by their handles.  Nothing ever leaves
the row: a removed node only gets a mark, which keeps its handle good, and no longer
counts as part of the style sheet.

Following the links of an arbitrary row may never end, or lead out of the row.  The
functions that do so answer nothing then.

Main results:

- Theorem `Draft.find?_push`: a new node leaves the others where they are.
- Theorem `Draft.find?_modify`: changing a node leaves the others as they are.
-/

namespace VendorPrefixing

/-- The name of a node of a draft, its place in the row of nodes. -/
abbrev Handle :=
  Nat

/-- A node without the nodes inside it. -/
inductive Label
  | leaf (l : Leaf)
  | block (head : Block)
deriving DecidableEq, Repr

namespace Label

/-- The declaration that a node is. -/
def declaration? : Label → Option Declaration
  | leaf (.declaration d) => some d
  | _ => none

/-- The animation that a node is. -/
def animation? : Label → Option Animation
  | block (.keyframes name vendor) => some ⟨name, vendor⟩
  | _ => none

/-- Whether a node is a block that only says under which condition its contents
count. -/
def isConditional : Label → Bool
  | block head => head.isConditional
  | leaf _ => false

/-- The vendor whose browsers alone read a node, where the blocks around it belong
to `outer`. -/
def vendorWithin (outer : Option String) : Label → Option String
  | block head => head.vendorWithin outer
  | leaf _ => outer

/-- A declaration with another value; other nodes stay as they are. -/
def withValue (value : String) : Label → Label
  | leaf (.declaration d) => leaf (.declaration { d with value := value })
  | label => label

/-- An animation under another vendor mark; other nodes stay as they are. -/
def withVendor (mark : String) : Label → Label
  | block (.keyframes name _) => block (.keyframes name (some mark))
  | label => label

end Label

/-- A node of a draft. -/
structure DraftNode where
  handle : Handle
  label : Label
  /-- The node that directly holds it. -/
  parent : Option Handle
  /-- The nodes directly inside it, removed ones included. -/
  children : List Handle
  removed : Bool
deriving Repr

/-- A style sheet under edit. -/
structure Draft where
  /-- All nodes, each at the place that its handle names. -/
  nodes : List DraftNode
deriving Repr

namespace Draft

/-- The handle that the next new node gets. -/
def next (d : Draft) : Handle :=
  d.nodes.length

/-- The node with a handle, removed or not. -/
def find? (d : Draft) (h : Handle) : Option DraftNode :=
  d.nodes[h]?

/-- The node that holds all others.  A draft without nodes has an empty one. -/
def root (d : Draft) : DraftNode :=
  d.nodes.headD ⟨0, .block .sheet, none, [], false⟩

/-- The draft with one more node, which is not yet listed by its parent. -/
def push (d : Draft) (label : Label) (parent : Option Handle) : Draft where
  nodes := d.nodes ++ [⟨d.next, label, parent, [], false⟩]

/-- The draft in which the node with a handle is changed. -/
def modify (d : Draft) (h : Handle) (change : DraftNode → DraftNode) : Draft where
  nodes := d.nodes.modify h change

/-- The draft in which a node is listed as the last child of its parent. -/
def enterLast (d : Draft) (parent child : Handle) : Draft :=
  d.modify parent fun m => { m with children := m.children ++ [child] }

mutual

/-- The draft with a tree added to it, which is not yet listed by its parent, and
the handle of the tree.  A block comes before its contents. -/
def add (d : Draft) (parent : Option Handle) : Node → Handle × Draft
  | .leaf l => (d.next, d.push (.leaf l) parent)
  | .block head children => (d.next, addAll (d.push (.block head) parent) d.next children)

/-- The draft with trees added to it as the last children of their parent. -/
def addAll (d : Draft) (parent : Handle) : List Node → Draft
  | [] => d
  | n :: rest =>
    let (child, d) := add d (some parent) n
    addAll (d.enterLast parent child) parent rest

end

/-- The draft of a style sheet before any edit. -/
def ofNode (n : Node) : Draft :=
  (add ⟨[]⟩ none n).2

/-- Whether a node has been removed. -/
def isRemoved (d : Draft) (h : Handle) : Bool :=
  (d.find? h).any (·.removed)

/-- The nodes directly inside a node that have not been removed. -/
def liveChildren (d : Draft) (m : DraftNode) : List Handle :=
  m.children.filter (!d.isRemoved ·)

/-- The tree at a handle, without the nodes that have been removed. -/
def nodeAt? (d : Draft) (h : Handle) : Option Node := do
  let m ← d.find? h
  match m.label with
  | .leaf l => return .leaf l
  | .block head => return .block head (← (d.liveChildren m).mapM (d |>.nodeAt?))
partial_fixpoint

/-- The style sheet that a draft stands for. -/
def toNode (d : Draft) : Node :=
  (d.nodeAt? d.root.handle).getD (.block .sheet [])

/-! ## The row of nodes -/

variable {d : Draft} {h k : Handle} {m : DraftNode} {label : Label} {parent : Option Handle}
  {change : DraftNode → DraftNode}

theorem isSome_find?_iff : (d.find? h).isSome = true ↔ h < d.next := by
  rw [Option.isSome_iff_ne_none, find?, ne_eq, List.getElem?_eq_none_iff, Nat.not_le]
  rfl

theorem lt_next_of_find? (hm : d.find? h = some m) : h < d.next :=
  isSome_find?_iff.mp (Option.isSome_of_eq_some hm)

@[simp]
theorem next_push : (d.push label parent).next = d.next + 1 :=
  List.length_append

@[simp]
theorem next_modify : (d.modify h change).next = d.next :=
  List.length_modify change d.nodes h

/-- A new node leaves the others where they are. -/
theorem find?_push (h : Handle) :
    (d.push label parent).find? h =
      if h = d.next then some ⟨d.next, label, parent, [], false⟩ else d.find? h := by
  rw [find?, push, find?]
  split
  · rename_i heq
    rw [heq, next, List.getElem?_append_right (Nat.le_refl _), Nat.sub_self]
    rfl
  · rename_i hne
    by_cases hlt : h < d.next
    · exact List.getElem?_append_left hlt
    · rw [List.getElem?_eq_none, List.getElem?_eq_none (Nat.le_of_not_lt hlt)]
      rw [List.length_append, List.length_singleton]
      exact Nat.lt_of_le_of_ne (Nat.le_of_not_lt hlt) (Ne.symm hne)

/-- Changing a node leaves the others as they are. -/
theorem find?_modify (k : Handle) :
    (d.modify h change).find? k = if h = k then (d.find? k).map change else d.find? k := by
  rw [find?, modify, List.getElem?_modify, find?]
  split <;> simp

theorem find?_push_of_lt (hlt : h < d.next) : (d.push label parent).find? h = d.find? h := by
  rw [find?_push, if_neg (Nat.ne_of_lt hlt)]

end Draft
end VendorPrefixing
