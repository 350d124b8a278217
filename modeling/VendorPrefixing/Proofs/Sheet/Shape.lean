import VendorPrefixing.Proofs.Sheet.Readable
import VendorPrefixing.Proofs.Sheet.Weave

/-!
# What stands where in a style sheet

What a block is made of decides what kinds of nodes stand in it, whatever the text may
be that a style sheet was read from.  So animations only stand at the top of a style
sheet or inside conditional blocks, and declarations never do.

Main results:

- Theorem `Item.Written.standsIn`: every item that is written is of a kind that may stand in
  its block.
- Theorem `Sheet.allStandIn_of_parse`: so is every node of a style sheet that was read.
-/

namespace VendorPrefixing

/-- Leaves of a kind that may stand among the given contents. -/
def Leaf.StandsIn (content : Content) : Leaf → Prop
  | declaration _ => content = .declarations
  | comment _ => True
  | statement _ _ => content = .rules

/-- Heads of blocks of a kind that may stand among the given contents. -/
def Block.StandsIn (content : Content) : Block → Prop
  | sheet => False
  | frame _ => content = .frames
  | _ => content = .rules

/-- Items of a kind that may stand among the given contents. -/
def Item.StandsIn (content : Content) : Item → Prop
  | leaf l => l.StandsIn content
  | opening head _ => head.StandsIn content

namespace Node

mutual

/-- Nodes in which everything stands where its kind may stand. -/
def StandsIn (content : Content) : Node → Prop
  | leaf l => l.StandsIn content
  | block head children => head.StandsIn content ∧ AllStandIn head.content children

/-- Lists of nodes in which everything stands where its kind may stand. -/
def AllStandIn (content : Content) : List Node → Prop
  | [] => True
  | n :: rest => StandsIn content n ∧ AllStandIn content rest

end

variable {content : Content} {ns : List Node} {n : Node}

theorem standsIn_block {head : Block} {children : List Node} :
    StandsIn content (block head children) ↔
      head.StandsIn content ∧ AllStandIn head.content children :=
  Iff.rfl

theorem allStandIn_cons {rest : List Node} :
    AllStandIn content (n :: rest) ↔ n.StandsIn content ∧ AllStandIn content rest :=
  Iff.rfl

theorem allStandIn_iff : AllStandIn content ns ↔ ∀ n ∈ ns, n.StandsIn content := by
  induction ns with
  | nil => exact iff_of_true trivial (List.forall_mem_nil _)
  | cons n ns ih => rw [AllStandIn, ih, List.forall_mem_cons]

/-- A declaration only stands among declarations. -/
theorem StandsIn.declaration?_eq_none (h : n.StandsIn content)
    (hcontent : content ≠ .declarations) : n.declaration? = none := by
  cases hn : n.declaration? with
  | none => rfl
  | some d =>
    obtain rfl := declaration?_eq_some.mp hn
    exact absurd h hcontent

/-- Among rules there are no declarations. -/
theorem declarations_eq_nil_of_allStandIn (h : AllStandIn .rules ns) : declarations ns = [] := by
  rw [declarations, List.filterMap_eq_nil_iff]
  exact fun n hn => (allStandIn_iff.mp h n hn).declaration?_eq_none (by decide)

end Node

/-! ## Items -/

/-- What a keyword announces stands among rules. -/
theorem AtKeyword.standsIn_of_block? {k : AtKeyword} {text : List Char} {head : Block}
    (h : k.block? text = some head) : head.StandsIn .rules := by
  cases k with
  | statement _ => cases h
  | _ =>
    cases h
    rfl

/-- Every item that is written is of a kind that may stand in its block. -/
theorem Item.Written.standsIn {p : Position} {rest s : List Char} {content : Content} {i : Item}
    (h : Written p rest content s i) : i.StandsIn content := by
  cases h with
  | comment _ => trivial
  | block _ _ _ hhead => exact AtKeyword.standsIn_of_block? hhead
  | _ => rfl

/-! ## Runs -/

/-- The blocks of a stack stand in one another, and so do the nodes before them. -/
def StackStands : List OpenBlock → Prop
  | [] => True
  | o :: stack =>
    o.head.StandsIn (contentWithin stack) ∧ (∀ n ∈ o.before, n.StandsIn (contentWithin stack)) ∧
      StackStands stack

namespace Reading

variable {r r' : Reading} {nodes : List Node}

/-- Everything read so far stands where its kind may stand. -/
structure Stands (r : Reading) : Prop where
  nodes : ∀ n ∈ r.nodes, n.StandsIn (contentWithin r.stack)
  stack : StackStands r.stack

theorem Stands.move (hr : r.Stands) (h : r.Moves r') : r'.Stands := by
  cases h with
  | @close o stack nodes c c' gap hgap hpasses =>
    obtain ⟨hhead, hbefore, hrest⟩ := hr.stack
    have hchildren : Node.AllStandIn o.head.content nodes.reverse :=
      Node.allStandIn_iff.mpr fun n hn => hr.nodes n (List.mem_reverse.mp hn)
    exact ⟨List.forall_mem_cons.mpr ⟨⟨hhead, hchildren⟩, hbefore⟩, hrest⟩
  | semicolon => exact ⟨hr.nodes, hr.stack⟩
  | leaf _ _ _ _ hitem => exact ⟨List.forall_mem_cons.mpr ⟨hitem.standsIn, hr.nodes⟩, hr.stack⟩
  | opening _ _ _ _ hitem => exact ⟨List.forall_mem_nil _, hitem.standsIn, hr.nodes, hr.stack⟩

/-- Every node that is read stands where its kind may stand. -/
theorem standsIn_of_run (hr : r.Stands) (h : r.run = .ok nodes) :
    ∀ n ∈ nodes, n.StandsIn .rules := by
  refine induction_of_run (motive := fun r => r.Stands → ∀ n ∈ nodes, n.StandsIn .rules) h
    ?_ ?_ hr
  · rintro r hstack - rfl hr n hn
    have hstands := hr.nodes n (List.mem_reverse.mp hn)
    rwa [hstack] at hstands
  · exact fun r r' hmove _ ih hr => ih (hr.move hmove)

end Reading

/-- In a style sheet that was read everything stands where its kind may stand. -/
theorem Sheet.allStandIn_of_parse {file css : String} {n : Node}
    (h : Sheet.parse file css = .ok n) :
    ∃ nodes, n = .block .sheet nodes ∧ Node.AllStandIn .rules nodes := by
  rw [Sheet.parse] at h
  split at h
  · rename_i nodes hrun
    cases h
    have hstands : (Reading.ofText (Chars.settle css.toList)).Stands :=
      ⟨List.forall_mem_nil _, trivial⟩
    exact ⟨nodes, rfl, Node.allStandIn_iff.mpr (Reading.standsIn_of_run hstands hrun)⟩
  · cases h

end VendorPrefixing
