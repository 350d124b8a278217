import VendorPrefixing.Proofs.Sheet.Moves

/-!
# The leaves of a style sheet

What holds of every leaf when it is read holds of all leaves of the style sheet in the
end, however deep they stand.

Main results:

- Theorem `Reading.forall_leaves_of_run`: what holds of the leaves that are read at the
  places of a text holds of all leaves of the result.
-/

namespace VendorPrefixing
namespace Node

mutual

/-- The leaves of a tree, in the order of the text. -/
def leaves : Node → List Leaf
  | leaf l => [l]
  | block _ children => leavesAll children

/-- The leaves of some trees, in the order of the text. -/
def leavesAll : List Node → List Leaf
  | [] => []
  | n :: rest => leaves n ++ leavesAll rest

end

theorem mem_leavesAll {ns : List Node} {l : Leaf} :
    l ∈ leavesAll ns ↔ ∃ n ∈ ns, l ∈ n.leaves := by
  induction ns with
  | nil => simp [leavesAll]
  | cons n ns ih => simp [leavesAll, ih]

theorem mem_leavesAll_reverse {ns : List Node} {l : Leaf} :
    l ∈ leavesAll ns.reverse ↔ l ∈ leavesAll ns := by
  simp [mem_leavesAll]

theorem forall_mem_leavesAll_cons {p : Leaf → Prop} {n : Node} {ns : List Node} :
    (∀ l ∈ leavesAll (n :: ns), p l) ↔ (∀ l ∈ n.leaves, p l) ∧ ∀ l ∈ leavesAll ns, p l := by
  rw [leavesAll, List.forall_mem_append]

end Node

namespace Reading

variable {p : Leaf → Prop} {places : Cursor → Prop} {r r' : Reading} {nodes : List Node}

/-- Everything read so far has leaves with a property, and the text goes on at one of some
places. -/
structure HasLeaves (p : Leaf → Prop) (places : Cursor → Prop) (r : Reading) : Prop where
  cursor : places r.cursor
  nodes : ∀ l ∈ Node.leavesAll r.nodes, p l
  stack : ∀ o ∈ r.stack, ∀ l ∈ Node.leavesAll o.before, p l

theorem HasLeaves.move (hr : r.HasLeaves p places) (h : r.Moves r')
    (hplaces : ∀ c s c', c.Passes s c' → places c → places c')
    (hleaf : ∀ c s c' content l, places c → c.Passes s c' →
      Item.Written c.position c'.rest content s (.leaf l) → p l) : r'.HasLeaves p places := by
  obtain ⟨s, hs⟩ := h.exists_passes
  have hcursor := hplaces _ _ _ hs hr.cursor
  cases h with
  | @close o stack nodes c c' gap hgap hpasses =>
    obtain ⟨hbefore, hstack⟩ := List.forall_mem_cons.mp hr.stack
    refine ⟨hcursor, Node.forall_mem_leavesAll_cons.mpr ⟨fun l hl => ?_, hbefore⟩, hstack⟩
    exact hr.nodes l (Node.mem_leavesAll_reverse.mp hl)
  | semicolon => exact ⟨hcursor, hr.nodes, hr.stack⟩
  | @leaf stack nodes c b c' gap s l hgap hfront hstart hpasses hitem =>
    have hl := hleaf b s c' _ l (hplaces _ _ _ hfront hr.cursor) hpasses hitem
    refine ⟨hcursor, Node.forall_mem_leavesAll_cons.mpr ⟨?_, hr.nodes⟩, hr.stack⟩
    exact List.forall_mem_singleton.mpr hl
  | opening =>
    exact ⟨hcursor, List.forall_mem_nil _, List.forall_mem_cons.mpr ⟨hr.nodes, hr.stack⟩⟩

/-- What holds of the leaves that are read at the places of a text holds of all leaves of
the result. -/
theorem forall_leaves_of_run (hr : r.HasLeaves p places) (h : r.run = .ok nodes)
    (hplaces : ∀ c s c', c.Passes s c' → places c → places c')
    (hleaf : ∀ c s c' content l, places c → c.Passes s c' →
      Item.Written c.position c'.rest content s (.leaf l) → p l) :
    ∀ l ∈ Node.leavesAll nodes, p l := by
  refine induction_of_run (motive := fun r => r.HasLeaves p places →
    ∀ l ∈ Node.leavesAll nodes, p l) h ?_ ?_ hr
  · rintro r - - rfl hr l hl
    exact hr.nodes l (Node.mem_leavesAll_reverse.mp hl)
  · exact fun r r' hmove _ ih hr => ih (hr.move hmove hplaces hleaf)

end Reading
end VendorPrefixing
