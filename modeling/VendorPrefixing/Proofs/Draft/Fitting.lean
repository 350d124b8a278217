import VendorPrefixing.Proofs.Draft.Copying
import VendorPrefixing.Proofs.Sheet.Nesting

/-!
# Drafts of style sheets that were read

In a style sheet that was read every block stands in a block of a kind that it may stand in.  No
edit changes that: the only blocks that are ever added are copies of animations, and they stand
beside the animation that was copied.  So around an animation there are only conditional blocks
up to the root, and these are never removed.

Main results:

- Theorem `Draft.Fits.edited`: blocks stand where they may stand after one edit.
- Theorem `Draft.fits_of_evolves`: so it is after any edits of a style sheet that was read.
- Theorem `Draft.Fits.exists_surrounded`: an animation has its place in the style sheet, even if
  it has been removed.
- Theorem `Draft.Fits.exists_toNode_eq`: in the style sheet that the draft stands for, blocks
  stand where they may stand.
-/

namespace VendorPrefixing

/-- A block with rules inside is never removed. -/
theorem Label.not_isRemovable_of_rules {head : Block} (h : head.content = .rules) :
    ¬ (Label.block head).IsRemovable := by
  rintro (hdeclaration | hanimation)
  · cases hdeclaration
  · cases head with
    | keyframes _ _ => cases h
    | _ => cases hanimation

namespace Draft

/-- The root is a style sheet, and every block stands in a block of a kind that it may stand in. -/
structure Fits (d : Draft) : Prop where
  root : ∃ m, d.find? 0 = some m ∧ m.label = .block .sheet
  standsIn : ∀ {h m q head}, d.find? h = some m → m.label = .block head → m.parent = some q →
    ∃ p outer, d.find? q = some p ∧ p.label = .block outer ∧ head.StandsIn outer.content

/-- Whether the block that a node stands in is one with rules. -/
def StandsAmongRules (d : Draft) (m : DraftNode) : Prop :=
  ∀ q p head, m.parent = some q → d.find? q = some p → p.label = .block head →
    head.content = .rules

variable {d e : Draft} {loose : List Handle} {h k q : Handle} {m p : DraftNode} {label : Label}
  {head outer : Block} {n : Node}

theorem mem_trees {handles : List Handle} :
    n ∈ d.trees handles ↔ ∃ h ∈ handles, d.isRemoved h = false ∧ d.nodeAt? h = some n := by
  simp [trees, and_assoc]

namespace Fits

/-! ## Edits -/

theorem push (hf : d.Fits) (hlabel : ∀ head, label = .block head → ∃ p outer,
    d.find? q = some p ∧ p.label = .block outer ∧ head.StandsIn outer.content) :
    (d.push label (some q)).Fits where
  root := by
    obtain ⟨m, hm, hsheet⟩ := hf.root
    exact ⟨m, (find?_push_of_lt (lt_next_of_find? hm)).trans hm, hsheet⟩
  standsIn {h m r head} hm hhead hparent := by
    have hstands : ∃ p outer, d.find? r = some p ∧ p.label = .block outer ∧
        head.StandsIn outer.content := by
      rcases Linked.find?_push_cases hm with ⟨rfl, rfl⟩ | ⟨-, hold⟩
      · cases hparent
        exact hlabel head hhead
      · exact hf.standsIn hold hhead hparent
    obtain ⟨p, outer, hp, hstands⟩ := hstands
    exact ⟨p, outer, (find?_push_of_lt (lt_next_of_find? hp)).trans hp, hstands⟩

/-- What blocks are and what they stand in is all that counts. -/
theorem modify (hf : d.Fits) {change : DraftNode → DraftNode}
    (hparent : ∀ m, (change m).parent = m.parent)
    (hblock : ∀ m head, (change m).label = .block head ↔ m.label = .block head) :
    (d.modify k change).Fits := by
  have hsame : ∀ {h m}, d.find? h = some m → ∃ m', (d.modify k change).find? h = some m' ∧
      ∀ head, m'.label = .block head ↔ m.label = .block head := by
    intro h m hm
    rw [find?_modify, hm]
    split
    · exact ⟨change m, rfl, hblock m⟩
    · exact ⟨m, rfl, fun head => Iff.rfl⟩
  constructor
  · obtain ⟨m, hm, hsheet⟩ := hf.root
    obtain ⟨m', hm', hiff⟩ := hsame hm
    exact ⟨m', hm', (hiff _).mpr hsheet⟩
  · intro h m q head hm hhead hq
    obtain ⟨m₀, hm₀, heq⟩ := Linked.exists_of_find?_modify hm
    have hold : m₀.label = .block head ∧ m₀.parent = some q := by
      rw [heq] at hhead hq
      split at hhead <;> split at hq
      · exact ⟨(hblock m₀ head).mp hhead, hparent m₀ ▸ hq⟩
      · contradiction
      · contradiction
      · exact ⟨hhead, hq⟩
    obtain ⟨p, outer, hp, hlabel, hstands⟩ := hf.standsIn hm₀ hold.1 hold.2
    obtain ⟨p', hp', hiff⟩ := hsame hp
    exact ⟨p', outer, hp', (hiff outer).mpr hlabel, hstands⟩

/-- Lists of children do not count. -/
theorem setChildren (hf : d.Fits) (change : List Handle → List Handle) :
    (d.modify k fun m => { m with children := change m.children }).Fits :=
  hf.modify (fun _ => rfl) fun _ _ => Iff.rfl

end Fits

mutual

/-- Trees are added to blocks that they may stand in. -/
theorem fits_add {d : Draft} {q : Handle} {p : DraftNode} {outer : Block} (hf : d.Fits)
    (hp : d.find? q = some p) (hlabel : p.label = .block outer) :
    (n : Node) → n.BlocksStandIn outer.content → (d.add (some q) n).2.Fits
  | .leaf _, _ => hf.push nofun
  | .block head children, hn => by
    have hpushed : (d.push (.block head) (some q)).Fits := hf.push fun head' heq => by
      cases heq
      exact ⟨p, outer, hp, hlabel, hn.1⟩
    have hfind : (d.push (.block head) (some q)).find? d.next =
        some ⟨d.next, .block head, some q, [], false⟩ := by rw [find?_push, if_pos rfl]
    exact fits_addAll hpushed hfind rfl children hn.2

theorem fits_addAll {d : Draft} {q : Handle} {p : DraftNode} {outer : Block} (hf : d.Fits)
    (hp : d.find? q = some p) (hlabel : p.label = .block outer) :
    (ns : List Node) → Node.AllBlocksStandIn outer.content ns → (d.addAll q ns).Fits
  | [], _ => hf
  | n :: rest, hns => by
    have hadd := fits_add hf hp hlabel n hns.1
    have hp' : (d.add (some q) n).2.find? q = some p :=
      ((begins_add (Begins.refl d) _ n).find?_eq (lt_next_of_find? hp)).trans hp
    rw [addAll_cons]
    refine fits_addAll (p := { p with children := p.children ++ [d.next] })
      (hadd.setChildren (· ++ [d.next])) ?_ hlabel rest hns.2
    rw [find?_modify, if_pos rfl, hp']
    rfl

end

/-- In the draft of a style sheet every block stands where it may stand. -/
theorem fits_ofNode {ns : List Node} (h : Node.AllBlocksStandIn .rules ns) :
    (ofNode (.block .sheet ns)).Fits := by
  have hroot : ((Draft.mk []).push (.block .sheet) none).Fits := by
    refine ⟨⟨_, rfl, rfl⟩, fun {h m q head} hm _ hparent => ?_⟩
    rcases Linked.find?_push_cases hm with ⟨rfl, rfl⟩ | ⟨hlt, -⟩
    · cases hparent
    · exact absurd hlt (Nat.not_lt_zero _)
  have hsheet : (DraftNode.mk 0 (.block .sheet) none [] false).label = .block .sheet := rfl
  exact fits_addAll hroot rfl hsheet ns h

namespace Fits

/-- In the tree of a block, blocks stand where they may stand. -/
theorem allBlocksStandIn_trees (hf : d.Fits) (hd : d.Linked loose) (h : Handle)
    (hlt : h < d.next) : ∀ m head, d.find? h = some m → m.label = .block head →
      Node.AllBlocksStandIn head.content (d.trees m.children) := by
  refine hd.induction (motive := fun h => ∀ m head, d.find? h = some m → m.label = .block head →
    Node.AllBlocksStandIn head.content (d.trees m.children))
    (fun h m hm ih m' head hm' hlabel => ?_) h hlt
  cases hm.symm.trans hm'
  rw [Node.allBlocksStandIn_iff]
  intro n hn
  obtain ⟨c, hc, -, htree⟩ := mem_trees.mp hn
  obtain ⟨child, hchild, hparent⟩ := hd.parent_of_mem hm hc
  cases hinner : child.label with
  | leaf l =>
    cases htree.symm.trans (nodeAt?_leaf hchild hinner)
    trivial
  | block inner =>
    cases htree.symm.trans (hd.nodeAt?_eq_block hchild hinner)
    obtain ⟨p, outer, hp, houter, hstands⟩ := hf.standsIn hchild hinner hparent
    cases hm.symm.trans hp
    cases hlabel.symm.trans houter
    exact ⟨hstands, ih c hc child inner hchild hinner⟩

theorem insertBefore (hf : d.Fits) {before new : Handle} {property value : String}
    (hnew : d.insertBefore before property value = some (new, e)) : e.Fits := by
  simp only [Draft.insertBefore, Option.bind_eq_bind, Option.bind_eq_some_iff] at hnew
  obtain ⟨m, -, q, -, hnew⟩ := hnew
  split at hnew
  · cases hnew
  · cases hnew
    exact (hf.push fun head heq => by cases heq).setChildren (placedBefore before d.next)

/-- A copy stands in the block that the animation stands in. -/
theorem copyAnimation (hf : d.Fits) (hd : d.Linked [0]) {new : Handle} {mark : String}
    (hnew : d.copyAnimation k mark = some (new, e)) : e.Fits := by
  obtain ⟨m, name, vendor, q, hm, hlabel, hparent⟩ := exists_of_copyAnimation hnew
  obtain ⟨p, outer, hp, houter, hstands⟩ := hf.standsIn hm hlabel hparent
  have hframes := hf.allBlocksStandIn_trees hd k (lt_next_of_find? hm) m _ hm hlabel
  have hcopied : (Node.block (.keyframes name (some mark)) (d.trees m.children)).BlocksStandIn
      outer.content := ⟨hstands, hframes⟩
  rw [hd.copyAnimation_eq hm hlabel hparent mark] at hnew
  split at hnew
  · cases hnew
  · cases hnew
    exact (fits_add hf hp houter _ hcopied).setChildren (placedBefore k d.next)

theorem setValue (hf : d.Fits) (h : Handle) (value : String) : (d.setValue h value).Fits := by
  refine hf.modify (fun _ => rfl) fun m head => ?_
  cases m.label with
  | leaf l => cases l <;> simp [Label.withValue]
  | block head => exact Iff.rfl

theorem remove (hf : d.Fits) (h : Handle) (test : Label → Bool) :
    (d.modify h fun m => if test m.label then { m with removed := true } else m).Fits := by
  refine hf.modify (fun m => ?_) fun m head => ?_
  · split <;> rfl
  · split <;> exact Iff.rfl

/-- Blocks stand where they may stand after one edit. -/
theorem edited (hf : d.Fits) (hd : d.Linked [0]) (x : Edit) : (d.edited x).Fits := by
  cases x with
  | insertBefore before property value =>
    rw [Draft.edited]
    cases hnew : d.insertBefore before property value with
    | none => exact hf
    | some made => exact hf.insertBefore hnew
  | copyAnimation k mark =>
    rw [Draft.edited]
    cases hnew : d.copyAnimation k mark with
    | none => exact hf
    | some made => exact hf.copyAnimation hd hnew
  | setValue h value => exact hf.setValue h value
  | removeDeclaration h => exact hf.remove h (·.declaration?.isSome)
  | removeAnimation h => exact hf.remove h (·.animation?.isSome)

/-! ## Animations -/

/-- What only ever stands among rules does so here. -/
theorem standsAmongRules (hf : d.Fits) (hm : d.find? h = some m) (hlabel : m.label = .block head)
    (hhead : ∀ content, head.StandsIn content → content = .rules) : d.StandsAmongRules m := by
  intro q p outer hparent hp houter
  obtain ⟨p', outer', hp', houter', hstands⟩ := hf.standsIn hm hlabel hparent
  cases hp.symm.trans hp'
  cases houter.symm.trans houter'
  exact hhead _ hstands

/-- A node that stands among rules has its place in the style sheet. -/
theorem exists_surrounded_of_rules (hf : d.Fits) (hd : d.Linked [0]) (h : Handle) :
    ∀ m, d.find? h = some m → d.StandsAmongRules m → ∃ layers, d.Surrounded h layers := by
  -- The parent comes before the node, and stands among rules itself.
  induction h using Nat.strong_induction_on with
  | h h ih =>
    intro m hm hrules
    cases hparent : m.parent with
    | none => exact ⟨[], .root hm hparent⟩
    | some q =>
      obtain ⟨p, hp⟩ := hd.exists_parent hm hparent
      have hmem : h ∈ p.children :=
        List.count_pos_iff.mp (hd.count_children hm hparent hp ▸ Nat.one_pos)
      obtain ⟨head, hlabel⟩ := hd.exists_head_of_mem hp hmem
      have hcontent := hrules q p head hparent hp hlabel
      have hlive : p.removed = false := by
        refine Bool.eq_false_iff.mpr fun hremoved => ?_
        exact Label.not_isRemovable_of_rules hcontent (hlabel ▸ hd.isRemovable hp hremoved)
      have hparentRules := hf.standsAmongRules hp hlabel fun _ hstands => hstands.eq_rules hcontent
      obtain ⟨outer, houter⟩ := ih q (hd.parent_lt hm hparent) p hp hparentRules
      obtain ⟨front, back, hchildren⟩ := List.append_of_mem hmem
      exact ⟨_, .inside hm hparent hp hlabel hlive hchildren houter⟩

/-- An animation has its place in the style sheet, even if it has been removed. -/
theorem exists_surrounded (hf : d.Fits) (hd : d.Linked [0]) (hm : d.find? k = some m)
    {name : String} {vendor : Option String} (hlabel : m.label = .block (.keyframes name vendor)) :
    ∃ layer outer, d.Surrounded k (layer :: outer) := by
  have hrules := hf.standsAmongRules hm hlabel fun _ hstands => hstands
  obtain ⟨layers, hs⟩ := hf.exists_surrounded_of_rules hd k m hm hrules
  cases layers with
  | cons layer outer => exact ⟨layer, outer, hs⟩
  | nil =>
    -- The root is a style sheet.
    cases hs with
    | root hm' hparent =>
      obtain rfl := (hd.parent_eq_none_iff hm').mp hparent
      obtain ⟨root, hroot, hsheet⟩ := hf.root
      cases hm.symm.trans hroot
      cases hlabel.symm.trans hsheet

/-- In the style sheet that the draft stands for, blocks stand where they may stand. -/
theorem exists_toNode_eq (hf : d.Fits) (hd : d.Linked [0]) :
    ∃ ns, d.toNode = .block .sheet ns ∧ Node.AllBlocksStandIn .rules ns := by
  obtain ⟨m, hm, hsheet⟩ := hf.root
  refine ⟨d.trees m.children, ?_,
    hf.allBlocksStandIn_trees hd 0 (lt_next_of_find? hm) m _ hm hsheet⟩
  exact hd.toNode_eq (hd.nodeAt?_eq_block hm hsheet)

end Fits

/-- Whatever edits are made of a style sheet that was read, blocks stand where they may stand. -/
theorem fits_of_evolves {file css : String} (hn : Sheet.parse file css = .ok n)
    (hd : (ofNode n).Evolves d) : d.Fits := by
  induction hd with
  | refl =>
    obtain ⟨ns, rfl, hns⟩ := Sheet.allStandIn_of_parse hn
    exact fits_ofNode (Node.AllStandIn.allBlocksStandIn ns hns)
  | edit he _ ih => exact ih.edited (he.linked (linked_ofNode n)) _

end Draft
end VendorPrefixing
