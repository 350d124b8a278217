import Mathlib.Data.List.Count
import VendorPrefixing.Proofs.Draft.Declarations
import VendorPrefixing.Proofs.Draft.Fitting

/-!
# Animations stay unique

An animation is not copied when the style sheet has one of that name and mark already.  Where it
is looked for, all animations are found, so that the copies never make two of one name and mark.

Main results:

- Theorem `Draft.Fits.any_animations_iff`: an animation is found exactly if it stands anywhere in
  the style sheet.
- Theorem `Draft.Fits.count_allAnimations_edited`: one copy or removal leaves at most one
  animation of a name and mark, or no more than there were.
- Theorem `Draft.copyAnimation_exact`: all this for every style sheet that was read and any
  edits, and what a copy is.
-/

namespace VendorPrefixing

/-- Whether an edit copies or removes an animation. -/
def Draft.Edit.CopiesOrRemoves : Draft.Edit → Prop
  | copyAnimation _ _ | removeAnimation _ => True
  | insertBefore _ _ _ | setValue _ _ | removeDeclaration _ => False

/-- A conditional block is no animation. -/
theorem Label.animation?_of_conditional {head : Block} (h : head.isConditional = true) :
    (Label.block head).animation? = none := by
  cases head <;> first | rfl | cases h

/-- In other blocks that are no animations, none are looked for. -/
theorem Label.animation?_of_inert {head : Block} (h : head.isInert = true) :
    (Label.block head).animation? = none ∧ head.isConditional = false := by
  cases head <;> first | exact ⟨rfl, rfl⟩ | cases h

namespace Layer

/-- The animations of a block are those in its gap and others that do not depend on them. -/
theorem exists_count_wrap (layer : Layer) (a : Animation) :
    ∃ others, ∀ ns, (layer.wrap ns).allAnimations.count a =
      others + (Node.allAnimationsAll ns).count a := by
  refine ⟨layer.head.animation?.toList.count a + (Node.allAnimationsAll layer.before).count a +
    (Node.allAnimationsAll layer.after).count a, fun ns => ?_⟩
  simp only [wrap, Node.allAnimations, Node.allAnimationsAll_append, List.count_append]
  omega

/-- The animations of a style sheet are those of one of its nodes and others that do not depend
on that node. -/
theorem exists_count_wrapAll (layers : List Layer) (a : Animation) :
    ∃ others, ∀ n, (wrapAll layers n).allAnimations.count a =
      others + n.allAnimations.count a := by
  induction layers with
  | nil => exact ⟨0, fun n => (Nat.zero_add _).symm⟩
  | cons layer outer ih =>
    obtain ⟨outside, houtside⟩ := ih
    obtain ⟨others, hothers⟩ := layer.exists_count_wrap a
    refine ⟨outside + others, fun n => ?_⟩
    rw [wrapAll, houtside, hothers, Node.allAnimationsAll, Node.allAnimationsAll, List.append_nil,
      Nat.add_assoc]

/-- The animations of a style sheet are those in a gap of it and others that do not depend on
them. -/
theorem exists_count_gap (layer : Layer) (outer : List Layer) (a : Animation) :
    ∃ others, ∀ ns, (wrapAll outer (layer.wrap ns)).allAnimations.count a =
      others + (Node.allAnimationsAll ns).count a := by
  obtain ⟨outside, houtside⟩ := exists_count_wrapAll outer a
  obtain ⟨others, hothers⟩ := layer.exists_count_wrap a
  exact ⟨outside + others, fun ns => by rw [houtside, hothers, Nat.add_assoc]⟩

end Layer

namespace Draft

variable {d e : Draft} {loose : List Handle} {h k new : Handle} {m : DraftNode} {n : Node}
  {name mark : String} {vendor : Option String} {a : Animation}

/-! ## Looking for animations -/

/-- Below any node, the animations that are listed are those of the tree there. -/
theorem Linked.exists_animationsIn?_eq (hd : d.Linked loose) (h : Handle) (hlt : h < d.next) :
    ∀ n, d.nodeAt? h = some n → ∃ places, d.animationsIn? h = some places ∧
      places.map AnimationPlace.animation = n.animations := by
  refine hd.induction (motive := fun h => ∀ n, d.nodeAt? h = some n → ∃ places,
    d.animationsIn? h = some places ∧ places.map AnimationPlace.animation = n.animations)
    (fun h m hm ih n hn => ?_) h hlt
  rw [animationsIn?, hm, Option.bind_eq_bind, Option.bind_some]
  cases hlabel : m.label with
  | leaf l =>
    obtain rfl : n = .leaf l := Option.some.inj (hn.symm.trans (nodeAt?_leaf hm hlabel))
    rw [liveChildren, hd.children_of_leaf hm hlabel]
    exact ⟨[], rfl, rfl⟩
  | block head =>
    cases hn.symm.trans (hd.nodeAt?_eq_block hm hlabel)
    rw [Node.animations, Node.animationsAll_eq_flatMap]
    refine exists_flatten_mapM_of_forall₂ (r := fun places as =>
      places.map AnimationPlace.animation = as) rfl ?_ (forall₂_filterMap fun c hc => ?_)
    · rintro xs xs' ys ys' rfl rfl
      exact List.map_append
    · have hmem := mem_of_mem_liveChildren hc
      obtain ⟨child, hchild, -⟩ := hd.parent_of_mem hm hmem
      rw [hchild, Option.bind_some]
      cases hinner : child.label with
      | leaf l =>
        refine ⟨_, nodeAt?_leaf hchild hinner, [], ?_, rfl⟩
        simp [hinner, Label.animation?, Label.isConditional]
      | block inner =>
        have htree := hd.nodeAt?_eq_block hchild hinner
        refine ⟨_, htree, ?_⟩
        rcases inner.animation_cases with ⟨name, rfl⟩ | ⟨name, mark, rfl⟩ | hcond | hinert
        · exact ⟨[⟨c, ⟨name, none⟩⟩], rfl, rfl⟩
        · exact ⟨[⟨c, ⟨name, some mark⟩⟩], rfl, rfl⟩
        · have hnone := Label.animation?_of_conditional hcond
          obtain ⟨places, hplaces, hmap⟩ := ih c hmem _ htree
          refine ⟨places, ?_, hmap.trans (Node.animationsIn_of_conditional hcond _).symm⟩
          simpa [hinner, hnone, Label.isConditional, hcond] using hplaces
        · have hnone := Label.animation?_of_inert hinert
          refine ⟨[], ?_, (Node.animationsIn_of_inert hinert _).symm⟩
          simp [hinner, hnone, Label.isConditional]

/-! ## Removing animations -/

/-- Nothing but an animation is removed. -/
theorem removeAnimation_eq_self (hnone : ∀ m, d.find? k = some m → m.label.animation? = none) :
    d.removeAnimation k = d := by
  refine ext_find? fun j => ?_
  rw [removeAnimation, find?_modify]
  split
  · rename_i heq
    subst heq
    cases hm : d.find? k with
    | none => rfl
    | some m => simp [hnone m hm]
  · rfl

/-- Where an animation was removed, the style sheet has a gap, and is the same around it. -/
theorem Linked.toNode_removeAnimation (hd : d.Linked [0]) {layer : Layer} {outer : List Layer}
    (hs : d.Surrounded k (layer :: outer)) (hm : d.find? k = some m)
    (ha : m.label.animation? = some a) :
    (d.removeAnimation k).toNode = Layer.wrapAll outer (layer.wrap []) := by
  have hafter : (d.removeAnimation k).find? k = some { m with removed := true } := by
    simp [removeAnimation, find?_modify, hm, ha]
  have hs' : (d.removeAnimation k).Surrounded k (layer :: outer) := by
    refine hs.frame hd (fun m₀ hm₀ => ⟨_, hafter, ?_⟩) fun j _ hj => ?_
    · rw [Option.some.inj (hm.symm.trans hm₀)]
    · have hne : k ≠ j := fun heq => hj (heq ▸ .self)
      rw [removeAnimation, find?_modify, if_neg hne]
  have he : (d.removeAnimation k).Linked [0] := linked_edited hd (.removeAnimation k)
  rw [he.toNode_eq_wrapAll hs', trees_of_removed hafter rfl]

namespace Fits

section

variable (hf : d.Fits) (hd : d.Linked [0])
include hf hd

/-- An animation is found exactly if it stands anywhere in the style sheet. -/
theorem any_animations_iff (a : Animation) :
    d.animations.any (·.animation == a) = true ↔ a ∈ d.toNode.allAnimations := by
  obtain ⟨ns, htoNode, hns⟩ := hf.exists_toNode_eq hd
  obtain ⟨root, hroot, -⟩ := hf.root
  obtain ⟨n, hn⟩ := hd.exists_nodeAt? 0 (lt_next_of_find? hroot)
  have hnode : n = d.toNode := (hd.toNode_eq hn).symm
  obtain ⟨places, hplaces, hmap⟩ := hd.exists_animationsIn?_eq 0 (lt_next_of_find? hroot) n hn
  have hlist : d.animations = places := by rw [animations, handle_root hd, hplaces, Option.getD_some]
  rw [htoNode, ← Node.animations_eq_allAnimations hns, ← htoNode, ← hnode, ← hmap, hlist]
  simp

/-- Copying is refused exactly if there is an animation of that name and mark. -/
theorem copyAnimation_eq_none_iff (hm : d.find? k = some m)
    (hlabel : m.label = .block (.keyframes name vendor)) (mark : String) :
    d.copyAnimation k mark = none ↔ ⟨name, some mark⟩ ∈ d.toNode.allAnimations := by
  obtain ⟨layer, outer, hs⟩ := hf.exists_surrounded hd hm hlabel
  cases hs with
  | inside hm' hparent =>
    cases hm.symm.trans hm'
    rw [hd.copyAnimation_eq hm hlabel hparent mark, ← hf.any_animations_iff hd]
    split <;> simp_all

/-! ## How many animations there are -/

/-- A copy adds one to the number of animations of its name and mark. -/
theorem count_allAnimations_copy (hm : d.find? k = some m)
    (hlabel : m.label = .block (.keyframes name vendor))
    (hnew : d.copyAnimation k mark = some (new, e)) (a : Animation) :
    e.toNode.allAnimations.count a =
      d.toNode.allAnimations.count a + [(⟨name, some mark⟩ : Animation)].count a := by
  obtain ⟨layer, outer, hs⟩ := hf.exists_surrounded hd hm hlabel
  obtain ⟨-, hcopies⟩ := hd.copies_of_copyAnimation hs hm hlabel hnew
  obtain ⟨layer, outer, name', vendor', frames, -, htree, -, hbefore, hafter⟩ := hcopies.toNode
  cases htree.symm.trans (hd.nodeAt?_eq_block hm hlabel)
  have hframes : Node.allAnimationsAll (d.trees m.children) = [] :=
    Node.allAnimationsAll_eq_nil (by simp [Block.content]) _
      (hf.allBlocksStandIn_trees hd k (lt_next_of_find? hm) m _ hm hlabel)
  obtain ⟨others, hothers⟩ := layer.exists_count_gap outer a
  rw [hbefore, hafter, hothers, hothers, Node.allAnimationsAll, Node.allAnimations, hframes,
    Block.animation?, Option.toList_some, List.append_nil, List.count_append]
  omega

/-- A removal leaves no more animations than there were. -/
theorem count_allAnimations_remove (k : Handle) (a : Animation) :
    (d.removeAnimation k).toNode.allAnimations.count a ≤ d.toNode.allAnimations.count a := by
  by_cases hanimation : ∃ m b, d.find? k = some m ∧ m.label.animation? = some b
  · obtain ⟨m, b, hm, hb⟩ := hanimation
    obtain ⟨layer, outer, hs⟩ := hf.exists_surrounded hd hm (Label.animation?_eq_some_iff.mp hb)
    obtain ⟨others, hothers⟩ := layer.exists_count_gap outer a
    rw [hd.toNode_removeAnimation hs hm hb, hd.toNode_eq_wrapAll hs, hothers, hothers]
    exact Nat.add_le_add_left (Nat.zero_le _) _
  · rw [removeAnimation_eq_self fun m hm => Option.eq_none_iff_forall_ne_some.mpr fun b hb =>
      hanimation ⟨m, b, hm, hb⟩]

/-- One copy or removal leaves at most one animation of a name and mark, or no more than there
were. -/
theorem count_allAnimations_edited {x : Edit} (hx : x.CopiesOrRemoves) (a : Animation) :
    (d.edited x).toNode.allAnimations.count a ≤ max 1 (d.toNode.allAnimations.count a) := by
  cases x with
  | copyAnimation k mark =>
    rw [Draft.edited]
    cases hnew : d.copyAnimation k mark with
    | none => exact Nat.le_max_right _ _
    | some made =>
      obtain ⟨m, name, vendor, -, hm, hlabel, -⟩ := exists_of_copyAnimation hnew
      rw [Option.map_some, Option.getD_some, hf.count_allAnimations_copy hd hm hlabel hnew]
      by_cases ha : (⟨name, some mark⟩ : Animation) = a
      · -- There was no such animation, or the copy would have been refused.
        subst ha
        have hmissing : ⟨name, some mark⟩ ∉ d.toNode.allAnimations := fun hmem => by
          rw [(hf.copyAnimation_eq_none_iff hd hm hlabel mark).mpr hmem] at hnew
          cases hnew
        rw [List.count_eq_zero.mpr hmissing, List.count_singleton_self]
        exact Nat.le_max_left _ _
      · rw [List.count_singleton, if_neg (by simpa using ha)]
        exact Nat.le_max_right _ _
  | removeAnimation k =>
    exact Nat.le_trans (hf.count_allAnimations_remove hd k a) (Nat.le_max_right _ _)
  | insertBefore _ _ _ => exact hx.elim
  | setValue _ _ => exact hx.elim
  | removeDeclaration _ => exact hx.elim

end

/-- Any number of copies and removals leave at most one animation of a name and mark, or no more
than there were. -/
theorem count_allAnimations_foldl_edited (hf : d.Fits) (hd : d.Linked [0]) {xs : List Edit}
    (hxs : ∀ x ∈ xs, x.CopiesOrRemoves) (a : Animation) :
    (xs.foldl Draft.edited d).toNode.allAnimations.count a ≤
      max 1 (d.toNode.allAnimations.count a) := by
  induction xs generalizing d with
  | nil => exact Nat.le_max_right _ _
  | cons x xs ih =>
    obtain ⟨hx, hxs⟩ := List.forall_mem_cons.mp hxs
    have hstep := hf.count_allAnimations_edited hd hx a
    exact Nat.le_trans (ih (hf.edited hd x) (linked_edited hd x) hxs)
      (Nat.max_le.mpr ⟨Nat.le_max_left _ _, hstep⟩)

end Fits

/-- In a draft that any edits of a style sheet have led to that was read, copying an animation is
refused exactly when one of its name and the mark stands anywhere in the style sheet, and
otherwise a copy comes to stand in front of it and is all that changes.  So no number of copies
and removals make a second animation of one name and mark. -/
theorem copyAnimation_exact {file css : String} {n : Node} (hn : Sheet.parse file css = .ok n)
    (hd : (ofNode n).Evolves d) :
    (∀ k m name vendor, d.find? k = some m → m.label = .block (.keyframes name vendor) →
      ∀ mark,
        (d.copyAnimation k mark = none ∧ d.edited (.copyAnimation k mark) = d ↔
          ⟨name, some mark⟩ ∈ d.toNode.allAnimations) ∧
        (⟨name, some mark⟩ ∉ d.toNode.allAnimations →
          ∃ e, d.copyAnimation k mark = some (d.next, e) ∧ d.Copies k mark e)) ∧
      ∀ xs : List Edit, (∀ x ∈ xs, x.CopiesOrRemoves) → ∀ a,
        (xs.foldl edited d).toNode.allAnimations.count a ≤
          max 1 (d.toNode.allAnimations.count a) := by
  have hlinked := hd.linked (linked_ofNode n)
  have hfits := fits_of_evolves hn hd
  refine ⟨fun k m name vendor hm hlabel mark => ?_, fun xs hxs a =>
    hfits.count_allAnimations_foldl_edited hlinked hxs a⟩
  have hiff := hfits.copyAnimation_eq_none_iff hlinked hm hlabel mark
  refine ⟨?_, fun hmissing => ?_⟩
  · rw [hiff, and_iff_left_iff_imp]
    intro hmem
    rw [edited, hiff.mpr hmem]
    rfl
  · cases hnew : d.copyAnimation k mark with
    | none => exact absurd (hiff.mp hnew) hmissing
    | some made =>
      obtain ⟨new, e⟩ := made
      obtain ⟨layer, outer, hs⟩ := hfits.exists_surrounded hlinked hm hlabel
      obtain ⟨rfl, hcopies⟩ := hlinked.copies_of_copyAnimation hs hm hlabel hnew
      exact ⟨e, rfl, hcopies⟩

/-- A text with an animation inside of a conditional block. -/
def slideText : String :=
  "@media a\x7b@keyframes b\x7bto\x7btop:0\x7d\x7d\x7d"

/-- The style sheet that this text is read as. -/
def slide : Node :=
  .block .sheet [.block (.media "a") [.block (.keyframes "b" none)
    [.block (.frame ["to"]) [.ofDeclaration "top" "0" ⟨1, 26⟩]]]]

theorem parse_slideText : Sheet.parse Sheet.unnamed slideText = .ok slide := by
  have hsettle : Chars.settle slideText.toList = slideText.toList :=
    Chars.settle_eq_self (IsCommentFree.of_not_mem (by decide))
  have hrun : (Reading.ofText slideText.toList).run = .ok [.block (.media "a")
      [.block (.keyframes "b" none)
        [.block (.frame ["to"]) [.ofDeclaration "top" "0" ⟨1, 26⟩]]]] := by
    rw [Reading.run_of_more rfl, Reading.run_of_more rfl, Reading.run_of_more rfl,
      Reading.run_of_more rfl, Reading.run_of_more rfl, Reading.run_of_more rfl,
      Reading.run_of_more rfl, Reading.run_eq]
    rfl
  rw [Sheet.parse, hsettle, hrun, slide]

/-- The draft after the animation was removed. -/
def withoutSlide : Draft :=
  (ofNode slide).edited (.removeAnimation 2)

/-- A removed animation is copied still, but there is never a second copy. -/
theorem copyAnimation_exact_withoutSlide :
    Sheet.parse Sheet.unnamed slideText = .ok slide ∧ (ofNode slide).Evolves withoutSlide ∧
      withoutSlide.isRemoved 2 = true ∧
      (∃ e, withoutSlide.copyAnimation 2 "webkit" = some (5, e) ∧
        withoutSlide.Copies 2 "webkit" e) ∧
      ([Edit.copyAnimation 2 "webkit", .removeAnimation 2, .copyAnimation 2 "webkit"].foldl edited
        withoutSlide).toNode.allAnimations.count ⟨"b", some "webkit"⟩ ≤ 1 := by
  have hd : (ofNode slide).Evolves withoutSlide := Evolves.refl.edit (by decide)
  obtain ⟨hcopy, hcount⟩ := copyAnimation_exact parse_slideText hd
  have hnone : withoutSlide.toNode.allAnimations.count ⟨"b", some "webkit"⟩ = 0 := by
    have hfits := fits_of_evolves parse_slideText .refl
    have hle := hfits.count_allAnimations_remove (linked_ofNode slide) 2 ⟨"b", some "webkit"⟩
    rw [toNode_ofNode] at hle
    exact Nat.le_zero.mp hle
  refine ⟨parse_slideText, hd, rfl, ?_, ?_⟩
  · exact (hcopy 2 _ "b" none rfl rfl "webkit").2 (List.count_eq_zero.mp hnone)
  · have hle := hcount [.copyAnimation 2 "webkit", .removeAnimation 2, .copyAnimation 2 "webkit"]
      (by simp [Edit.CopiesOrRemoves]) ⟨"b", some "webkit"⟩
    rwa [hnone] at hle

end Draft
end VendorPrefixing
