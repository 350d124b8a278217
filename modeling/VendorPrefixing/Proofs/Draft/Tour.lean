import VendorPrefixing.Proofs.Draft.Row
import VendorPrefixing.Proofs.Draft.Uniqueness
import VendorPrefixing.Proofs.Sheet.Visiting

/-!
# Walks over animations

A walk over the animations of a draft lists them when it starts and edits the draft at one after
the other.  Going through the style sheet itself in the same order comes to the same, if every
visit only changes what stands in the place of its animation.  What a visit does may depend on the
whole draft; the way through the style sheet then takes along what it needs to know of that.

Main results:

- Theorem `Draft.Linked.animationsIn?_eq`: the animations below a node, child by child.
- Theorem `Draft.Row.tour`: a walk through the children of a block.
- Theorem `Draft.Linked.walkAnimations_eq`: a walk over a draft is one through the style sheet it
  stands for.
-/

namespace VendorPrefixing
namespace Draft

variable {α β : Type}

/-- Visits an animation unless it has been removed. -/
def visitedAnimation (visit : AnimationPlace → Draft × β → Draft × β) (now : Draft × β)
    (place : AnimationPlace) : Draft × β :=
  if now.1.isRemoved place.handle then now else visit place now

/-- The animations that a child adds to those of a block. -/
def animationPlacesOf (d : Draft) (c : Handle) : List AnimationPlace :=
  if d.isRemoved c then []
  else
    match (d.find? c).bind (·.label.animation?) with
    | some animation => [⟨c, animation⟩]
    | none => if (d.find? c).any (·.label.isConditional) then (d.animationsIn? c).getD [] else []

/-- Every visit makes of an animation what `turn` says, and changes nothing else.  Here `along`
relates a draft, and what a walk over it has counted, to what is taken along on the way through
the style sheet. -/
def VisitsAnimations (along : Draft → β → α → Prop)
    (visit : AnimationPlace → Draft × β → Draft × β) (turn : Node.AnimationTurn α) : Prop :=
  ∀ (e : Draft) (b : β) (a : α) (c q : Handle) (m : DraftNode) (name : String)
    (vendor : Option String), e.Linked [0] → e.find? c = some m → m.parent = some q →
    m.removed = false → m.label = .block (.keyframes name vendor) → along e b a →
    let now := visit ⟨c, ⟨name, vendor⟩⟩ (e, b)
    let result := turn ⟨name, vendor⟩ (e.trees m.children) a
    e.Turns q c result.1 now.1 ∧ along now.1 now.2 result.2

/-- A walk through what is under a node of `d` makes of the tree there what `turn` does, if it
starts before anything there has changed. -/
def ToursAs (d : Draft) (along : Draft → β → α → Prop)
    (visit : AnimationPlace → Draft × β → Draft × β) (turn : Node.AnimationTurn α) (h : Handle) :
    Prop :=
  ∀ (n : Node), d.nodeAt? h = some n → ∀ (e : Draft) (b : β) (a : α), e.Linked [0] →
    d.next ≤ e.next → (∀ k, d.Under h k → e.find? k = d.find? k) → along e b a →
    let now := ((d.animationsIn? h).getD []).foldl (visitedAnimation visit) (e, b)
    Walked d e h (n.tour turn a).1 now.1 ∧ along now.1 now.2 (n.tour turn a).2

variable {d e : Draft} {loose : List Handle} {c h k q : Handle} {m p : DraftNode} {n : Node}
  {ns : List Node} {done rest : List Handle} {along : Draft → β → α → Prop}
  {visit : AnimationPlace → Draft × β → Draft × β} {turn : Node.AnimationTurn α}

/-! ## The animations below a node -/

/-- The animations below a node, child by child. -/
theorem Linked.animationsIn?_eq (hd : d.Linked loose) (hm : d.find? h = some m) :
    d.animationsIn? h = some (m.children.flatMap d.animationPlacesOf) := by
  rw [animationsIn?, hm, Option.bind_eq_bind, Option.bind_some]
  refine flatten_mapM_liveChildren (fun c hc => by rw [animationPlacesOf, if_pos hc]) fun c hc => ?_
  rw [animationPlacesOf, if_neg (Bool.eq_false_iff.mp (isRemoved_of_mem_liveChildren hc))]
  cases hanimation : (d.find? c).bind (·.label.animation?) with
  | some animation => rfl
  | none =>
    dsimp only
    split
    · obtain ⟨places, hplaces⟩ := hd.exists_animationsIn? c
        (hd.lt_of_mem hm (mem_of_mem_liveChildren hc)).2
      rw [hplaces, Option.getD_some]
    · rfl

/-! ## Walks -/

section

variable (hd : d.Linked [0]) (hp : d.find? q = some p)
include hd hp

/-- A visit to the next child makes of it what is said. -/
theorem Row.passed_animation (hvisits : VisitsAnimations along visit turn)
    (hrow : Row d e q p done (c :: rest) ns) (hsub : c :: rest ⊆ p.children)
    (hm : d.find? c = some m) (hlive : m.removed = false) {name : String} {vendor : Option String}
    (hlabel : m.label = .block (.keyframes name vendor)) {b : β} {a : α} (halong : along e b a) :
    let now := visitedAnimation visit (e, b) ⟨c, ⟨name, vendor⟩⟩
    let result := turn ⟨name, vendor⟩ (d.trees m.children) a
    Passed d e q p rest (ns ++ result.1) now.1 ∧ along now.1 now.2 result.2 := by
  obtain ⟨m', hm', hparent⟩ := hd.parent_of_mem hp (hsub List.mem_cons_self)
  cases hm.symm.trans hm'
  have hem : e.find? c = some m := hrow.child_eq.trans hm
  have hthere : e.isRemoved c = false := by rwa [isRemoved, hem]
  have hframes : e.trees m.children = d.trees m.children :=
    hd.trees_congr (fun j hj => (hd.lt_of_mem hm hj).2) fun j hj k hk =>
      hrow.untouched c List.mem_cons_self k (hd.under_of_mem hm hj hk)
  obtain ⟨hturns, hafter⟩ :=
    hvisits e b a c q m name vendor hrow.linked hem hparent hlive hlabel halong
  rw [hframes] at hturns hafter
  rw [visitedAnimation, if_neg (Bool.eq_false_iff.mp hthere)]
  exact ⟨hrow.passed_turn hd hp hsub hturns, hafter⟩

/-- A walk through the next child of a block. -/
theorem Row.tour_child (hvisits : VisitsAnimations along visit turn)
    (ih : d.ToursAs along visit turn c)
    (hrow : Row d e q p done (c :: rest) ns) (hsub : c :: rest ⊆ p.children) {b : β} {a : α}
    (halong : along e b a) :
    let now := (d.animationPlacesOf c).foldl (visitedAnimation visit) (e, b)
    let result := Node.tourAll turn a (d.trees [c])
    Passed d e q p rest (ns ++ result.1) now.1 ∧ along now.1 now.2 result.2 := by
  obtain ⟨m, hm, hparent⟩ := hd.parent_of_mem hp (hsub List.mem_cons_self)
  have hkept := (hrow.pass hd hp hsub).passed
  cases hremoved : m.removed with
  | true =>
    have hgone : d.isRemoved c = true := by rwa [isRemoved, hm]
    rw [trees_of_removed hm hremoved] at hkept ⊢
    rw [animationPlacesOf, if_pos hgone]
    exact ⟨hkept, halong⟩
  | false =>
    have hthere : ¬ d.isRemoved c = true := by simp [isRemoved, hm, hremoved]
    rw [animationPlacesOf, if_neg hthere, hm, Option.bind_some, Option.any_some]
    cases hlabel : m.label with
    | leaf l =>
      rw [trees_of_live hm hremoved (nodeAt?_leaf hm hlabel)] at hkept ⊢
      exact ⟨hkept, halong⟩
    | block head =>
      have hn := hd.nodeAt?_eq_block hm hlabel
      rw [trees_of_live hm hremoved hn] at hkept ⊢
      rw [Node.tourAll_singleton]
      obtain ⟨name, rfl⟩ | ⟨name, mark, rfl⟩ | h | h := head.animation_cases
      · exact hrow.passed_animation hd hp hvisits hsub hm hremoved hlabel halong
      · exact hrow.passed_animation hd hp hvisits hsub hm hremoved hlabel halong
      · obtain ⟨hwalked, hafter⟩ := ih _ hn e b a hrow.linked hrow.next_le
          (hrow.untouched c List.mem_cons_self) halong
        rw [Label.animation?_of_conditional h, Node.tourIn_of_conditional h]
        dsimp only
        rw [Label.isConditional, if_pos h]
        exact ⟨hrow.passed_inside hd hp hsub hm hremoved hwalked, hafter⟩
      · obtain ⟨hnone, hcond⟩ := Label.animation?_of_inert h
        rw [hnone, Node.tourIn_of_inert h]
        dsimp only
        rw [Label.isConditional, hcond, if_neg Bool.false_ne_true]
        exact ⟨hkept, halong⟩

/-- A walk through the children of a block. -/
theorem Row.tour (hvisits : VisitsAnimations along visit turn)
    (ih : ∀ c ∈ p.children, d.ToursAs along visit turn c)
    (hrow : Row d e q p done rest ns) (hsub : rest ⊆ p.children) {b : β} {a : α}
    (halong : along e b a) :
    let now := (rest.flatMap d.animationPlacesOf).foldl (visitedAnimation visit) (e, b)
    let result := Node.tourAll turn a (d.trees rest)
    Passed d e q p [] (ns ++ result.1) now.1 ∧ along now.1 now.2 result.2 := by
  induction rest generalizing e done ns b a with
  | nil => exact ⟨by simpa [Node.tourAll] using hrow.passed, halong⟩
  | cons c rest ihrest =>
    obtain ⟨hpassed, hafter⟩ :=
      hrow.tour_child hd hp hvisits (ih c (hsub List.mem_cons_self)) hsub halong
    obtain ⟨done', hnext⟩ := hpassed.row
    obtain ⟨hlast, hend⟩ := ihrest hnext (fun _ hc => hsub (List.mem_cons_of_mem c hc)) hafter
    rw [List.append_assoc] at hlast
    rw [List.flatMap_cons, List.foldl_append, trees_cons, Node.tourAll_append]
    exact ⟨hpassed.trans hlast, hend⟩

end

/-- A walk through what is under a node goes as it is said of the tree there. -/
theorem Linked.toursAs (hd : d.Linked [0]) (hvisits : VisitsAnimations along visit turn)
    (h : Handle) (hlt : h < d.next) : d.ToursAs along visit turn h := by
  refine hd.induction (motive := d.ToursAs along visit turn)
    (fun h m hm ih n hn e b a he hle hsame halong => ?_) h hlt
  rw [hd.animationsIn?_eq hm, Option.getD_some]
  cases hlabel : m.label with
  | leaf l =>
    obtain rfl := Option.some.inj (hn.symm.trans (nodeAt?_leaf hm hlabel))
    rw [hd.children_of_leaf hm hlabel]
    exact ⟨.of_leaf he hm hlabel (hsame h .self), halong⟩
  | block head =>
    obtain rfl := Option.some.inj (hn.symm.trans (hd.nodeAt?_eq_block hm hlabel))
    obtain ⟨hpassed, hafter⟩ := (Row.start he hle hm hsame hd).tour hd hm hvisits ih
      (List.Subset.refl _) halong
    exact ⟨hpassed.walked hm hlabel, hafter⟩

/-- A walk over a draft is one through the style sheet it stands for. -/
theorem Linked.walkAnimations_eq (hd : d.Linked [0]) (hvisits : VisitsAnimations along visit turn)
    {b : β} {a : α} (halong : along d b a) :
    let now := walkAnimations visit (d, b)
    let result := d.toNode.tour turn a
    now.1.Linked [0] ∧ now.1.toNode = result.1 ∧ along now.1 now.2 result.2 := by
  have hroot : 0 < d.next := hd.lt_next_of_loose List.mem_cons_self
  obtain ⟨n, hn⟩ := hd.exists_nodeAt? 0 hroot
  obtain ⟨hwalked, hafter⟩ :=
    hd.toursAs hvisits 0 hroot n hn d b a hd (Nat.le_refl _) (fun _ _ => rfl) halong
  have hwalk : walkAnimations visit (d, b) =
      ((d.animationsIn? 0).getD []).foldl (visitedAnimation visit) (d, b) := by
    rw [walkAnimations, animations, handle_root hd]
    rfl
  rw [hwalk, hd.toNode_eq hn]
  exact ⟨hwalked.linked, hwalked.linked.toNode_eq hwalked.nodeAt?_eq, hafter⟩

end Draft
end VendorPrefixing
