import VendorPrefixing.Proofs.Draft.Place

/-!
# Copies of animations

A copy of an animation is made in three steps: its tree is added once more, the root of the new
tree gets another mark, and the block around the animation lists it.  The first two steps amount
to adding the tree that has the other mark, so that a copy is an insertion like that of a
declaration.

Main results:

- Theorem `Draft.relabel_add_block`: a block that is added and becomes another one is the other
  one that is added.
- Theorem `Draft.Linked.copyAnimation_eq`: copying is adding the marked tree, unless there is an
  animation of that name and mark.
- Theorem `Draft.Linked.copies_of_copyAnimation`: the style sheet has the marked animation in
  front of the other one then, is the same in all else, and edits of one of the two do not show
  in the other.
-/

namespace VendorPrefixing

theorem Label.animation?_eq_some_iff {label : Label} {a : Animation} :
    label.animation? = some a ↔ label = .block (.keyframes a.name a.vendor) := by
  constructor
  · intro h
    rw [animation?.eq_def] at h
    split at h
    · cases h
      rfl
    · cases h
  · rintro rfl
    rfl

namespace Draft

/-- The draft in which the node with a handle is another one at the same place. -/
def relabel (d : Draft) (h : Handle) (change : Label → Label) : Draft :=
  d.modify h fun m => { m with label := change m.label }

variable {d e : Draft} {loose : List Handle} {h k q new : Handle} {m : DraftNode} {label : Label}
  {parent : Option Handle} {change : Label → Label} {head head' : Block} {frames : List Node}
  {name mark : String} {vendor : Option String}

/-! ## Adding a tree under another name -/

/-- Drafts with the same nodes are the same. -/
theorem ext_find? (hsame : ∀ k, d.find? k = e.find? k) : d = e := by
  obtain ⟨nodes⟩ := d
  obtain ⟨nodes'⟩ := e
  exact congrArg Draft.mk (List.ext_getElem? hsame)

theorem relabel_push (hk : k < d.next) :
    (d.push label parent).relabel k change = (d.relabel k change).push label parent := by
  refine ext_find? fun j => ?_
  rw [relabel, relabel, find?_modify, find?_push, find?_push, next_modify, find?_modify]
  by_cases hj : j = d.next
  · subst hj
    simp [Nat.ne_of_lt hk]
  · simp [hj]

theorem relabel_enterLast (child : Handle) :
    (d.enterLast q child).relabel k change = (d.relabel k change).enterLast q child := by
  refine ext_find? fun j => ?_
  simp only [relabel, enterLast, find?_modify]
  by_cases hk : k = j <;> by_cases hq : q = j <;> simp [hk, hq, Function.comp_def]

mutual

/-- What comes before a tree can be changed before the tree is added as well as after. -/
theorem relabel_add {d : Draft} (hk : k < d.next) (parent : Option Handle) :
    (n : Node) → (d.add parent n).2.relabel k change = ((d.relabel k change).add parent n).2
  | .leaf _ => relabel_push hk
  | .block _ children => by
    have hlater : ∀ label : Label, k < (d.push label parent).next := fun label => by
      rw [next_push]
      exact Nat.lt_succ_of_lt hk
    rw [add, add]
    dsimp only
    rw [relabel_addAll (hlater _) d.next children, relabel_push hk, relabel, next_modify]

theorem relabel_addAll {d : Draft} (hk : k < d.next) (q : Handle) :
    (ns : List Node) → (d.addAll q ns).relabel k change = (d.relabel k change).addAll q ns
  | [] => rfl
  | n :: rest => by
    have hlater : k < ((d.add (some q) n).2.enterLast q d.next).next := by
      rw [enterLast, next_modify]
      exact Nat.lt_of_lt_of_le hk (begins_add (Begins.refl d) (some q) n).next_le
    rw [addAll_cons, relabel_addAll hlater q rest, relabel_enterLast, relabel_add hk (some q) n,
      addAll_cons, relabel, next_modify]

end

/-- A block that is added and becomes another one is the other one that is added. -/
theorem relabel_add_block (hchange : change (.block head) = .block head')
    (parent : Option Handle) (ns : List Node) :
    (d.add parent (.block head ns)).2.relabel d.next change =
      (d.add parent (.block head' ns)).2 := by
  have hroot : (d.push (.block head) parent).relabel d.next change =
      d.push (.block head') parent := by
    refine ext_find? fun j => ?_
    rw [relabel, find?_modify, find?_push, find?_push]
    by_cases hj : d.next = j
    · simp [hj, hchange]
    · simp [hj, Ne.symm hj]
  rw [add, add]
  dsimp only
  rw [relabel_addAll (next_push ▸ Nat.lt_succ_self d.next), hroot]

/-! ## Copying -/

/-- What is copied is an animation inside of the style sheet. -/
theorem exists_of_copyAnimation (hnew : d.copyAnimation k mark = some (new, e)) :
    ∃ m name vendor q, d.find? k = some m ∧ m.label = .block (.keyframes name vendor) ∧
      m.parent = some q := by
  simp only [copyAnimation, Option.bind_eq_bind, Option.bind_eq_some_iff] at hnew
  obtain ⟨m, hm, animation, hanimation, hnew⟩ := hnew
  split at hnew
  · cases hnew
  · obtain ⟨q, hparent, -⟩ := Option.bind_eq_some_iff.mp hnew
    exact ⟨m, _, _, q, hm, Label.animation?_eq_some_iff.mp hanimation, hparent⟩

/-- Copying an animation is adding its tree under the mark and listing it in front, unless there
is an animation of that name and mark. -/
theorem Linked.copyAnimation_eq (hd : d.Linked [0]) (hm : d.find? k = some m)
    (hlabel : m.label = .block (.keyframes name vendor)) (hparent : m.parent = some q)
    (mark : String) :
    d.copyAnimation k mark =
      if d.animations.any (·.animation == ⟨name, some mark⟩) then none
      else some (d.next, (d.add (some q)
        (.block (.keyframes name (some mark)) (d.trees m.children))).2.enterBefore q k d.next) := by
  obtain ⟨n, hn, hcopy⟩ := hd.copy?_eq_add k (lt_next_of_find? hm)
  cases (hd.nodeAt?_eq_block hm hlabel).symm.trans hn
  have hmarked : ((d.add (some q) (.block (.keyframes name vendor) (d.trees m.children))).2.relabel
      d.next (·.withVendor mark)) = _ := relabel_add_block rfl (some q) (d.trees m.children)
  simp only [copyAnimation, hm, hlabel, hparent, Label.animation?, Option.bind_eq_bind,
    Option.bind_some, hcopy d (Begins.refl d)]
  split
  · rfl
  · rw [fst_add, ← hmarked]
    rfl

/-- In `e` a copy of the animation `k` under a mark has come to stand in front of it. -/
structure Copies (d : Draft) (k : Handle) (mark : String) (e : Draft) : Prop where
  /-- The style sheet has the animation under the mark in front of what is left of the animation,
  and is the same around it. -/
  toNode : ∃ layer outer name vendor frames, d.Surrounded k (layer :: outer) ∧
    d.nodeAt? k = some (.block (.keyframes name vendor) frames) ∧
    e.nodeAt? d.next = some (.block (.keyframes name (some mark)) frames) ∧
    d.toNode = Layer.wrapAll outer (layer.wrap (d.trees [k])) ∧
    e.toNode = Layer.wrapAll outer
      (layer.wrap (.block (.keyframes name (some mark)) frames :: d.trees [k]))
  putsBefore : d.PutsBefore e k d.next
  /-- All nodes are the same but for the block that the animation stands in. -/
  others : ∀ h, h < d.next → (∀ m, d.find? k = some m → m.parent ≠ some h) →
    e.find? h = d.find? h
  independent : e.Independent k d.next ∧ e.Independent d.next k

/-- A tree that was added and listed is found at its handle. -/
theorem Linked.nodeAt?_entered (hd : d.Linked [0]) (hq : q < d.next) (n : Node)
    (he : e = (d.add (some q) n).2.enterBefore q k d.next) : e.nodeAt? d.next = some n ∧
      ∃ m, e.find? d.next = some m ∧ m.parent = some q ∧ m.removed = false := by
  subst he
  have hroot : some q = none ↔ d.next = 0 :=
    iff_of_false (Option.some_ne_none q) (Nat.ne_of_gt (Nat.lt_of_le_of_lt (Nat.zero_le q) hq))
  have htree := nodeAt?_add hd hroot (fun _ heq => Option.some.inj heq ▸ hq) n
  obtain ⟨m, hm, hparent, hlive⟩ := exists_find?_add d (some q) n
  have hsame : ∀ j, d.next ≤ j → ((d.add (some q) n).2.enterBefore q k d.next).find? j =
      (d.add (some q) n).2.find? j := fun j hj => by
    rw [enterBefore, find?_modify, if_neg (Nat.ne_of_lt (Nat.lt_of_lt_of_le hq hj))]
  refine ⟨?_, m, (hsame _ (Nat.le_refl _)).trans hm, hparent, hlive⟩
  have hjoined := (hd.joins_add hq n).linked
  rw [hjoined.nodeAt?_congr (lt_next_of_find? hm) fun j hj =>
    hsame j (hjoined.bounds_of_under (lt_next_of_find? hm) hj).1, htree]

/-- The copy is the animation under the mark. -/
theorem Linked.copied_of_copyAnimation (hd : d.Linked [0]) (hm : d.find? k = some m)
    (hlabel : m.label = .block (.keyframes name vendor)) (hparent : m.parent = some q)
    (hnew : d.copyAnimation k mark = some (new, e)) :
    e.nodeAt? new = some (.block (.keyframes name (some mark)) (d.trees m.children)) ∧
      ∃ m', e.find? new = some m' ∧ m'.parent = some q ∧ m'.removed = false := by
  obtain ⟨p, hp⟩ := hd.exists_parent hm hparent
  rw [hd.copyAnimation_eq hm hlabel hparent mark] at hnew
  split at hnew
  · cases hnew
  · cases hnew
    exact hd.nodeAt?_entered (lt_next_of_find? hp) _ rfl

/-- What copying changes, and what not. -/
theorem Linked.copies_of_copyAnimation (hd : d.Linked [0]) {layer : Layer} {outer : List Layer}
    (hs : d.Surrounded k (layer :: outer)) (hm : d.find? k = some m)
    (hlabel : m.label = .block (.keyframes name vendor))
    (hnew : d.copyAnimation k mark = some (new, e)) : new = d.next ∧ d.Copies k mark e := by
  have hi := hd.inserts_of_copyAnimation hnew
  obtain rfl := hi.new_eq
  have he := hi.linked hd
  obtain ⟨m₀, q, p, front, back, hm₀, hparent, hp, hchildren, hafter⟩ := hi.exists_parent hd
  cases hm.symm.trans hm₀
  obtain ⟨hcopied, m', hm', hparent', hlive⟩ :=
    hd.copied_of_copyAnimation hm hlabel hparent hnew
  have htoNode := hi.toNode_eq hd hs
  rw [trees_of_live hm' hlive hcopied] at htoNode
  -- Both animations stand in the same block now.
  have hold := hi.find?_named hd hm
  have hapart := Apart.of_parent he hold hm' hparent hparent' (Nat.ne_of_lt (lt_next_of_find? hm))
  have hlt := lt_next_of_find? hold
  have hlt' := lt_next_of_find? hm'
  exact ⟨rfl, {
    toNode := ⟨layer, outer, name, vendor, _, hs, hd.nodeAt?_eq_block hm hlabel, hcopied,
      hd.toNode_eq_wrapAll hs, htoNode⟩
    putsBefore := hi.putsBefore hd
    others := fun h hlt hne => hi.find?_eq hlt hne
    independent := ⟨hapart.independent he hlt hlt', hapart.symm.independent he hlt' hlt⟩ }⟩

end Draft
end VendorPrefixing
