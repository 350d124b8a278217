import VendorPrefixing.Proofs.Draft.Subtree
import VendorPrefixing.Proofs.Text.Join

/-!
# Places in a style sheet

A node of a draft stands somewhere in the style sheet, even if it has been removed: in a block,
between the trees that are left there in front of it and behind it, and that block stands in
another one in the same way.  These layers around the node stay as they are while only the node
and what is in it are edited.

Main results:

- Theorem `Draft.Linked.toNode_eq_wrapAll`: a style sheet is what is left of one of its nodes,
  with the layers around that node.
- Theorem `Draft.Surrounded.frame`: the layers around a node depend on no node inside it.
- Theorem `Draft.Inserts.toNode_eq`: an insertion adds its tree in front of the node that was
  named, and nothing else changes in the style sheet.
-/

namespace VendorPrefixing

/-- A block with a gap between the nodes in it. -/
structure Layer where
  head : Block
  before : List Node
  after : List Node
deriving DecidableEq, Repr

namespace Layer

/-- The block with some nodes in its gap. -/
def wrap (layer : Layer) (ns : List Node) : Node :=
  .block layer.head (layer.before ++ ns ++ layer.after)

/-- A node in the gap of the first block, that block in the gap of the second, and so on. -/
def wrapAll : List Layer → Node → Node
  | [], n => n
  | layer :: outer, n => wrapAll outer (layer.wrap [n])

end Layer

/-- Where a function has a value for each member of a list, the values belong to the members one
by one. -/
theorem forall₂_filterMap {α β : Type} {f : α → Option β} {r : α → β → Prop} {xs : List α}
    (h : ∀ x ∈ xs, ∃ y, f x = some y ∧ r x y) : List.Forall₂ r xs (xs.filterMap f) := by
  induction xs with
  | nil => exact .nil
  | cons x xs ih =>
    obtain ⟨⟨y, hy, hr⟩, hxs⟩ := List.forall_mem_cons.mp h
    rw [List.filterMap_cons_some hy]
    exact .cons hr (ih hxs)

namespace Draft

/-- The trees at some handles, without those of removed nodes. -/
def trees (d : Draft) (handles : List Handle) : List Node :=
  (handles.filter (!d.isRemoved ·)).filterMap d.nodeAt?

/-- The layers around a node, from the inside to the outside.  None of the blocks has been
removed. -/
inductive Surrounded (d : Draft) : Handle → List Layer → Prop
  | root {h : Handle} {m : DraftNode} : d.find? h = some m → m.parent = none → Surrounded d h []
  | inside {h q : Handle} {m p : DraftNode} {head : Block} {front back : List Handle}
    {outer : List Layer} : d.find? h = some m → m.parent = some q → d.find? q = some p →
    p.label = .block head → p.removed = false → p.children = front ++ h :: back →
    Surrounded d q outer → Surrounded d h (⟨head, d.trees front, d.trees back⟩ :: outer)

variable {d e : Draft} {loose : List Handle} {before new h k q : Handle} {m p : DraftNode}
  {head : Block} {n : Node} {layer : Layer} {layers outer : List Layer}

/-! ## Rows of trees -/

@[simp]
theorem trees_nil : d.trees [] = [] :=
  rfl

theorem trees_append (xs ys : List Handle) : d.trees (xs ++ ys) = d.trees xs ++ d.trees ys := by
  rw [trees, List.filter_append, List.filterMap_append, trees, trees]

theorem trees_cons (h : Handle) (hs : List Handle) : d.trees (h :: hs) = d.trees [h] ++ d.trees hs :=
  trees_append [h] hs

theorem trees_of_removed (hm : d.find? h = some m) (hremoved : m.removed = true) :
    d.trees [h] = [] := by
  have hgone : d.isRemoved h = true := by rwa [isRemoved, hm]
  simp [trees, hgone]

theorem trees_of_live (hm : d.find? h = some m) (hlive : m.removed = false)
    (hn : d.nodeAt? h = some n) : d.trees [h] = [n] := by
  have hthere : d.isRemoved h = false := by rwa [isRemoved, hm]
  simp [trees, hthere, hn]

namespace Linked

/-- Trees depend on their own nodes only. -/
theorem trees_congr (hd : d.Linked loose) {handles : List Handle}
    (hlt : ∀ h ∈ handles, h < d.next)
    (hsame : ∀ h ∈ handles, ∀ k, d.Under h k → e.find? k = d.find? k) :
    e.trees handles = d.trees handles := by
  have hfilter : handles.filter (!e.isRemoved ·) = handles.filter (!d.isRemoved ·) :=
    List.filter_congr fun h hh => by rw [isRemoved_congr (hsame h hh h .self)]
  rw [trees, trees, hfilter]
  refine List.filterMap_congr fun h hh => ?_
  have hmem := List.mem_of_mem_filter hh
  exact hd.nodeAt?_congr (hlt h hmem) (hsame h hmem)

/-- The trees in a block depend on the nodes behind it only. -/
theorem trees_congr_of_children (hd : d.Linked loose) (hp : d.find? q = some p)
    {handles : List Handle} (hsub : handles ⊆ p.children)
    (hsame : ∀ k, q < k → k < d.next → e.find? k = d.find? k) :
    e.trees handles = d.trees handles := by
  refine hd.trees_congr (fun c hc => (hd.lt_of_mem hp (hsub hc)).2) fun c hc k hk => ?_
  have hlater := hd.lt_of_mem hp (hsub hc)
  have hbounds := hd.bounds_of_under hlater.2 hk
  exact hsame k (Nat.lt_of_lt_of_le hlater.1 hbounds.1) hbounds.2

/-- The tree of a block holds the trees of its children. -/
theorem nodeAt?_eq_block (hd : d.Linked loose) (hm : d.find? h = some m)
    (hlabel : m.label = .block head) :
    d.nodeAt? h = some (.block head (d.trees m.children)) := by
  refine nodeAt?_block hm hlabel (forall₂_filterMap fun c hc => ?_)
  obtain ⟨n, hn⟩ := hd.exists_nodeAt? c (hd.lt_of_mem hm (mem_of_mem_liveChildren hc)).2
  exact ⟨n, hn, hn⟩

/-- A node is listed once. -/
theorem not_mem_siblings (hd : d.Linked [0]) (hm : d.find? h = some m) (hparent : m.parent = some q)
    (hp : d.find? q = some p) {front back : List Handle}
    (hchildren : p.children = front ++ h :: back) : h ∉ front ∧ h ∉ back := by
  have hcount := hd.count_children hm hparent hp
  rw [hchildren, List.count_append, List.count_cons_self] at hcount
  constructor <;> (rw [← List.count_eq_zero]; omega)

/-- The children of a node in the same block are not under it. -/
theorem not_under_of_sibling (hd : d.Linked [0]) (hm : d.find? h = some m)
    (hparent : m.parent = some q) (hp : d.find? q = some p) {c : Handle} (hc : c ∈ p.children)
    (hne : c ≠ h) (hk : d.Under c k) : ¬ d.Under h k := by
  obtain ⟨sibling, hsibling, hqc⟩ := hd.parent_of_mem hp hc
  have hapart := Apart.of_parent hd hsibling hm hqc hparent hne
  exact fun hunder => (hk.total hunder).elim hapart.1 hapart.2

end Linked

/-! ## The style sheet around a node -/

/-- A style sheet is one of its nodes with the layers around it. -/
theorem Surrounded.toNode_eq (hs : d.Surrounded h layers) (hd : d.Linked [0])
    (hlive : ∀ m, d.find? h = some m → m.removed = false) (hn : d.nodeAt? h = some n) :
    d.toNode = Layer.wrapAll layers n := by
  induction hs generalizing n with
  | root hm hparent =>
    obtain rfl := (hd.parent_eq_none_iff hm).mp hparent
    exact hd.toNode_eq hn
  | @inside h q m p head front back outer hm hparent hp hlabel hplive hchildren _ ih =>
    refine ih (fun p' hp' => Option.some.inj (hp.symm.trans hp') ▸ hplive) ?_
    rw [hd.nodeAt?_eq_block hp hlabel, hchildren, trees_append, trees_cons,
      trees_of_live hm (hlive m hm) hn, ← List.append_assoc]
    rfl

/-- A style sheet is what is left of one of its nodes, with the layers around that node. -/
theorem Linked.toNode_eq_wrapAll (hd : d.Linked [0]) (hs : d.Surrounded h (layer :: outer)) :
    d.toNode = Layer.wrapAll outer (layer.wrap (d.trees [h])) := by
  cases hs with
  | @inside _ q m p head front back _ hm hparent hp hlabel hplive hchildren houter =>
    refine houter.toNode_eq hd (fun p' hp' => Option.some.inj (hp.symm.trans hp') ▸ hplive) ?_
    rw [hd.nodeAt?_eq_block hp hlabel, hchildren, trees_append, trees_cons, ← List.append_assoc]
    rfl

/-- The layers around a node depend on no node inside it. -/
theorem Surrounded.frame (hs : d.Surrounded h layers) (hd : d.Linked [0])
    (hnode : ∀ m, d.find? h = some m → ∃ m', e.find? h = some m' ∧ m'.parent = m.parent)
    (hsame : ∀ k, k < d.next → ¬ d.Under h k → e.find? k = d.find? k) :
    e.Surrounded h layers := by
  induction hs with
  | root hm hparent =>
    obtain ⟨m', hm', heq⟩ := hnode _ hm
    exact .root hm' (heq.trans hparent)
  | @inside h q m p head front back outer hm hparent hp hlabel hplive hchildren _ ih =>
    obtain ⟨m', hm', heq⟩ := hnode m hm
    have hbefore : ¬ d.Under h q := fun hunder =>
      Nat.not_lt_of_le (hd.bounds_of_under (lt_next_of_find? hm) hunder).1 (hd.parent_lt hm hparent)
    have hp' : e.find? q = some p := (hsame q (lt_next_of_find? hp) hbefore).trans hp
    have hsiblings : ∀ cs, h ∉ cs → cs ⊆ p.children → e.trees cs = d.trees cs := by
      intro cs hnot hsub
      refine hd.trees_congr (fun c hc => (hd.lt_of_mem hp (hsub hc)).2) fun c hc k hk => ?_
      have hlt := hd.bounds_of_under (hd.lt_of_mem hp (hsub hc)).2 hk
      have hne : c ≠ h := fun heq => hnot (heq ▸ hc)
      exact hsame k hlt.2 (hd.not_under_of_sibling hm hparent hp (hsub hc) hne hk)
    obtain ⟨hfront, hback⟩ := hd.not_mem_siblings hm hparent hp hchildren
    rw [← hsiblings front hfront (by simp [hchildren]),
      ← hsiblings back hback (by simp [hchildren])]
    refine .inside hm' (heq.trans hparent) hp' hlabel hplive hchildren (ih ?_ fun k hlt hk => ?_)
    · exact fun p₀ hp₀ => ⟨p, hp', by rw [Option.some.inj (hp.symm.trans hp₀)]⟩
    · exact hsame k hlt fun hunder => hk (hd.under_of_mem hp (by simp [hchildren]) hunder)

/-- An insertion changes no node but the block that the node stands in which was named. -/
theorem Inserts.find?_of_ne (hi : d.Inserts before new e) (hm : d.find? before = some m)
    (hparent : m.parent = some q) (hlt : k < d.next) (hne : k ≠ q) : e.find? k = d.find? k := by
  refine hi.find?_eq hlt fun m' hm' hq => hne ?_
  cases hm.symm.trans hm'
  exact Option.some.inj (hq.symm.trans hparent)

/-- An insertion adds its tree in front of the node that was named, and nothing else changes in
the style sheet. -/
theorem Inserts.toNode_eq (hi : d.Inserts before new e) (hd : d.Linked [0])
    (hs : d.Surrounded before (layer :: outer)) :
    e.toNode = Layer.wrapAll outer (layer.wrap (e.trees [new] ++ d.trees [before])) := by
  obtain ⟨m, q, p, front, back, hm, hparent, hp, hchildren, hafter⟩ := hi.exists_parent hd
  have hothers : ∀ k, k < d.next → k ≠ q → e.find? k = d.find? k := fun _ =>
    hi.find?_of_ne hm hparent
  have hold : ∀ cs, cs ⊆ p.children → e.trees cs = d.trees cs := fun cs hsub =>
    hd.trees_congr_of_children hp hsub fun k hk hlt => hothers k hlt (Nat.ne_of_gt hk)
  cases hs with
  | @inside _ q' m' p' head front' back' _ hm' hparent' hp' hlabel hlive hchildren' houter =>
    cases hm.symm.trans hm'
    cases hparent.symm.trans hparent'
    cases hp.symm.trans hp'
    obtain ⟨rfl, rfl⟩ := (append_cons_inj_of_not_mem
      (hd.not_mem_siblings hm hparent hp hchildren).2
      (hd.not_mem_siblings hm hparent hp hchildren').2).mp (hchildren.symm.trans hchildren')
    have houter' : e.Surrounded q outer := by
      refine houter.frame hd (fun p₀ hp₀ => ⟨_, hafter, ?_⟩) fun k hlt hk => ?_
      · rw [Option.some.inj (hp.symm.trans hp₀)]
      · exact hothers k hlt fun heq => hk (heq ▸ .self)
    have he := hi.linked hd
    refine houter'.toNode_eq he (fun p₀ hp₀ => ?_) ?_
    · rw [← Option.some.inj (hafter.symm.trans hp₀)]
      exact hlive
    · rw [he.nodeAt?_eq_block hafter hlabel]
      dsimp only
      rw [trees_append, trees_cons, trees_cons before back, hold front (by simp [hchildren]),
        hold [before] (by simp [hchildren]), hold back (by simp [hchildren]), Layer.wrap]
      simp

end Draft
end VendorPrefixing
