import VendorPrefixing.Proofs.Draft.Declarations
import VendorPrefixing.Proofs.Draft.Insertion
import VendorPrefixing.Proofs.Draft.Row
import VendorPrefixing.Proofs.Sheet.Visiting

/-!
# Walks over declarations

A walk over the declarations of a draft lists them when it starts and edits the draft at one
after the other.  Going through the style sheet itself in the same order comes to the same,
if every visit only changes what stands in the place of the declaration it is about.

Main results:

- Theorem `Draft.Linked.declarationsIn?_eq`: the declarations below a node, child by child.
- Theorem `Draft.Row.walk`: a walk through the children of a block.
- Theorem `Draft.Linked.walkDeclarations_eq`: a walk over a draft is one through the style sheet
  it stands for.
-/

namespace VendorPrefixing

variable {α : Type}

namespace Draft

/-- Visits a declaration unless it has been removed. -/
def visited (visit : DeclarationPlace → Draft × α → Draft × α) (now : Draft × α)
    (place : DeclarationPlace) : Draft × α :=
  if now.1.isRemoved place.handle then now else visit place now

/-- The declarations that a child adds to those of a block. -/
def placesOf (d : Draft) (within : Option String) (holder c : Handle) : List DeclarationPlace :=
  if d.isRemoved c then []
  else if (d.declaration? c).isSome then [⟨c, holder, within⟩]
  else (d.declarationsIn? within c).getD []

/-- Every visit makes of a declaration what `turn` says, and changes nothing else. -/
def Visits (visit : DeclarationPlace → Draft × α → Draft × α)
    (turn : Node.Turn α) : Prop :=
  ∀ (e : Draft) (a : α) (c q : Handle) (m : DraftNode) (vendor : Option String)
    (decl : Declaration), e.Linked [0] → e.find? c = some m → m.parent = some q →
    m.removed = false → m.label = .leaf (.declaration decl) →
    e.Turns q c ((turn vendor (e.liveDeclarations q) decl a).1.map (.leaf ∘ .declaration))
        (visit ⟨c, q, vendor⟩ (e, a)).1 ∧
      (visit ⟨c, q, vendor⟩ (e, a)).2 = (turn vendor (e.liveDeclarations q) decl a).2

/-- A walk through what is under a node of `d` makes of the tree there what `turn` does, if it
starts before anything there has changed. -/
def WalksAs (d : Draft) (visit : DeclarationPlace → Draft × α → Draft × α) (turn : Node.Turn α)
    (h : Handle) : Prop :=
  ∀ (vendor : Option String) (n : Node), d.nodeAt? h = some n →
    ∀ (e : Draft) (a : α), e.Linked [0] → d.next ≤ e.next →
    (∀ k, d.Under h k → e.find? k = d.find? k) →
    let now := ((d.declarationsIn? vendor h).getD []).foldl (visited visit) (e, a)
    Walked d e h (n.walk turn vendor a).1 now.1 ∧ now.2 = (n.walk turn vendor a).2

variable {d e : Draft} {loose : List Handle} {c h k q : Handle} {m p : DraftNode} {n : Node}
  {ns : List Node} {done rest : List Handle} {vendor : Option String} {a : α}
  {visit : DeclarationPlace → Draft × α → Draft × α}
  {turn : Node.Turn α}

/-! ## The declarations below a node -/

/-- The declarations below a node, child by child. -/
theorem Linked.declarationsIn?_eq (hd : d.Linked loose) (hm : d.find? h = some m)
    (vendor : Option String) : d.declarationsIn? vendor h =
      some (m.children.flatMap (d.placesOf (m.label.vendorWithin vendor) h)) := by
  rw [declarationsIn?, hm, Option.bind_eq_bind, Option.bind_some]
  refine flatten_mapM_liveChildren (fun c hc => by rw [placesOf, if_pos hc]) fun c hc => ?_
  rw [placesOf, if_neg (Bool.eq_false_iff.mp (isRemoved_of_mem_liveChildren hc))]
  split
  · rfl
  · obtain ⟨places, hplaces⟩ := hd.exists_declarationsIn? c
      (hd.lt_of_mem hm (mem_of_mem_liveChildren hc)).2 (m.label.vendorWithin vendor)
    rw [hplaces, Option.getD_some]

/-- A node is the declaration that its tree is. -/
theorem Linked.declaration?_eq (hd : d.Linked loose) (hn : d.nodeAt? c = some n) :
    d.declaration? c = n.declaration? := by
  obtain ⟨m, hm⟩ : ∃ m, d.find? c = some m := by
    cases hm : d.find? c with
    | some m => exact ⟨m, rfl⟩
    | none =>
      rw [nodeAt?, hm] at hn
      cases hn
  rw [declaration?, hm, Option.bind_some]
  cases hlabel : m.label with
  | leaf l =>
    rw [← Option.some.inj ((nodeAt?_leaf hm hlabel).symm.trans hn)]
    cases l <;> rfl
  | block head =>
    rw [← Option.some.inj ((hd.nodeAt?_eq_block hm hlabel).symm.trans hn)]
    rfl

/-- The declarations of a block are those among the trees in it. -/
theorem Linked.liveDeclarations_eq_trees (hd : d.Linked loose) (hp : d.find? q = some p) :
    d.liveDeclarations q = Node.declarations (d.trees p.children) := by
  rw [liveDeclarations, hp]
  dsimp only
  rw [Node.declarations, trees, List.filterMap_filterMap]
  refine List.filterMap_congr fun c hc => ?_
  obtain ⟨n, hn⟩ := hd.exists_nodeAt? c (hd.lt_of_mem hp (mem_of_mem_liveChildren hc)).2
  rw [hn, Option.bind_some, hd.declaration?_eq hn]

/-! ## Walks -/

section

variable (hd : d.Linked [0]) (hp : d.find? q = some p)
include hd hp

/-- The declarations that the block of a row has. -/
theorem Row.liveDeclarations_eq (hrow : Row d e q p done rest ns) (hsub : rest ⊆ p.children) :
    e.liveDeclarations q = Node.declarations ns ++ Node.declarations (d.trees rest) := by
  have hsame : e.trees rest = d.trees rest :=
    hd.trees_congr (fun c hc => (hd.lt_of_mem hp (hsub hc)).2) hrow.untouched
  rw [hrow.linked.liveDeclarations_eq_trees hrow.find?_eq]
  dsimp only
  rw [trees_append, hrow.trees_eq, hsame, Node.declarations_append]

/-- A visit to the next child makes of it what is said. -/
theorem Row.passed_visit (hvisits : Visits visit turn) (within : Option String)
    (hrow : Row d e q p done (c :: rest) ns) (hsub : c :: rest ⊆ p.children)
    (hm : d.find? c = some m) (hlive : m.removed = false) {decl : Declaration}
    (hlabel : m.label = .leaf (.declaration decl)) (a : α) :
    let known := Node.declarations ns ++ decl :: Node.declarations (d.trees rest)
    let now := visited visit (e, a) ⟨c, q, within⟩
    Passed d e q p rest (ns ++ (turn within known decl a).1.map (.leaf ∘ .declaration)) now.1 ∧
      now.2 = (turn within known decl a).2 := by
  obtain ⟨m', hm', hparent⟩ := hd.parent_of_mem hp (hsub List.mem_cons_self)
  cases hm.symm.trans hm'
  have hem : e.find? c = some m := hrow.child_eq.trans hm
  have hthere : e.isRemoved c = false := by rwa [isRemoved, hem]
  have hknown : e.liveDeclarations q =
      Node.declarations ns ++ decl :: Node.declarations (d.trees rest) := by
    rw [hrow.liveDeclarations_eq hd hp hsub, trees_cons,
      trees_of_live hm hlive (nodeAt?_leaf hm hlabel), List.singleton_append,
      Node.declarations_cons_leaf]
  obtain ⟨hturns, hsnd⟩ := hvisits e a c q m within decl hrow.linked hem hparent hlive hlabel
  rw [hknown] at hturns hsnd
  rw [visited, if_neg (Bool.eq_false_iff.mp hthere)]
  exact ⟨hrow.passed_turn hd hp hsub hturns, hsnd⟩

/-- A walk through the next child of a block. -/
theorem Row.walk_child (hvisits : Visits visit turn) (within : Option String)
    (ih : d.WalksAs visit turn c)
    (hrow : Row d e q p done (c :: rest) ns) (hsub : c :: rest ⊆ p.children)
    (hlive : d.isRemoved c = false) (hn : d.nodeAt? c = some n) (a : α) :
    let now := (d.placesOf within q c).foldl (visited visit) (e, a)
    let result := n.walkFirst turn within (Node.declarations ns) a (d.trees rest)
    Passed d e q p rest (ns ++ result.1) now.1 ∧ now.2 = result.2 := by
  obtain ⟨m, hm, hparent⟩ := hd.parent_of_mem hp (hsub List.mem_cons_self)
  have hremoved : m.removed = false := by rwa [isRemoved, hm] at hlive
  rw [placesOf, if_neg (Bool.eq_false_iff.mp hlive), hd.declaration?_eq hn, Node.walkFirst]
  cases hdecl : n.declaration? with
  | some decl =>
    obtain ⟨m', hm', hlabel⟩ :=
      declaration?_eq_some_iff.mp ((hd.declaration?_eq hn).trans hdecl)
    cases hm.symm.trans hm'
    exact hrow.passed_visit hd hp hvisits within hsub hm hremoved hlabel a
  | none =>
    obtain ⟨hwalked, hsnd⟩ := ih within n hn e a hrow.linked hrow.next_le
      (hrow.untouched c List.mem_cons_self)
    exact ⟨hrow.passed_inside hd hp hsub hm hremoved hwalked, hsnd⟩

/-- A walk through the children of a block. -/
theorem Row.walk (hvisits : Visits visit turn) (within : Option String)
    (ih : ∀ c ∈ p.children, d.WalksAs visit turn c)
    (hrow : Row d e q p done rest ns) (hsub : rest ⊆ p.children) (a : α) :
    let now := (rest.flatMap (d.placesOf within q)).foldl (visited visit) (e, a)
    let result := Node.walkAll turn within (Node.declarations ns) a (d.trees rest)
    Passed d e q p [] (ns ++ result.1) now.1 ∧ now.2 = result.2 := by
  induction rest generalizing e done ns a with
  | nil => exact ⟨by simpa [Node.walkAll] using hrow.passed, rfl⟩
  | cons c rest ihrest =>
    have hmem := hsub List.mem_cons_self
    have hsub' : rest ⊆ p.children := fun _ hc => hsub (List.mem_cons_of_mem c hc)
    obtain ⟨m, hm, hparent⟩ := hd.parent_of_mem hp hmem
    rw [List.flatMap_cons, List.foldl_append, trees_cons]
    cases hremoved : m.removed with
    | true =>
      have hgone : d.isRemoved c = true := by rwa [isRemoved, hm]
      have hnext := hrow.pass hd hp hsub
      rw [trees_of_removed hm hremoved] at hnext ⊢
      rw [List.append_nil] at hnext
      rw [placesOf, if_pos hgone]
      exact ihrest hnext hsub' a
    | false =>
      have hlive : d.isRemoved c = false := by rwa [isRemoved, hm]
      obtain ⟨n, hn⟩ := hd.exists_nodeAt? c (hd.lt_of_mem hp hmem).2
      obtain ⟨hpassed, hsnd⟩ :=
        hrow.walk_child hd hp hvisits within (ih c hmem) hsub hlive hn a
      obtain ⟨done', hnext⟩ := hpassed.row
      obtain ⟨hlast, hend⟩ :=
        ihrest hnext hsub' ((d.placesOf within q c).foldl (visited visit) (e, a)).2
      rw [Node.declarations_append] at hlast hend
      rw [List.append_assoc] at hlast
      rw [trees_of_live hm hremoved hn, List.singleton_append, Node.walkAll_cons]
      dsimp only
      rw [← hsnd]
      exact ⟨hpassed.trans hlast, hend⟩

end

/-- A walk through what is under a node goes as it is said of the tree there. -/
theorem Linked.walksAs (hd : d.Linked [0]) (hvisits : Visits visit turn) (h : Handle)
    (hlt : h < d.next) : d.WalksAs visit turn h := by
  refine hd.induction (motive := d.WalksAs visit turn)
    (fun h m hm ih vendor n hn e a he hle hsame => ?_) h hlt
  rw [hd.declarationsIn?_eq hm vendor, Option.getD_some]
  cases hlabel : m.label with
  | leaf l =>
    obtain rfl := Option.some.inj (hn.symm.trans (nodeAt?_leaf hm hlabel))
    rw [hd.children_of_leaf hm hlabel]
    exact ⟨.of_leaf he hm hlabel (hsame h .self), rfl⟩
  | block head =>
    obtain rfl := Option.some.inj (hn.symm.trans (hd.nodeAt?_eq_block hm hlabel))
    obtain ⟨hpassed, hsnd⟩ := (Row.start he hle hm hsame hd).walk hd hm hvisits
      (head.vendorWithin vendor) ih (List.Subset.refl _) a
    exact ⟨hpassed.walked hm hlabel, hsnd⟩

/-- A walk over a draft is one through the style sheet it stands for. -/
theorem Linked.walkDeclarations_eq (hd : d.Linked [0]) (hvisits : Visits visit turn) (a : α) :
    let now := walkDeclarations visit (d, a)
    let result := d.toNode.walk turn none a
    now.1.Linked [0] ∧ now.1.toNode = result.1 ∧ now.2 = result.2 := by
  have hroot : 0 < d.next := hd.lt_next_of_loose List.mem_cons_self
  obtain ⟨n, hn⟩ := hd.exists_nodeAt? 0 hroot
  obtain ⟨hwalked, hsnd⟩ :=
    hd.walksAs hvisits 0 hroot none n hn d a hd (Nat.le_refl _) fun _ _ => rfl
  have hwalk : walkDeclarations visit (d, a) =
      ((d.declarationsIn? none 0).getD []).foldl (visited visit) (d, a) := by
    rw [walkDeclarations, declarations, handle_root hd]
    rfl
  rw [hwalk, hd.toNode_eq hn]
  exact ⟨hwalked.linked, hwalked.linked.toNode_eq hwalked.nodeAt?_eq, hsnd⟩

end Draft
end VendorPrefixing
