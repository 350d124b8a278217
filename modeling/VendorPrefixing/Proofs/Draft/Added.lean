import VendorPrefixing.Proofs.Draft.Linked

/-!
# Trees in a draft

Adding a tree to a draft makes its root a loose node and leaves the nodes before it
alone.  In a draft whose links agree, following them comes to an end, and what was added
is found again.  Copying a tree is adding the tree that is found.

Main results:

- Theorem `Draft.linked_add`: the links still agree after a tree was added.
- Theorem `Draft.Linked.exists_nodeAt?`: there is a tree at every handle.
- Theorem `Draft.nodeAt?_add`: the tree that was added is found at its handle.
- Theorem `Draft.toNode_ofNode`: a fresh draft is the style sheet it was made of.
- Theorem `Draft.Linked.copy?_eq_add`: a tree is copied by adding it once more.
-/

namespace VendorPrefixing

/-- A list is mapped where each of its members is. -/
theorem mapM_eq_some_of_forall₂ {α β : Type} {f : α → Option β} {xs : List α} {ys : List β}
    (h : List.Forall₂ (fun x y => f x = some y) xs ys) : xs.mapM f = some ys := by
  induction h with
  | nil => rfl
  | cons hx _ ih => rw [List.mapM_cons, hx, ih]; rfl

theorem exists_forall₂_of_forall {α β : Type} {r : α → β → Prop} {xs : List α}
    (h : ∀ x ∈ xs, ∃ y, r x y) : ∃ ys, List.Forall₂ r xs ys := by
  induction xs with
  | nil => exact ⟨[], .nil⟩
  | cons x xs ih =>
    obtain ⟨⟨y, hy⟩, hxs⟩ := List.forall_mem_cons.mp h
    obtain ⟨ys, hys⟩ := ih hxs
    exact ⟨y :: ys, .cons hy hys⟩

/-- Lists that are found for all members of a list are joined. -/
theorem exists_flatten_mapM {α β : Type} {f : α → Option (List β)} {xs : List α}
    (h : ∀ x ∈ xs, ∃ ys, f x = some ys) : ∃ ys, (do
      let found ← xs.mapM f
      return found.flatten) = some ys := by
  obtain ⟨found, hfound⟩ := exists_forall₂_of_forall h
  exact ⟨found.flatten, by rw [mapM_eq_some_of_forall₂ hfound]; rfl⟩

namespace Draft

variable {d e : Draft} {loose : List Handle} {h k q : Handle} {m p : DraftNode}

/-- The nodes of a draft are the first ones of another draft. -/
structure Begins (d e : Draft) : Prop where
  next_le : d.next ≤ e.next
  find?_eq : ∀ {h}, h < d.next → e.find? h = d.find? h

theorem Begins.refl (d : Draft) : d.Begins d where
  next_le := Nat.le_refl _
  find?_eq _ := rfl

theorem Begins.push (h : d.Begins e) (label : Label) (parent : Option Handle) :
    d.Begins (e.push label parent) where
  next_le := next_push ▸ Nat.le_succ_of_le h.next_le
  find?_eq hlt := (find?_push_of_lt (Nat.lt_of_lt_of_le hlt h.next_le)).trans (h.find?_eq hlt)

theorem Begins.modify (h : d.Begins e) (hk : d.next ≤ k) (change : DraftNode → DraftNode) :
    d.Begins (e.modify k change) where
  next_le := by
    rw [next_modify]
    exact h.next_le
  find?_eq hlt := by
    rw [find?_modify, if_neg (Nat.ne_of_gt (Nat.lt_of_lt_of_le hlt hk)), h.find?_eq hlt]

theorem isRemoved_congr (hsame : e.find? h = d.find? h) : e.isRemoved h = d.isRemoved h := by
  rw [isRemoved, hsame, isRemoved]

/-! ## Adding trees -/

@[simp]
theorem fst_add (d : Draft) (parent : Option Handle) (n : Node) :
    (d.add parent n).1 = d.next := by
  cases n <;> rfl

theorem addAll_cons (d : Draft) (q : Handle) (n : Node) (rest : List Node) :
    d.addAll q (n :: rest) = ((d.add (some q) n).2.enterLast q d.next).addAll q rest := by
  rw [← fst_add d (some q) n, addAll]

mutual

/-- Adding a tree leaves the nodes before it alone. -/
theorem begins_add {d e : Draft} (h : d.Begins e) (parent : Option Handle) :
    (n : Node) → d.Begins (e.add parent n).2
  | .leaf _ => h.push _ _
  | .block _ children => begins_addAll (h.push _ _) h.next_le children

theorem begins_addAll {d e : Draft} {q : Handle} (h : d.Begins e) (hq : d.next ≤ q) :
    (ns : List Node) → d.Begins (e.addAll q ns)
  | [] => h
  | n :: rest => by
    rw [addAll_cons]
    exact begins_addAll ((begins_add h _ n).modify hq _) hq rest

end

/-- Adding trees changes no node before them but their parent. -/
theorem find?_addAll (hlt : h < d.next) (hne : h ≠ q) (ns : List Node) :
    (d.addAll q ns).find? h = d.find? h := by
  induction ns generalizing d with
  | nil => rw [addAll]
  | cons n rest ih =>
    have hbegins := begins_add (Begins.refl d) (some q) n
    have hlater : h < ((d.add (some q) n).2.enterLast q d.next).next := by
      rw [enterLast, next_modify]
      exact Nat.lt_of_lt_of_le hlt hbegins.next_le
    rw [addAll_cons, ih hlater, enterLast, find?_modify, if_neg (Ne.symm hne),
      hbegins.find?_eq hlt]

/-- The root of an added tree. -/
theorem exists_find?_add (d : Draft) (parent : Option Handle) (n : Node) :
    ∃ m, (d.add parent n).2.find? d.next = some m ∧ m.parent = parent ∧ m.removed = false := by
  have hpushed : ∀ label, (d.push label parent).find? d.next =
      some ⟨d.next, label, parent, [], false⟩ := fun label => by
    rw [find?_push, if_pos rfl]
  have hlater : ∀ (e : Draft) (ns : List Node) (m : DraftNode), e.find? d.next = some m →
      m.parent = parent → m.removed = false → ∃ m, (e.addAll d.next ns).find? d.next = some m ∧
        m.parent = parent ∧ m.removed = false := by
    intro e ns
    induction ns generalizing e with
    | nil => exact fun m hm hparent hremoved => ⟨m, hm, hparent, hremoved⟩
    | cons n rest ih =>
      intro m hm hparent hremoved
      rw [addAll_cons]
      refine ih _ { m with children := m.children ++ [e.next] } ?_ hparent hremoved
      rw [enterLast, find?_modify, if_pos rfl,
        (begins_add (Begins.refl e) _ n).find?_eq (lt_next_of_find? hm), hm]
      rfl
  cases n with
  | leaf l => exact ⟨_, hpushed _, rfl, rfl⟩
  | block head children => exact hlater _ children _ (hpushed _) rfl rfl

namespace Linked

/-- A loose child is listed by its parent. -/
theorem enterLast (hd : d.Linked (k :: loose)) (hk : k ∉ loose) (hm : d.find? k = some m)
    (hparent : m.parent = some q) (hp : d.find? q = some p)
    (hlabel : ∃ head, p.label = .block head) : (d.enterLast q k).Linked loose :=
  hd.enter hk hm hparent hp hlabel (· ++ [k]) (List.perm_append_singleton k p.children)

end Linked

mutual

/-- The links still agree after a tree was added. -/
theorem linked_add {d : Draft} {loose : List Handle} {parent : Option Handle}
    (hd : d.Linked loose) (hroot : parent = none ↔ d.next = 0)
    (hparent : ∀ q, parent = some q → q < d.next) : (n : Node) → (d.add parent n).2.Linked (d.next :: loose)
  | .leaf _ => hd.push hroot hparent _
  | .block head children =>
    have hfind : (d.push (.block head) parent).find? d.next =
        some ⟨d.next, .block head, parent, [], false⟩ := by rw [find?_push, if_pos rfl]
    linked_addAll (hd.push hroot hparent _) hfind ⟨head, rfl⟩ children

theorem linked_addAll {d : Draft} {loose : List Handle} {q : Handle} {p : DraftNode}
    (hd : d.Linked loose) (hp : d.find? q = some p) (hlabel : ∃ head, p.label = .block head) :
    (ns : List Node) → (d.addAll q ns).Linked loose
  | [] => hd
  | n :: rest => by
    have hlt := lt_next_of_find? hp
    have hrootless : some q = none ↔ d.next = 0 :=
      iff_of_false nofun (Nat.ne_of_gt (Nat.lt_of_le_of_lt (Nat.zero_le q) hlt))
    have hadd := linked_add hd hrootless (fun _ heq => Option.some.inj heq ▸ hlt) n
    have hloose : d.next ∉ loose := fun hmem => Nat.lt_irrefl _ (hd.lt_next_of_loose hmem)
    obtain ⟨m, hm, hmparent, -⟩ := exists_find?_add d (some q) n
    have hp' : (d.add (some q) n).2.find? q = some p :=
      ((begins_add (Begins.refl d) _ n).find?_eq hlt).trans hp
    rw [addAll_cons]
    refine linked_addAll (hadd.enterLast hloose hm hmparent hp' hlabel)
      (p := { p with children := p.children ++ [d.next] }) ?_ hlabel rest
    rw [enterLast, find?_modify, if_pos rfl, hp']
    rfl

end

/-! ## Finding trees -/

theorem nodeAt?_leaf {l : Leaf} (hm : d.find? h = some m) (hlabel : m.label = .leaf l) :
    d.nodeAt? h = some (.leaf l) := by
  rw [nodeAt?, hm, Option.bind_eq_bind, Option.bind_some, hlabel]
  rfl

theorem nodeAt?_block {head : Block} {ns : List Node} (hm : d.find? h = some m)
    (hlabel : m.label = .block head)
    (hchildren : List.Forall₂ (fun c n => d.nodeAt? c = some n) (d.liveChildren m) ns) :
    d.nodeAt? h = some (.block head ns) := by
  rw [nodeAt?, hm, Option.bind_eq_bind, Option.bind_some, hlabel]
  dsimp only
  rw [mapM_eq_some_of_forall₂ hchildren]
  rfl

theorem mem_of_mem_liveChildren {c : Handle} (hc : c ∈ d.liveChildren m) : c ∈ m.children :=
  (List.mem_filter.mp hc).1

/-- There is a tree at every handle. -/
theorem Linked.exists_nodeAt? (hd : d.Linked loose) (h : Handle) (hlt : h < d.next) :
    ∃ n, d.nodeAt? h = some n := by
  refine hd.induction (motive := fun h => ∃ n, d.nodeAt? h = some n) (fun h m hm ih => ?_) h hlt
  cases hlabel : m.label with
  | leaf l => exact ⟨_, nodeAt?_leaf hm hlabel⟩
  | block head =>
    obtain ⟨ns, hns⟩ := exists_forall₂_of_forall fun c hc => ih c (mem_of_mem_liveChildren hc)
    exact ⟨_, nodeAt?_block hm hlabel hns⟩

/-- A tree depends on its own nodes only. -/
theorem Linked.nodeAt?_congr (hd : d.Linked loose) (hlt : h < d.next)
    (hsame : ∀ k, d.Under h k → e.find? k = d.find? k) : e.nodeAt? h = d.nodeAt? h := by
  revert hsame
  refine hd.induction (motive := fun h =>
    (∀ k, d.Under h k → e.find? k = d.find? k) → e.nodeAt? h = d.nodeAt? h)
    (fun h m hm ih hsame => ?_) h hlt
  have hem : e.find? h = some m := (hsame h .self).trans hm
  have hlive : e.liveChildren m = d.liveChildren m := by
    refine List.filter_congr fun c hc => ?_
    rw [isRemoved_congr (hsame c (hd.under_of_mem hm hc .self))]
  cases hlabel : m.label with
  | leaf l => rw [nodeAt?_leaf hem hlabel, nodeAt?_leaf hm hlabel]
  | block head =>
    have hchildren : ∀ c ∈ d.liveChildren m, ∃ n, d.nodeAt? c = some n ∧ e.nodeAt? c = some n := by
      intro c hc
      have hmem := mem_of_mem_liveChildren hc
      obtain ⟨n, hn⟩ := hd.exists_nodeAt? c (hd.lt_of_mem hm hmem).2
      refine ⟨n, hn, (ih c hmem fun k hk => ?_).trans hn⟩
      exact hsame k (hd.under_of_mem hm hmem hk)
    obtain ⟨ns, hns⟩ := exists_forall₂_of_forall hchildren
    have hens : List.Forall₂ (fun c n => e.nodeAt? c = some n) (e.liveChildren m) ns := by
      rw [hlive]
      exact hns.imp fun _ _ h => h.2
    rw [nodeAt?_block hm hlabel (hns.imp fun _ _ h => h.1), nodeAt?_block hem hlabel hens]

mutual

/-- The tree that was added is found at its handle. -/
theorem nodeAt?_add {d : Draft} {loose : List Handle} {parent : Option Handle}
    (hd : d.Linked loose) (hroot : parent = none ↔ d.next = 0)
    (hparent : ∀ q, parent = some q → q < d.next) : (n : Node) → (d.add parent n).2.nodeAt? d.next = some n
  | .leaf l => nodeAt?_leaf (by rw [add, find?_push, if_pos rfl]) rfl
  | .block head children => by
    have hfind : (d.push (.block head) parent).find? d.next =
        some ⟨d.next, .block head, parent, [], false⟩ := by rw [find?_push, if_pos rfl]
    obtain ⟨handles, hm, hlive, htrees⟩ :=
      nodeAt?_addAll (hd.push hroot hparent _) hfind ⟨head, rfl⟩ children
    rw [add]
    refine nodeAt?_block hm rfl ?_
    rw [liveChildren, List.filter_eq_self.mpr]
    · exact htrees
    · exact fun c hc => by rw [hlive c hc]; rfl

/-- The trees that were added are found where their parent lists them. -/
theorem nodeAt?_addAll {d : Draft} {loose : List Handle} {q : Handle} {p : DraftNode}
    (hd : d.Linked loose) (hp : d.find? q = some p) (hlabel : ∃ head, p.label = .block head) :
    (ns : List Node) →
    ∃ handles, (d.addAll q ns).find? q = some { p with children := p.children ++ handles } ∧
      (∀ c ∈ handles, (d.addAll q ns).isRemoved c = false) ∧
      List.Forall₂ (fun c n => (d.addAll q ns).nodeAt? c = some n) handles ns
  | [] => ⟨[], by rw [addAll, hp, List.append_nil], List.forall_mem_nil _, .nil⟩
  | n :: rest => by
    have hlt := lt_next_of_find? hp
    have hrootless : some q = none ↔ d.next = 0 :=
      iff_of_false nofun (Nat.ne_of_gt (Nat.lt_of_le_of_lt (Nat.zero_le q) hlt))
    have hbound : ∀ r, some q = some r → r < d.next := fun _ heq => Option.some.inj heq ▸ hlt
    have hbegins := begins_add (Begins.refl d) (some q) n
    have hadd := linked_add hd hrootless hbound n
    have htree := nodeAt?_add hd hrootless hbound n
    obtain ⟨m, hm, hmparent, hmremoved⟩ := exists_find?_add d (some q) n
    have hloose : d.next ∉ loose := fun hmem => Nat.lt_irrefl _ (hd.lt_next_of_loose hmem)
    have hp' : (d.add (some q) n).2.find? q = some p := (hbegins.find?_eq hlt).trans hp
    have hentered := hadd.enterLast hloose hm hmparent hp' hlabel
    have hnext : ((d.add (some q) n).2.enterLast q d.next).next = (d.add (some q) n).2.next :=
      next_modify
    obtain ⟨handles, hfind, hlive, htrees⟩ := nodeAt?_addAll hentered
      (p := { p with children := p.children ++ [d.next] })
      (by rw [enterLast, find?_modify, if_pos rfl, hp']; rfl) hlabel rest
    -- What comes after the parent stays as it is while the parent lists its children.
    have hsame : ∀ k, d.next ≤ k → k < (d.add (some q) n).2.next →
        (((d.add (some q) n).2.enterLast q d.next).addAll q rest).find? k =
          (d.add (some q) n).2.find? k := by
      intro k hk hknext
      have hne : k ≠ q := Nat.ne_of_gt (Nat.lt_of_lt_of_le hlt hk)
      rw [find?_addAll (hnext ▸ hknext) hne, enterLast, find?_modify, if_neg (Ne.symm hne)]
    have hchild := hsame d.next (Nat.le_refl _) (lt_next_of_find? hm)
    have hunder : ∀ k, (d.add (some q) n).2.Under d.next k →
        (((d.add (some q) n).2.enterLast q d.next).addAll q rest).find? k =
          (d.add (some q) n).2.find? k := fun k hk =>
      hsame k (hadd.bounds_of_under (lt_next_of_find? hm) hk).1
        (hadd.bounds_of_under (lt_next_of_find? hm) hk).2
    rw [addAll_cons]
    refine ⟨d.next :: handles, ?_, List.forall_mem_cons.mpr ⟨?_, hlive⟩, .cons ?_ htrees⟩
    · rw [hfind, List.append_assoc, List.singleton_append]
    · rw [isRemoved, hchild, hm]
      exact hmremoved
    · rw [hadd.nodeAt?_congr (lt_next_of_find? hm) hunder, htree]

end

theorem linked_ofNode (n : Node) : (ofNode n).Linked [0] :=
  linked_add linked_empty (iff_of_true rfl rfl) nofun n

theorem handle_root (hd : d.Linked loose) : d.root.handle = 0 := by
  rw [root]
  cases hnodes : d.nodes with
  | nil => rfl
  | cons m rest => exact hd.handle_eq (h := 0) (by rw [find?, hnodes]; rfl)

/-- A draft stands for the tree of its first node. -/
theorem Linked.toNode_eq (hd : d.Linked loose) {n : Node} (hn : d.nodeAt? 0 = some n) :
    d.toNode = n := by
  rw [toNode, handle_root hd, hn, Option.getD_some]

/-- A fresh draft is the style sheet it was made of. -/
theorem toNode_ofNode (n : Node) : (ofNode n).toNode = n :=
  (linked_ofNode n).toNode_eq (nodeAt?_add linked_empty (iff_of_true rfl rfl) nofun n)

/-! ## Copying trees -/

/-- Trees are copied one after the other by adding them. -/
theorem foldlM_copy? {cs : List Handle} {ns : List Node}
    (hcopy : List.Forall₂ (fun c n => ∀ e, d.Begins e → ∀ parent,
      e.copy? parent c = some (e.add parent n)) cs ns)
    (hq : d.next ≤ q) (he : d.Begins e) :
    cs.foldlM (fun e child => do
      let (copy, e) ← e.copy? (some q) child
      return e.enterLast q copy) e = some (e.addAll q ns) := by
  induction hcopy generalizing e with
  | nil => rw [addAll]; rfl
  | cons hc _ ih =>
    rw [List.foldlM_cons, hc e he, addAll]
    exact ih ((begins_add he _ _).modify hq _)

/-- A tree is copied by adding it once more. -/
theorem Linked.copy?_eq_add (hd : d.Linked loose) (h : Handle) (hlt : h < d.next) :
    ∃ n, d.nodeAt? h = some n ∧
      ∀ e, d.Begins e → ∀ parent, e.copy? parent h = some (e.add parent n) := by
  refine hd.induction (motive := fun h => ∃ n, d.nodeAt? h = some n ∧
    ∀ e, d.Begins e → ∀ parent, e.copy? parent h = some (e.add parent n))
    (fun h m hm ih => ?_) h hlt
  have hcopy : ∀ {e}, d.Begins e → ∀ parent, e.copy? parent h = do
      let copied ← (d.liveChildren m).foldlM (fun e' child => do
        let (copy, e') ← e'.copy? (some e.next) child
        return e'.enterLast e.next copy) (e.push m.label parent)
      return (e.next, copied) := by
    intro e he parent
    have hlive : e.liveChildren m = d.liveChildren m := by
      refine List.filter_congr fun c hc => ?_
      rw [isRemoved_congr (he.find?_eq (hd.lt_of_mem hm hc).2)]
    rw [copy?, he.find?_eq (lt_next_of_find? hm), hm, Option.bind_eq_bind, Option.bind_some, hlive]
  cases hlabel : m.label with
  | leaf l =>
    refine ⟨_, nodeAt?_leaf hm hlabel, fun e he parent => ?_⟩
    rw [hcopy he, liveChildren, hd.children_of_leaf hm hlabel, hlabel, add]
    rfl
  | block head =>
    obtain ⟨ns, hns⟩ := exists_forall₂_of_forall fun c hc => ih c (mem_of_mem_liveChildren hc)
    refine ⟨_, nodeAt?_block hm hlabel (hns.imp fun _ _ h => h.1), fun e he parent => ?_⟩
    rw [hcopy he, hlabel, foldlM_copy? (hns.imp fun _ _ h => h.2) he.next_le (he.push _ _), add]
    rfl

end Draft
end VendorPrefixing
