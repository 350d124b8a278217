import VendorPrefixing.Proofs.Draft.Added

/-!
# Drafts through a session

Whatever edits are made of a style sheet, the nodes of its draft keep their handles, and
parents and lists of children agree.  Each edit adds at most one loose node to the row
and has its parent list it in the end.

Main results:

- Theorem `Draft.linked_edited`: the links agree after one edit.
- Theorem `Draft.keeps_edited`: no node gets lost by one edit.
- Theorem `Draft.isSound_of_evolves`: so it is after any number of edits; following the
  links of a draft comes to an end, and what is inserted stands where it was asked for.
-/

namespace VendorPrefixing

/-- One edit of a draft. -/
inductive Draft.Edit
  | insertBefore (before : Handle) (property value : String)
  | setValue (h : Handle) (value : String)
  | removeDeclaration (h : Handle)
  | copyAnimation (h : Handle) (mark : String)
  | removeAnimation (h : Handle)
deriving DecidableEq, Repr

/-- The node that an edit is about. -/
def Draft.Edit.handle : Draft.Edit → Handle
  | insertBefore h _ _ | setValue h _ | removeDeclaration h | copyAnimation h _
  | removeAnimation h => h

namespace Label

variable {label : Label}

/-- An animation under another mark is a block still. -/
theorem eq_leaf_of_withVendor {mark : String} {l : Leaf}
    (hl : label.withVendor mark = .leaf l) : label = .leaf l := by
  cases label with
  | leaf l' => exact hl
  | block head => cases head <;> cases hl

theorem IsRemovable.withVendor (hlabel : label.IsRemovable) (mark : String) :
    (label.withVendor mark).IsRemovable := by
  cases label with
  | leaf l => exact hlabel
  | block head => cases head <;> exact hlabel

/-- A declaration with another value is a declaration still. -/
theorem eq_leaf_of_withValue {value : String} {l : Leaf}
    (hl : label.withValue value = .leaf l) : ∃ l', label = .leaf l' := by
  cases label with
  | leaf l' => exact ⟨l', rfl⟩
  | block head => cases hl

theorem IsRemovable.withValue (hlabel : label.IsRemovable) (value : String) :
    (label.withValue value).IsRemovable := by
  cases label with
  | leaf l => cases l <;> exact hlabel
  | block head => exact hlabel

theorem withValue_withValue (first second : String) :
    (label.withValue first).withValue second = label.withValue second := by
  cases label with
  | leaf l => cases l <;> rfl
  | block head => rfl

theorem exists_eq_withValue (label : Label) : ∃ value, label = label.withValue value := by
  cases label with
  | leaf l =>
    cases l with
    | declaration d => exact ⟨d.value, rfl⟩
    | _ => exact ⟨"", rfl⟩
  | block head => exact ⟨"", rfl⟩

end Label

/-- The same node after some edits: a declaration may have another value, and there may be
more nodes inside. -/
structure DraftNode.Keeps (m m' : DraftNode) : Prop where
  handle_eq : m'.handle = m.handle
  parent_eq : m'.parent = m.parent
  label : ∃ value, m'.label = m.label.withValue value
  children : m.children.Sublist m'.children
  removed : m.removed = true → m'.removed = true

theorem DraftNode.Keeps.refl (m : DraftNode) : m.Keeps m where
  handle_eq := rfl
  parent_eq := rfl
  label := m.label.exists_eq_withValue
  children := List.Sublist.refl _
  removed := id

theorem DraftNode.Keeps.trans {m m' m'' : DraftNode} (h : m.Keeps m') (h' : m'.Keeps m'') :
    m.Keeps m'' where
  handle_eq := h'.handle_eq.trans h.handle_eq
  parent_eq := h'.parent_eq.trans h.parent_eq
  label := by
    obtain ⟨first, hfirst⟩ := h.label
    obtain ⟨second, hsecond⟩ := h'.label
    exact ⟨second, by rw [hsecond, hfirst, Label.withValue_withValue]⟩
  children := h.children.trans h'.children
  removed := h'.removed ∘ h.removed

namespace Draft

/-- The draft after an edit.  An edit that is refused changes nothing. -/
def edited (d : Draft) : Edit → Draft
  | .insertBefore before property value =>
    ((d.insertBefore before property value).map (·.2)).getD d
  | .setValue h value => d.setValue h value
  | .removeDeclaration h => d.removeDeclaration h
  | .copyAnimation h mark => ((d.copyAnimation h mark).map (·.2)).getD d
  | .removeAnimation h => d.removeAnimation h

/-- Any number of edits lead from one draft to the other, each about a node that is there
at the time. -/
inductive Evolves (d : Draft) : Draft → Prop
  | refl : Evolves d d
  | edit {e : Draft} {x : Edit} : Evolves d e → x.handle < e.next → Evolves d (e.edited x)

/-- Every handle keeps its node. -/
def Keeps (d e : Draft) : Prop :=
  ∀ h m, d.find? h = some m → ∃ m', e.find? h = some m' ∧ m.Keeps m'

/-- The nodes form a tree below the first of them. -/
structure IsSound (d : Draft) : Prop where
  handle_eq : ∀ h m, d.find? h = some m → m.handle = h
  root : ∃ m, d.find? 0 = some m ∧ m.parent = none
  /-- A node that is not the root is listed once by its parent, which comes before it, and
  by no other node. -/
  listed : ∀ h m, d.find? h = some m → h ≠ 0 → ∃ q p, m.parent = some q ∧ q < h ∧
    d.find? q = some p ∧ p.children.count h = 1 ∧
      ∀ q' p', d.find? q' = some p' → h ∈ p'.children → q' = q
  children : ∀ q p c, d.find? q = some p → c ∈ p.children → q < c ∧ c < d.next
  children_of_leaf : ∀ h m l, d.find? h = some m → m.label = .leaf l → m.children = []
  isRemovable : ∀ h m, d.find? h = some m → m.removed = true → m.label.IsRemovable

/-- Following the links of a draft comes to an end, wherever one copies from it. -/
structure Ends (d : Draft) : Prop where
  toNode : ∃ n, d.nodeAt? d.root.handle = some n
  declarations : ∃ places, d.declarationsIn? none d.root.handle = some places
  animations : ∃ places, d.animationsIn? d.root.handle = some places
  copies : ∀ h, h < d.next → ∀ parent, ∃ copied, d.copy? parent h = some copied

/-- In the list that `before` is in, `new` has come to stand directly in front of it. -/
def PutsBefore (d e : Draft) (before new : Handle) : Prop :=
  ∃ m q p p' front back, d.find? before = some m ∧ m.parent = some q ∧
    d.find? q = some p ∧ p.children = front ++ before :: back ∧
    e.find? q = some p' ∧ p'.children = front ++ new :: before :: back

/-- Whatever is inserted comes to stand directly in front of the node that was named. -/
structure InsertsBefore (d : Draft) : Prop where
  declaration : ∀ before property value new e,
    d.insertBefore before property value = some (new, e) → d.PutsBefore e before new
  animation : ∀ h mark new e, d.copyAnimation h mark = some (new, e) → d.PutsBefore e h new

variable {d e : Draft} {loose : List Handle} {h k q before new : Handle} {m p : DraftNode}

/-! ## Lists of children -/

theorem placedBefore_perm (before new : Handle) (handles : List Handle) :
    (placedBefore before new handles).Perm (new :: handles) := by
  refine List.perm_insertIdx new handles ?_
  cases hidx : handles.idxOf? before with
  | none => exact Nat.le_refl _
  | some i =>
    obtain ⟨hlt, -⟩ := List.idxOf?_eq_some_iff.mp hidx
    exact Nat.le_of_lt hlt

theorem placedBefore_append {front : List Handle} (hfront : before ∉ front) (new : Handle)
    (back : List Handle) :
    placedBefore before new (front ++ before :: back) = front ++ new :: before :: back := by
  have hidx : (front ++ before :: back).idxOf? before = some front.length := by
    rw [List.idxOf?_eq_some_iff]
    refine ⟨by simp, by simp, fun j hj heq => hfront ?_⟩
    rw [List.getElem_append_left hj] at heq
    exact heq ▸ List.getElem_mem hj
  have hinsert : ∀ xs ys : List Handle, (xs ++ ys).insertIdx xs.length new = xs ++ new :: ys := by
    intro xs ys
    induction xs with
    | nil => rfl
    | cons x xs ih => rw [List.cons_append, List.length_cons, List.insertIdx_succ_cons, ih]; rfl
  rw [placedBefore, hidx, Option.getD_some, hinsert]

theorem sublist_placedBefore (before new : Handle) (handles : List Handle) :
    handles.Sublist (placedBefore before new handles) :=
  List.sublist_insertIdx handles _ new

/-! ## Insertions -/

/-- A tree has joined the row as a child of `q` that is not listed yet. -/
structure Joins (d : Draft) (q : Handle) (e : Draft) : Prop where
  begins : d.Begins e
  linked : e.Linked [d.next, 0]
  parent_eq : ∃ m, e.find? d.next = some m ∧ m.parent = some q

/-- Any tree can join below a node of a draft, and be marked for a vendor then. -/
theorem Linked.joins_add (hd : d.Linked [0]) (hq : q < d.next) (n : Node) :
    d.Joins q (d.add (some q) n).2 where
  begins := begins_add (Begins.refl d) _ n
  linked := by
    have hsome : d.next ≠ 0 := Nat.ne_of_gt (Nat.lt_of_le_of_lt (Nat.zero_le q) hq)
    have hroot : some q = none ↔ d.next = 0 := iff_of_false (Option.some_ne_none q) hsome
    exact linked_add hd hroot (fun _ heq => Option.some.inj heq ▸ hq) n
  parent_eq := by
    obtain ⟨m, hm, hparent, -⟩ := exists_find?_add d (some q) n
    exact ⟨m, hm, hparent⟩

theorem Joins.withVendor (hj : d.Joins q e) (mark : String) :
    d.Joins q (e.modify d.next fun m => { m with label := m.label.withVendor mark }) where
  begins := hj.begins.modify (Nat.le_refl _) _
  linked := hj.linked.modify (fun _ => rfl) (fun _ => rfl) (fun _ => rfl)
    (fun _ l hl => ⟨l, Label.eq_leaf_of_withVendor hl⟩)
    (fun _ hlabel hremoved => Label.IsRemovable.withVendor (hlabel hremoved) mark)
  parent_eq := by
    obtain ⟨m, hm, hparent⟩ := hj.parent_eq
    exact ⟨{ m with label := m.label.withVendor mark }, by
      rw [find?_modify, if_pos rfl, hm, Option.map_some], hparent⟩

/-- An insertion lets a tree join below the parent of the node that was named, and has it
listed there in front of that node. -/
structure Inserts (d : Draft) (before new : Handle) (e : Draft) : Prop where
  new_eq : new = d.next
  joins : ∃ m q joined, d.find? before = some m ∧ m.parent = some q ∧ d.Joins q joined ∧
    e = joined.enterBefore q before d.next

theorem Linked.inserts_of_insertBefore (hd : d.Linked [0]) {property value : String}
    (hnew : d.insertBefore before property value = some (new, e)) : d.Inserts before new e := by
  simp only [insertBefore, Option.bind_eq_bind, Option.bind_eq_some_iff] at hnew
  obtain ⟨m, hm, q, hparent, hnew⟩ := hnew
  split at hnew
  · cases hnew
  · cases hnew
    obtain ⟨p, hp⟩ := hd.exists_parent hm hparent
    exact ⟨rfl, m, q, _, hm, hparent, hd.joins_add (lt_next_of_find? hp) (.leaf _), rfl⟩

theorem Linked.inserts_of_copyAnimation (hd : d.Linked [0]) {mark : String}
    (hnew : d.copyAnimation h mark = some (new, e)) : d.Inserts h new e := by
  simp only [copyAnimation, Option.bind_eq_bind, Option.bind_eq_some_iff] at hnew
  obtain ⟨m, hm, animation, -, hnew⟩ := hnew
  split at hnew
  · cases hnew
  · obtain ⟨q, hparent, hnew⟩ := Option.bind_eq_some_iff.mp hnew
    obtain ⟨p, hp⟩ := hd.exists_parent hm hparent
    obtain ⟨n, -, hcopy⟩ := hd.copy?_eq_add h (lt_next_of_find? hm)
    rw [hcopy d (Begins.refl d)] at hnew
    cases hnew
    have hjoins := (hd.joins_add (lt_next_of_find? hp) n).withVendor mark
    rw [fst_add]
    exact ⟨rfl, m, q, _, hm, hparent, hjoins, rfl⟩

namespace Inserts

variable (hi : d.Inserts before new e)
include hi

/-- The parent of the node that was named, before and after. -/
theorem exists_parent (hd : d.Linked [0]) : ∃ m q p front back, d.find? before = some m ∧
    m.parent = some q ∧ d.find? q = some p ∧ p.children = front ++ before :: back ∧
    e.find? q = some { p with children := front ++ new :: before :: back } := by
  obtain ⟨rfl, m, q, joined, hm, hparent, hj, rfl⟩ := hi
  obtain ⟨p, hp⟩ := hd.exists_parent hm hparent
  have hcount := hd.count_children hm hparent hp
  obtain ⟨front, back, heq, hfront⟩ :=
    List.eq_append_cons_of_mem (List.count_pos_iff.mp (hcount ▸ Nat.one_pos))
  refine ⟨m, q, p, front, back, hm, hparent, hp, heq, ?_⟩
  rw [enterBefore, find?_modify, if_pos rfl, hj.begins.find?_eq (lt_next_of_find? hp), hp,
    Option.map_some, heq, placedBefore_append hfront]

/-- The links agree again once the tree is listed. -/
theorem linked (hd : d.Linked [0]) : e.Linked [0] := by
  obtain ⟨m₀, q₀, p, front, back, hm₀, hparent₀, hp, heq, -⟩ := hi.exists_parent hd
  obtain ⟨rfl, m, q, joined, hm, hparent, hj, rfl⟩ := hi
  cases hm.symm.trans hm₀
  cases hparent.symm.trans hparent₀
  obtain ⟨m', hm', hparent'⟩ := hj.parent_eq
  have hnew : d.next ∉ [0] := fun hmem =>
    Nat.not_lt_zero _ (List.mem_singleton.mp hmem ▸ lt_next_of_find? hp)
  have hlisted : before ∈ p.children := by simp [heq]
  exact hj.linked.enter hnew hm' hparent'
    ((hj.begins.find?_eq (lt_next_of_find? hp)).trans hp) (hd.exists_head_of_mem hp hlisted)
    (placedBefore before d.next) (placedBefore_perm before d.next p.children)

/-- The new node stands directly in front of the one that was named. -/
theorem putsBefore (hd : d.Linked [0]) : d.PutsBefore e before new := by
  obtain ⟨m, q, p, front, back, hm, hparent, hp, heq, hafter⟩ := hi.exists_parent hd
  exact ⟨m, q, p, _, front, back, hm, hparent, hp, heq, hafter, rfl⟩

/-- The nodes that were there keep their handles. -/
theorem keeps : d.Keeps e := by
  obtain ⟨rfl, m, q, joined, hm, hparent, hj, rfl⟩ := hi
  intro k n hn
  have hjoined : joined.find? k = some n := (hj.begins.find?_eq (lt_next_of_find? hn)).trans hn
  rw [enterBefore, find?_modify, hjoined]
  split
  · exact ⟨_, rfl, rfl, rfl, n.label.exists_eq_withValue, sublist_placedBefore _ _ _, id⟩
  · exact ⟨n, rfl, .refl n⟩

end Inserts

/-! ## Edits -/

/-- A mark on a node that may bear it is no link. -/
theorem Linked.remove (hd : d.Linked loose) (h : Handle) (test : Label → Bool)
    (htest : ∀ label, test label = true → label.IsRemovable) :
    (d.modify h fun m => if test m.label then { m with removed := true } else m).Linked
      loose := by
  refine hd.modify (fun m => ?_) (fun m => ?_) (fun m => ?_) (fun m l hl => ?_)
    (fun m hlabel hremoved => ?_)
  · split <;> rfl
  · split <;> rfl
  · split <;> rfl
  · split at hl <;> exact ⟨l, hl⟩
  · by_cases hm : test m.label = true
    · rw [if_pos hm]
      exact htest m.label hm
    · rw [if_neg hm] at hremoved ⊢
      exact hlabel hremoved

/-- The links agree after one edit. -/
theorem linked_edited (hd : d.Linked [0]) (x : Edit) : (d.edited x).Linked [0] := by
  cases x with
  | insertBefore before property value =>
    rw [edited]
    cases hnew : d.insertBefore before property value with
    | none => exact hd
    | some pair => exact (hd.inserts_of_insertBefore hnew).linked hd
  | setValue h value =>
    exact hd.modify (fun _ => rfl) (fun _ => rfl) (fun _ => rfl)
      (fun _ _ => Label.eq_leaf_of_withValue)
      (fun _ hlabel hremoved => Label.IsRemovable.withValue (hlabel hremoved) value)
  | removeDeclaration h => exact hd.remove h (·.declaration?.isSome) fun _ => .inl
  | copyAnimation h mark =>
    rw [edited]
    cases hnew : d.copyAnimation h mark with
    | none => exact hd
    | some pair => exact (hd.inserts_of_copyAnimation hnew).linked hd
  | removeAnimation h => exact hd.remove h (·.animation?.isSome) fun _ => .inr

theorem keeps_modify {change : DraftNode → DraftNode} (hchange : ∀ m : DraftNode, m.Keeps (change m)) :
    d.Keeps (d.modify h change) := by
  intro k m hm
  rw [find?_modify, hm]
  split
  · exact ⟨change m, rfl, hchange m⟩
  · exact ⟨m, rfl, .refl m⟩

theorem keeps_remove (h : Handle) (test : Label → Bool) :
    d.Keeps (d.modify h fun m => if test m.label then { m with removed := true } else m) := by
  refine keeps_modify fun m => ?_
  split
  · exact ⟨rfl, rfl, m.label.exists_eq_withValue, List.Sublist.refl _, fun _ => rfl⟩
  · exact .refl m

theorem Keeps.refl (d : Draft) : d.Keeps d :=
  fun _ m hm => ⟨m, hm, .refl m⟩

theorem Keeps.trans {f : Draft} (hde : d.Keeps e) (hef : e.Keeps f) : d.Keeps f := by
  intro h m hm
  obtain ⟨m', hm', hkeeps⟩ := hde h m hm
  obtain ⟨m'', hm'', hkeeps'⟩ := hef h m' hm'
  exact ⟨m'', hm'', hkeeps.trans hkeeps'⟩

/-- No node gets lost by one edit. -/
theorem keeps_edited (hd : d.Linked [0]) (x : Edit) : d.Keeps (d.edited x) := by
  cases x with
  | insertBefore before property value =>
    rw [edited]
    cases hnew : d.insertBefore before property value with
    | none => exact .refl d
    | some pair => exact (hd.inserts_of_insertBefore hnew).keeps
  | setValue h value =>
    exact keeps_modify fun m => ⟨rfl, rfl, ⟨value, rfl⟩, List.Sublist.refl _, id⟩
  | removeDeclaration h => exact keeps_remove h (·.declaration?.isSome)
  | copyAnimation h mark =>
    rw [edited]
    cases hnew : d.copyAnimation h mark with
    | none => exact .refl d
    | some pair => exact (hd.inserts_of_copyAnimation hnew).keeps
  | removeAnimation h => exact keeps_remove h (·.animation?.isSome)

/-! ## Any number of edits -/

theorem Evolves.linked (he : d.Evolves e) (hd : d.Linked [0]) : e.Linked [0] := by
  induction he with
  | refl => exact hd
  | edit _ _ ih => exact linked_edited ih _

theorem Evolves.keeps (he : d.Evolves e) (hd : d.Linked [0]) : d.Keeps e := by
  induction he with
  | refl => exact .refl d
  | edit he _ ih => exact ih.trans (keeps_edited (he.linked hd) _)

namespace Linked

/-- Links that agree make a tree. -/
theorem isSound (hd : d.Linked [0]) : d.IsSound where
  handle_eq _ _ := hd.handle_eq
  root := by
    obtain ⟨m, hm⟩ := Option.isSome_iff_exists.mp
      (isSome_find?_iff.mpr (hd.lt_next_of_loose List.mem_cons_self))
    exact ⟨m, hm, (hd.parent_eq_none_iff hm).mpr rfl⟩
  listed h m hm hroot := by
    obtain ⟨q, hparent⟩ := Option.ne_none_iff_exists'.mp (mt (hd.parent_eq_none_iff hm).mp hroot)
    obtain ⟨p, hp⟩ := hd.exists_parent hm hparent
    refine ⟨q, p, hparent, hd.parent_lt hm hparent, hp, hd.count_children hm hparent hp,
      fun q' p' hp' hmem => ?_⟩
    obtain ⟨m', hm', hparent'⟩ := hd.parent_of_mem hp' hmem
    cases hm.symm.trans hm'
    exact Option.some.inj (hparent'.symm.trans hparent)
  children _ _ _ := hd.lt_of_mem
  children_of_leaf _ _ _ := hd.children_of_leaf
  isRemovable _ _ := hd.isRemovable

/-- Looking for declarations comes to an end, wherever it starts. -/
theorem exists_declarationsIn? (hd : d.Linked loose) (h : Handle) (hlt : h < d.next) :
    ∀ vendor, ∃ places, d.declarationsIn? vendor h = some places := by
  refine hd.induction (motive := fun h => ∀ vendor, ∃ places,
    d.declarationsIn? vendor h = some places) (fun h m hm ih vendor => ?_) h hlt
  rw [declarationsIn?, hm, Option.bind_eq_bind, Option.bind_some]
  refine exists_flatten_mapM fun c hc => ?_
  split
  · exact ⟨_, rfl⟩
  · exact ih c (mem_of_mem_liveChildren hc) _

/-- Looking for animations comes to an end, wherever it starts. -/
theorem exists_animationsIn? (hd : d.Linked loose) (h : Handle) (hlt : h < d.next) :
    ∃ places, d.animationsIn? h = some places := by
  refine hd.induction (motive := fun h => ∃ places, d.animationsIn? h = some places)
    (fun h m hm ih => ?_) h hlt
  rw [animationsIn?, hm, Option.bind_eq_bind, Option.bind_some]
  refine exists_flatten_mapM fun c hc => ?_
  split
  · exact ⟨_, rfl⟩
  · split
    · exact ih c (mem_of_mem_liveChildren hc)
    · exact ⟨[], rfl⟩

theorem ends (hd : d.Linked [0]) : d.Ends := by
  have hroot : 0 < d.next := hd.lt_next_of_loose List.mem_cons_self
  rw [← handle_root hd] at hroot
  refine ⟨hd.exists_nodeAt? _ hroot, hd.exists_declarationsIn? _ hroot none,
    hd.exists_animationsIn? _ hroot, fun h hlt parent => ?_⟩
  obtain ⟨n, -, hcopy⟩ := hd.copy?_eq_add h hlt
  exact ⟨_, hcopy d (Begins.refl d) parent⟩

theorem insertsBefore (hd : d.Linked [0]) : d.InsertsBefore where
  declaration _ _ _ _ _ hnew := (hd.inserts_of_insertBefore hnew).putsBefore hd
  animation _ _ _ _ hnew := (hd.inserts_of_copyAnimation hnew).putsBefore hd

end Linked

/-- Whatever edits were made of a style sheet, its nodes form a tree, and each keeps its
handle from then on.  Following the links comes to an end, and what is inserted stands where
it was asked for. -/
theorem isSound_of_evolves {n : Node} (hd : (ofNode n).Evolves d) (he : d.Evolves e) :
    d.Keeps e ∧ e.IsSound ∧ e.Ends ∧ e.InsertsBefore := by
  have hlinked := hd.linked (linked_ofNode n)
  have hlater := he.linked hlinked
  exact ⟨he.keeps hlinked, hlater.isSound, hlater.ends, hlater.insertsBefore⟩

/-- A rule and an animation. -/
def hyphensAndSpin : Node :=
  .block .sheet [
    .block (.rule ["p"]) [.leaf (.declaration ⟨"hyphens", "auto", .none⟩)],
    .block (.keyframes "spin" none) [
      .block (.frame ["to"]) [.leaf (.declaration ⟨"rotate", "1turn", .none⟩)]]]

/-- The draft after a declaration was inserted and changed, and the one it was made for
was removed, together with the animation. -/
def hyphensWithoutSpin : Draft :=
  ((((ofNode hyphensAndSpin).edited (.insertBefore 2 "-webkit-hyphens" "auto")).edited
    (.setValue 6 "manual")).edited (.removeDeclaration 2)).edited (.removeAnimation 3)

/-- A removed animation can be copied still. -/
theorem isSound_of_evolves_hyphensWithoutSpin :
    (ofNode hyphensAndSpin).Evolves hyphensWithoutSpin ∧
      (hyphensWithoutSpin.find? 1).map (·.children) = some [6, 2] ∧
      hyphensWithoutSpin.isRemoved 2 = true ∧ hyphensWithoutSpin.isRemoved 3 = true ∧
      ∃ e, e = hyphensWithoutSpin.edited (.copyAnimation 3 "webkit") ∧
        hyphensWithoutSpin.Evolves e ∧
        hyphensWithoutSpin.Keeps e ∧ e.IsSound ∧ e.Ends ∧ e.InsertsBefore := by
  have hd : (ofNode hyphensAndSpin).Evolves hyphensWithoutSpin :=
    (((Evolves.refl.edit (by decide)).edit (by decide)).edit (by decide)).edit (by decide)
  have he : hyphensWithoutSpin.Evolves (hyphensWithoutSpin.edited (.copyAnimation 3 "webkit")) :=
    Evolves.refl.edit (by decide)
  exact ⟨hd, rfl, rfl, rfl, _, rfl, he, isSound_of_evolves hd he⟩

end Draft
end VendorPrefixing
