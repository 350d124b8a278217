import VendorPrefixing.Proofs.Draft.Copying

/-!
# Rows of children

Edits of a child of a block put trees in front of it, change it or remove it.  A walk makes
such edits of the children of a block one after the other, and of what is inside of them.  The
row of children falls into those that are done, with the trees that stand there now, and those
that are to come, which are as they were when the walk began.

Main results:

- Theorem `Draft.Inserts.fronts`: an insertion puts its tree in front of a child.
- Theorem `Draft.Row.turn`: an edit of the next child adds to the trees that are there.
- Theorem `Draft.Row.inner`: so does a walk through what is inside of it.
- Theorem `Draft.Passed.trans`: one part of a walk after another.
-/

namespace VendorPrefixing
namespace Draft

/-- In `e` some trees have come to stand in front of the child `c` of `q`, and all else is the
same. -/
structure Fronts (d : Draft) (q c : Handle) (ns : List Node) (e : Draft) : Prop where
  linked : e.Linked [0]
  next_le : d.next ≤ e.next
  block : ∃ p front back new, d.find? q = some p ∧ p.children = front ++ c :: back ∧
    e.find? q = some { p with children := front ++ new ++ c :: back } ∧ e.trees new = ns
  others : ∀ k, k < d.next → k ≠ q → e.find? k = d.find? k

/-- In `e` some trees stand in the place of the child `c` of `q`, and all else is the same. -/
structure Turns (d : Draft) (q c : Handle) (ns : List Node) (e : Draft) : Prop where
  linked : e.Linked [0]
  next_le : d.next ≤ e.next
  block : ∃ p front back new, d.find? q = some p ∧ p.children = front ++ c :: back ∧
    e.find? q = some { p with children := front ++ new ++ c :: back } ∧
    e.trees (new ++ [c]) = ns
  others : ∀ k, k < d.next → k ≠ q → k ≠ c → e.find? k = d.find? k

/-- A walk over `d` has come to `e`, in the middle of the children of `q`: the trees `ns` stand
in the place of those that are `done`, and what is in `rest` is as it was in `d`. -/
structure Row (d e : Draft) (q : Handle) (p : DraftNode) (done rest : List Handle)
    (ns : List Node) : Prop where
  linked : e.Linked [0]
  next_le : d.next ≤ e.next
  find?_eq : e.find? q = some { p with children := done ++ rest }
  trees_eq : e.trees done = ns
  untouched : ∀ c ∈ rest, ∀ k, d.Under c k → e.find? k = d.find? k

variable {d e f : Draft} {loose : List Handle} {c h k q new : Handle} {m p : DraftNode}
  {ns ms : List Node} {done rest : List Handle}

/-- What is listed for the children of a node that have not been removed, child by child. -/
theorem flatten_mapM_liveChildren {α : Type} {list : Handle → Option (List α)}
    {listed : Handle → List α} (hgone : ∀ c, d.isRemoved c = true → listed c = [])
    (hlive : ∀ c ∈ d.liveChildren m, list c = some (listed c)) : (do
      let found ← (d.liveChildren m).mapM list
      return found.flatten) = some (m.children.flatMap listed) := by
  have hall : ∀ cs : List Handle,
      (cs.filter (!d.isRemoved ·)).flatMap listed = cs.flatMap listed := by
    intro cs
    induction cs with
    | nil => rfl
    | cons c cs ih =>
      rw [List.flatMap_cons, ← ih]
      cases hc : d.isRemoved c with
      | true => simp [hc, hgone c hc]
      | false => simp [hc]
  rw [mapM_eq_some_of_forall₂ (List.forall₂_map_right_iff.mpr (List.forall₂_same.mpr hlive)),
    ← hall m.children]
  rfl

/-! ## Edits of one child -/

section Child

variable (hd : d.Linked [0]) (hm : d.find? c = some m) (hparent : m.parent = some q)
include hd hm hparent

theorem Fronts.refl : d.Fronts q c [] d where
  linked := hd
  next_le := Nat.le_refl _
  block := by
    obtain ⟨p, hp⟩ := hd.exists_parent hm hparent
    have hcount := hd.count_children hm hparent hp
    obtain ⟨front, back, heq⟩ := List.append_of_mem (List.count_pos_iff.mp (hcount ▸ Nat.one_pos))
    exact ⟨p, front, back, [], hp, heq, by rw [List.append_nil, ← heq, hp], rfl⟩
  others _ _ _ := rfl

/-- An insertion puts its tree in front of a child. -/
theorem Inserts.fronts (hi : d.Inserts c new e) : d.Fronts q c (e.trees [new]) e where
  linked := hi.linked hd
  next_le := by
    obtain ⟨rfl, m', q', joined, -, -, hj, rfl⟩ := hi
    rw [enterBefore, next_modify]
    exact hj.begins.next_le
  block := by
    obtain ⟨m', q', p, front, back, hm', hparent', hp, heq, hafter⟩ := hi.exists_parent hd
    cases hm.symm.trans hm'
    cases hparent.symm.trans hparent'
    exact ⟨p, front, back, [new], hp, heq, by simpa using hafter, rfl⟩
  others _ hlt hne := hi.find?_of_ne hm hparent hlt hne

/-- The child stays as it is. -/
theorem Fronts.find?_eq (h : d.Fronts q c ns e) : e.find? c = some m := by
  rw [h.others c (lt_next_of_find? hm) (Nat.ne_of_gt (hd.parent_lt hm hparent)), hm]

/-- More trees can be put in front of a child. -/
theorem Fronts.trans (h : d.Fronts q c ns e) (h' : e.Fronts q c ms f) :
    d.Fronts q c (ns ++ ms) f where
  linked := h'.linked
  next_le := Nat.le_trans h.next_le h'.next_le
  block := by
    obtain ⟨p, front, back, new, hp, heq, hafter, hnew⟩ := h.block
    obtain ⟨p', front', back', new', hp', heq', hafter', hnew'⟩ := h'.block
    cases hafter.symm.trans hp'
    have hchild := h.find?_eq hd hm hparent
    obtain ⟨rfl, rfl⟩ := (append_cons_inj_of_not_mem
      (h.linked.not_mem_siblings hchild hparent hafter heq').2
      (h.linked.not_mem_siblings hchild hparent hafter rfl).2).mp heq'.symm
    have hsame : f.trees new = e.trees new :=
      h.linked.trees_congr_of_children hafter (by simp) fun k hk hlt =>
        h'.others k hlt (Nat.ne_of_gt hk)
    refine ⟨p, front, _, new ++ new', hp, heq, ?_, ?_⟩
    · rw [hafter', List.append_assoc front new new']
    · rw [trees_append, hsame, hnew, hnew']
  others k hlt hne := (h'.others k (Nat.lt_of_lt_of_le hlt h.next_le) hne).trans (h.others k hlt hne)

omit hm hparent in
/-- What is put in front of a child leaves it in its place. -/
theorem Fronts.turns (h : d.Fronts q c ns e) : d.Turns q c (ns ++ d.trees [c]) e where
  linked := h.linked
  next_le := h.next_le
  block := by
    obtain ⟨p, front, back, new, hp, heq, hafter, hnew⟩ := h.block
    have hsame : e.trees [c] = d.trees [c] :=
      hd.trees_congr_of_children hp (by simp [heq]) fun k hk hlt =>
        h.others k hlt (Nat.ne_of_gt hk)
    exact ⟨p, front, back, new, hp, heq, hafter, by rw [trees_append, hnew, hsame]⟩
  others k hlt hne _ := h.others k hlt hne

/-- The child itself can be changed afterwards. -/
theorem Fronts.turns_modify (h : d.Fronts q c ns e) (change : DraftNode → DraftNode)
    (he : (e.modify c change).Linked [0]) :
    d.Turns q c (ns ++ (e.modify c change).trees [c]) (e.modify c change) where
  linked := he
  next_le := by
    rw [next_modify]
    exact h.next_le
  block := by
    obtain ⟨p, front, back, new, hp, heq, hafter, hnew⟩ := h.block
    have hchild := h.find?_eq hd hm hparent
    have hne : c ≠ q := Nat.ne_of_gt (hd.parent_lt hm hparent)
    have hsame : (e.modify c change).trees new = e.trees new := by
      refine h.linked.trees_congr (fun j hj => ?_) fun j hj k hk => ?_
      · exact (h.linked.lt_of_mem hafter (by simp [hj])).2
      · have hother : j ≠ c := fun hjc =>
          (h.linked.not_mem_siblings hchild hparent hafter rfl).1 (by simp [← hjc, hj])
        have hunder : ¬ e.Under c k := h.linked.not_under_of_sibling hchild hparent hafter
          (c := j) (by simp [hj]) hother hk
        have hkc : c ≠ k := fun heq => hunder (heq ▸ .self)
        rw [find?_modify, if_neg hkc]
    refine ⟨p, front, back, new, hp, heq, ?_, by rw [trees_append, hsame, hnew]⟩
    rw [find?_modify, if_neg hne, hafter]
  others k hlt hne hchild := by
    rw [find?_modify, if_neg (Ne.symm hchild), h.others k hlt hne]

end Child

/-! ## The row -/

/-- Where nodes stay as they are, the same ones are under each other. -/
theorem Under.of_same (hk : d.Under c k) (hsame : ∀ k, d.Under c k → e.find? k = d.find? k) :
    e.Under c k := by
  induction hk with
  | self => exact .self
  | child hq hm hparent ih => exact .child ih ((hsame _ (.child hq hm hparent)).trans hm) hparent

namespace Row

/-- The row before a walk. -/
theorem start (he : e.Linked [0]) (hle : d.next ≤ e.next) (hp : d.find? q = some p)
    (hsame : ∀ k, d.Under q k → e.find? k = d.find? k) (hd : d.Linked [0]) :
    Row d e q p [] p.children [] where
  linked := he
  next_le := hle
  find?_eq := (hsame q .self).trans hp
  trees_eq := rfl
  untouched _ hc k hk := hsame k (hd.under_of_mem hp hc hk)

variable (hd : d.Linked [0]) (hp : d.find? q = some p)

section

variable (hrow : Row d e q p done (c :: rest) ns)
include hrow

/-- The next child is as it was. -/
theorem child_eq : e.find? c = d.find? c :=
  hrow.untouched c List.mem_cons_self c .self

include hd hp in
/-- The nodes under the next child are not under those that are done, nor are they the block. -/
theorem not_under_done (hc : c ∈ p.children) (hk : d.Under c k) :
    k ≠ q ∧ ∀ j ∈ done, ¬ e.Under j k := by
  obtain ⟨m, hm, hparent⟩ := hd.parent_of_mem hp hc
  have hem : e.find? c = some m := hrow.child_eq.trans hm
  have hek : e.Under c k := hk.of_same (hrow.untouched c List.mem_cons_self)
  constructor
  · rintro rfl
    have hle := (hd.bounds_of_under (lt_next_of_find? hm) hk).1
    exact Nat.not_lt_of_le hle (hd.parent_lt hm hparent)
  · intro j hj hjk
    have hne : j ≠ c := fun heq =>
      (hrow.linked.not_mem_siblings hem hparent hrow.find?_eq rfl).1 (heq ▸ hj)
    exact hrow.linked.not_under_of_sibling hem hparent hrow.find?_eq
      (List.mem_append_left _ hj) hne hjk hek

include hd hp in
/-- The nodes under later children are not under the next one, nor are they the block. -/
theorem not_under_child (hsub : c :: rest ⊆ p.children) {j : Handle} (hj : j ∈ rest)
    (hk : d.Under j k) : k ≠ q ∧ ¬ d.Under c k := by
  obtain ⟨m, hm, hparent⟩ := hd.parent_of_mem hp (hsub List.mem_cons_self)
  obtain ⟨mj, hmj, hparentj⟩ := hd.parent_of_mem hp (hsub (List.mem_cons_of_mem c hj))
  have hem : e.find? c = some m := hrow.child_eq.trans hm
  constructor
  · rintro rfl
    have hle := (hd.bounds_of_under (lt_next_of_find? hmj) hk).1
    exact Nat.not_lt_of_le hle (hd.parent_lt hmj hparentj)
  · have hne : j ≠ c := fun heq =>
      (hrow.linked.not_mem_siblings hem hparent hrow.find?_eq rfl).2 (heq ▸ hj)
    exact hd.not_under_of_sibling hm hparent hp (hsub (List.mem_cons_of_mem c hj)) hne hk

include hd hp in
/-- An edit of the next child adds to the trees that are there. -/
theorem turn (hsub : c :: rest ⊆ p.children) (ht : e.Turns q c ms f) :
    ∃ new, Row d f q p (done ++ new ++ [c]) rest (ns ++ ms) := by
  obtain ⟨m, hm, hparent⟩ := hd.parent_of_mem hp (hsub List.mem_cons_self)
  have hem : e.find? c = some m := hrow.child_eq.trans hm
  obtain ⟨p', front, back, new, hp', heq, hafter, hnew⟩ := ht.block
  cases hrow.find?_eq.symm.trans hp'
  obtain ⟨rfl, rfl⟩ := (append_cons_inj_of_not_mem
    (hrow.linked.not_mem_siblings hem hparent hrow.find?_eq rfl).2
    (hrow.linked.not_mem_siblings hem hparent hrow.find?_eq heq).2).mp heq
  have hdone : f.trees done = e.trees done := by
    refine hrow.linked.trees_congr (fun j hj => ?_) fun j hj k hk => ?_
    · exact (hrow.linked.lt_of_mem hrow.find?_eq (by simp [hj])).2
    · have hlt := hrow.linked.lt_of_mem hrow.find?_eq (k := j) (by simp [hj])
      have hbounds := hrow.linked.bounds_of_under hlt.2 hk
      refine ht.others k hbounds.2 (Nat.ne_of_gt (Nat.lt_of_lt_of_le hlt.1 hbounds.1)) ?_
      rintro rfl
      exact (hrow.not_under_done hd hp (hsub List.mem_cons_self) .self).2 j hj hk
  refine ⟨new, ht.linked, Nat.le_trans hrow.next_le ht.next_le, ?_, ?_, fun j hj k hk => ?_⟩
  · simpa using hafter
  · rw [List.append_assoc, trees_append, hdone, hrow.trees_eq, hnew]
  · obtain ⟨hne, hunder⟩ := hrow.not_under_child hd hp hsub hj hk
    have hlt := hd.lt_of_mem hp (hsub (List.mem_cons_of_mem c hj))
    have hlater := Nat.lt_of_lt_of_le (hd.bounds_of_under hlt.2 hk).2 hrow.next_le
    rw [ht.others k hlater hne fun heq => hunder (heq ▸ .self)]
    exact hrow.untouched j (List.mem_cons_of_mem c hj) k hk

include hd hp in
/-- What changes inside of the next child only changes the tree of that child. -/
theorem inner (hsub : c :: rest ⊆ p.children) (hf : f.Linked [0]) (hle : e.next ≤ f.next)
    (hsame : ∀ k, k < e.next → ¬ d.Under c k → f.find? k = e.find? k) :
    Row d f q p (done ++ [c]) rest (ns ++ f.trees [c]) := by
  have hchild := hsub List.mem_cons_self
  have hblock : ¬ d.Under c q := fun hk => (hrow.not_under_done hd hp hchild hk).1 rfl
  have hdone : f.trees done = e.trees done := by
    refine hrow.linked.trees_congr (fun j hj => ?_) fun j hj k hk => ?_
    · exact (hrow.linked.lt_of_mem hrow.find?_eq (by simp [hj])).2
    · have hlt := hrow.linked.lt_of_mem hrow.find?_eq (k := j) (by simp [hj])
      exact hsame k (hrow.linked.bounds_of_under hlt.2 hk).2 fun hck =>
        (hrow.not_under_done hd hp hchild hck).2 j hj hk
  refine ⟨hf, Nat.le_trans hrow.next_le hle, ?_, ?_, fun j hj k hk => ?_⟩
  · rw [hsame q (lt_next_of_find? hrow.find?_eq) hblock, hrow.find?_eq]
    simp
  · rw [trees_append, hdone, hrow.trees_eq]
  · have hlt := hd.lt_of_mem hp (hsub (List.mem_cons_of_mem c hj))
    have hlater := Nat.lt_of_lt_of_le (hd.bounds_of_under hlt.2 hk).2 hrow.next_le
    rw [hsame k hlater (hrow.not_under_child hd hp hsub hj hk).2]
    exact hrow.untouched j (List.mem_cons_of_mem c hj) k hk

include hd hp in
/-- A child that is passed over keeps its tree. -/
theorem pass (hsub : c :: rest ⊆ p.children) :
    Row d e q p (done ++ [c]) rest (ns ++ d.trees [c]) := by
  have hsame : e.trees [c] = d.trees [c] := by
    refine hd.trees_congr (fun j hj => ?_) fun j hj => ?_
    · obtain rfl := List.mem_singleton.mp hj
      exact (hd.lt_of_mem hp (hsub List.mem_cons_self)).2
    · obtain rfl := List.mem_singleton.mp hj
      exact hrow.untouched j List.mem_cons_self
  rw [← hsame]
  exact hrow.inner hd hp hsub hrow.linked (Nat.le_refl _) fun _ _ _ => rfl

end

end Row

/-! ## Parts of a walk -/

variable {head : Block} {l : Leaf} {n : Node}

/-- A walk over what was under a node of `d` has led from `e` to `f`: a tree has come to stand at
the node, and nothing else has changed. -/
structure Walked (d e : Draft) (h : Handle) (n : Node) (f : Draft) : Prop where
  linked : f.Linked [0]
  next_le : e.next ≤ f.next
  others : ∀ k, k < e.next → ¬ d.Under h k → f.find? k = e.find? k
  isRemoved_eq : f.isRemoved h = d.isRemoved h
  nodeAt?_eq : f.nodeAt? h = some n

/-- A walk over `d` has led from `e` to `f` and come to `rest` among the children of `q`: the
trees `ns` stand in the place of those before, and nothing outside of `q` has changed. -/
structure Passed (d e : Draft) (q : Handle) (p : DraftNode) (rest : List Handle)
    (ns : List Node) (f : Draft) : Prop where
  row : ∃ done, Row d f q p done rest ns
  next_le : e.next ≤ f.next
  others : ∀ k, k < e.next → ¬ d.Under q k → f.find? k = e.find? k

theorem Walked.of_leaf (he : e.Linked [0]) (hm : d.find? h = some m) (hlabel : m.label = .leaf l)
    (hsame : e.find? h = d.find? h) : Walked d e h (.leaf l) e where
  linked := he
  next_le := Nat.le_refl _
  others _ _ _ := rfl
  isRemoved_eq := isRemoved_congr hsame
  nodeAt?_eq := nodeAt?_leaf (hsame.trans hm) hlabel

/-- Where a tree has come to stand at a node, it stands among those of its block. -/
theorem Walked.trees_eq (h : Walked d e c n f) (hm : d.find? c = some m)
    (hlive : m.removed = false) : f.trees [c] = [n] := by
  have hthere : f.isRemoved c = false := by
    rw [h.isRemoved_eq, isRemoved, hm]
    exact hlive
  simp [trees, hthere, h.nodeAt?_eq]

/-- One part of a walk after another. -/
theorem Passed.trans {g : Draft} {rest' : List Handle} (h : Passed d e q p rest ns f)
    (h' : Passed d f q p rest' ms g) : Passed d e q p rest' ms g where
  row := h'.row
  next_le := Nat.le_trans h.next_le h'.next_le
  others k hlt hk :=
    (h'.others k (Nat.lt_of_lt_of_le hlt h.next_le) hk).trans (h.others k hlt hk)

/-- A walk through all children of a block is one through the block. -/
theorem Passed.walked (h : Passed d e q p [] ns f) (hp : d.find? q = some p)
    (hlabel : p.label = .block head) : Walked d e q (.block head ns) f := by
  obtain ⟨done, hrow⟩ := h.row
  have hnode := hrow.linked.nodeAt?_eq_block hrow.find?_eq hlabel
  rw [List.append_nil, hrow.trees_eq] at hnode
  exact {
    linked := hrow.linked
    next_le := h.next_le
    others := h.others
    isRemoved_eq := by rw [isRemoved, isRemoved, hrow.find?_eq, hp]; rfl
    nodeAt?_eq := hnode }

namespace Row

/-- A walk has passed what is done. -/
theorem passed (hrow : Row d e q p done rest ns) : Passed d e q p rest ns e where
  row := ⟨done, hrow⟩
  next_le := Nat.le_refl _
  others _ _ _ := rfl

variable (hd : d.Linked [0]) (hp : d.find? q = some p) (hsub : c :: rest ⊆ p.children)
  (hrow : Row d e q p done (c :: rest) ns)
include hd hp hsub hrow

/-- An edit of the next child passes it. -/
theorem passed_turn (ht : e.Turns q c ms f) : Passed d e q p rest (ns ++ ms) f where
  row := by
    obtain ⟨new, hnext⟩ := hrow.turn hd hp hsub ht
    exact ⟨_, hnext⟩
  next_le := ht.next_le
  others k hlt hk := by
    obtain ⟨m, hm, hparent⟩ := hd.parent_of_mem hp (hsub List.mem_cons_self)
    exact ht.others k hlt (fun heq => hk (heq ▸ .self)) fun heq => hk (heq ▸ .child .self hm hparent)

/-- A walk through the next child passes it. -/
theorem passed_inside (hm : d.find? c = some m) (hlive : m.removed = false)
    (h : Walked d e c n f) : Passed d e q p rest (ns ++ [n]) f where
  row := by
    have hnext := hrow.inner hd hp hsub h.linked h.next_le h.others
    rw [h.trees_eq hm hlive] at hnext
    exact ⟨_, hnext⟩
  next_le := h.next_le
  others k hlt hk :=
    h.others k hlt fun hunder => hk (hd.under_of_mem hp (hsub List.mem_cons_self) hunder)

end Row

end Draft
end VendorPrefixing
