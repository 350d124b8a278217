import VendorPrefixing.Proofs.Draft.Evolution

/-!
# Trees that are apart

An edit is about one node.  It changes that node or puts a tree in front of it, and then the
block around the node has one more child.  All other nodes stay as they are.  So of two trees of
which neither is inside the other, edits of one leave the other alone.

Main results:

- Theorem `Draft.Linked.find?_edited`: an edit changes the node it is about and the block around
  that node at most.
- Theorem `Draft.Apart.evolves`: nodes that are apart stay apart.
- Theorem `Draft.Apart.independent`: trees that are apart are independent of each other.
-/

namespace VendorPrefixing
namespace Draft

/-- Neither of two nodes is under the other. -/
def Apart (d : Draft) (a b : Handle) : Prop :=
  ¬ d.Under a b ∧ ¬ d.Under b a

/-- However a draft is edited, edits of nodes under `a` leave the tree at `b` as it is, and all
nodes under `b`. -/
def Independent (d : Draft) (a b : Handle) : Prop :=
  ∀ e, d.Evolves e → ∀ x : Edit, e.Under a x.handle →
    (e.edited x).nodeAt? b = e.nodeAt? b ∧
      ∀ k, e.Under b k → (e.edited x).find? k = e.find? k

variable {d e : Draft} {loose : List Handle} {a b h k q before new : Handle} {m p : DraftNode}

/-! ## What an edit leaves alone -/

/-- An insertion changes no node but the parent of the one that was named. -/
theorem Inserts.find?_eq (hi : d.Inserts before new e) (hlt : k < d.next)
    (hparent : ∀ m, d.find? before = some m → m.parent ≠ some k) : e.find? k = d.find? k := by
  obtain ⟨rfl, m, q, joined, hm, hq, hj, rfl⟩ := hi
  have hne : q ≠ k := fun heq => hparent m hm (heq ▸ hq)
  rw [enterBefore, find?_modify, if_neg hne, hj.begins.find?_eq hlt]

/-- The node that was named stays as it is. -/
theorem Inserts.find?_named (hi : d.Inserts before new e) (hd : d.Linked loose)
    (hm : d.find? before = some m) : e.find? before = some m := by
  have hparent : ∀ m', d.find? before = some m' → m'.parent ≠ some before := fun m' hm' hq =>
    Nat.lt_irrefl _ (hd.parent_lt hm' hq)
  exact (hi.find?_eq (lt_next_of_find? hm) hparent).trans hm

/-- An edit changes the node it is about and the block around that node at most. -/
theorem Linked.find?_edited (hd : d.Linked [0]) {x : Edit} (hlt : k < d.next)
    (hne : k ≠ x.handle) (hparent : ∀ m, d.find? x.handle = some m → m.parent ≠ some k) :
    (d.edited x).find? k = d.find? k := by
  have hmodify : ∀ change, (d.modify x.handle change).find? k = d.find? k := fun change => by
    rw [find?_modify, if_neg (Ne.symm hne)]
  cases x with
  | insertBefore before property value =>
    rw [edited]
    cases hnew : d.insertBefore before property value with
    | none => rfl
    | some made => exact (hd.inserts_of_insertBefore hnew).find?_eq hlt hparent
  | copyAnimation h mark =>
    rw [edited]
    cases hnew : d.copyAnimation h mark with
    | none => rfl
    | some made => exact (hd.inserts_of_copyAnimation hnew).find?_eq hlt hparent
  | setValue h value => exact hmodify _
  | removeDeclaration h => exact hmodify _
  | removeAnimation h => exact hmodify _

/-! ## Nodes that are apart -/

/-- The same nodes are under a node later. -/
theorem Keeps.under (hkeeps : d.Keeps e) (he : e.Linked loose) (hk : e.Under a k)
    (hlt : k < d.next) : d.Under a k := by
  induction hk with
  | self => exact .self
  | child _ hm hparent ih =>
    obtain ⟨m₀, hm₀⟩ := Option.isSome_iff_exists.mp (isSome_find?_iff.mpr hlt)
    obtain ⟨m', hm', hsame⟩ := hkeeps _ m₀ hm₀
    cases hm.symm.trans hm'
    have hbefore := Nat.lt_trans (he.parent_lt hm hparent) hlt
    exact .child (ih hbefore) hm₀ (hsame.parent_eq ▸ hparent)

namespace Apart

theorem symm (hab : d.Apart a b) : d.Apart b a :=
  And.symm hab

/-- Two nodes in one block are apart. -/
theorem of_parent (hd : d.Linked loose) {ma mb : DraftNode} (ha : d.find? a = some ma)
    (hb : d.find? b = some mb) (hqa : ma.parent = some q) (hqb : mb.parent = some q)
    (hne : a ≠ b) : d.Apart a b := by
  have hnot : ∀ {a b ma mb}, d.find? a = some ma → d.find? b = some mb → ma.parent = some q →
      mb.parent = some q → a ≠ b → ¬ d.Under a b := by
    intro a b ma mb ha hb hqa hqb hne hunder
    cases hunder with
    | self => exact hne rfl
    | child hq hm hparent =>
      cases hb.symm.trans hm
      cases hqb.symm.trans hparent
      -- The block would come after a node that it comes before.
      have hafter := (hd.bounds_of_under (lt_next_of_find? ha) hq).1
      exact Nat.not_lt_of_le hafter (hd.parent_lt ha hqa)
  exact ⟨hnot ha hb hqa hqb hne, hnot hb ha hqb hqa (Ne.symm hne)⟩

/-- Nodes that are apart stay apart. -/
theorem evolves (hab : d.Apart a b) (hd : d.Linked [0]) (ha : a < d.next) (hb : b < d.next)
    (he : d.Evolves e) : e.Apart a b := by
  have hkeeps := he.keeps hd
  have hlinked := he.linked hd
  exact ⟨fun h => hab.1 (hkeeps.under hlinked h hb), fun h => hab.2 (hkeeps.under hlinked h ha)⟩

/-- An edit of a node leaves trees alone that are apart from it. -/
theorem find?_edited (hab : d.Apart a b) (hd : d.Linked [0]) (hb : b < d.next) {x : Edit}
    (hx : d.Under a x.handle) (hk : d.Under b k) : (d.edited x).find? k = d.find? k := by
  have hnot : ¬ d.Under b x.handle := fun h => (hx.total h).elim hab.1 hab.2
  refine hd.find?_edited (hd.bounds_of_under hb hk).2 (fun heq => hnot (heq ▸ hk)) ?_
  exact fun m hm hparent => hnot (.child hk hm hparent)

/-- Trees that are apart are independent of each other. -/
theorem independent (hab : d.Apart a b) (hd : d.Linked [0]) (ha : a < d.next)
    (hb : b < d.next) : d.Independent a b := by
  intro e he x hx
  have hlinked := he.linked hd
  obtain ⟨mb, hmb⟩ := Option.isSome_iff_exists.mp (isSome_find?_iff.mpr hb)
  obtain ⟨mb', hmb', -⟩ := he.keeps hd b mb hmb
  have hsame := fun k hk =>
    (hab.evolves hd ha hb he).find?_edited hlinked (lt_next_of_find? hmb') hx (k := k) hk
  exact ⟨hlinked.nodeAt?_congr (lt_next_of_find? hmb') hsame, hsame⟩

end Apart

end Draft
end VendorPrefixing
