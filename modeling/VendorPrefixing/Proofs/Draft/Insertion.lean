import Mathlib.Data.List.Count
import Mathlib.Data.List.Perm.Basic
import VendorPrefixing.Proofs.Draft.Evolution

/-!
# Insertions

A declaration is inserted in front of a node unless the block of that node has the pair
already.  The block is asked for the declarations in it that have not been removed, while the
place is looked for among all nodes in it, and the node itself may have been removed.

Main results:

- Theorem `Draft.contains_iff`: a block has a pair when one of its nodes declares it and has
  not been removed.
- Theorem `Draft.Linked.insertBefore_eq_none_iff`: a pair is refused by a block that has it,
  and by no other.
- Theorem `Draft.Linked.adds_of_insertBefore`: what an insertion changes, and what not.
- Theorem `Draft.count_pairs_edited`: one insertion or removal leaves at most one declaration
  of a pair in a block, or no more than there were.
- Theorem `Draft.insertBefore_exact`: all this for every draft, and the last for any number of
  insertions and removals.
-/

namespace VendorPrefixing

/-- Whether an edit inserts a declaration or removes a node. -/
def Draft.Edit.InsertsOrRemoves : Draft.Edit → Prop
  | insertBefore _ _ _ | removeDeclaration _ | removeAnimation _ => True
  | setValue _ _ | copyAnimation _ _ => False

/-- The position of a node if it is a declaration; other nodes have none. -/
def DraftNode.position (m : DraftNode) : Position :=
  match m.label with
  | .leaf (.declaration decl) => decl.position
  | _ => .none

namespace Draft

/-- Whether a node directly inside the block with a handle declares a pair and has not been
removed. -/
def Has (d : Draft) (q : Handle) (pair : String × String) : Prop :=
  ∃ p c m decl, d.find? q = some p ∧ c ∈ p.children ∧ d.find? c = some m ∧ m.removed = false ∧
    m.label = .leaf (.declaration decl) ∧ decl.pair = pair

/-- The pairs that the block with a handle declares, as often as it does. -/
def pairs (d : Draft) (q : Handle) : List (String × String) :=
  (d.liveDeclarations q).map Declaration.pair

/-- A declaration has come to stand directly in front of the node `m` in the block `q`, at the
position of `m`.  Nothing else has changed. -/
structure Adds (d : Draft) (m : DraftNode) (q : Handle) (property value : String) (e : Draft) :
    Prop where
  next_eq : e.next = d.next + 1
  /-- The new node is the declaration and has not been removed. -/
  new : e.find? d.next =
    some ⟨d.next, .leaf (.declaration ⟨property, value, m.position⟩), some q, [], false⟩
  /-- The block lists it directly in front of `m` and is the same in all else. -/
  block : ∃ p front back, d.find? q = some p ∧ p.children = front ++ m.handle :: back ∧
    e.find? q = some { p with children := front ++ d.next :: m.handle :: back }
  /-- All other nodes are the same. -/
  others : ∀ h, h < d.next → h ≠ q → e.find? h = d.find? h

variable {d e : Draft} {loose : List Handle} {before new h k q : Handle} {m p : DraftNode}
  {property value : String} {pair : String × String}

/-! ## The declarations of a block -/

/-- The declaration with a handle, unless it has been removed. -/
def liveDeclaration? (d : Draft) (h : Handle) : Option Declaration :=
  if d.isRemoved h then none else d.declaration? h

theorem liveDeclarations_eq (hp : d.find? q = some p) :
    d.liveDeclarations q = p.children.filterMap d.liveDeclaration? := by
  rw [liveDeclarations, hp]
  dsimp only
  rw [liveChildren, List.filterMap_filter]
  refine List.filterMap_congr fun c _ => ?_
  rw [liveDeclaration?]
  cases d.isRemoved c <;> rfl

theorem liveDeclaration?_eq_some_iff {decl : Declaration} : d.liveDeclaration? h = some decl ↔
    ∃ m, d.find? h = some m ∧ m.removed = false ∧ m.label = .leaf (.declaration decl) := by
  rw [liveDeclaration?, isRemoved, declaration?]
  cases d.find? h with
  | none => simp
  | some m =>
    have hlabel : m.label.declaration? = some decl ↔ m.label = .leaf (.declaration decl) := by
      rw [Label.declaration?.eq_def]
      split <;> simp_all
    cases hremoved : m.removed <;> simp [hremoved, hlabel]

/-- A block has a pair when one of its nodes declares it and has not been removed. -/
theorem contains_iff : d.contains q pair = true ↔ d.Has q pair := by
  rw [contains, List.any_eq_true]
  constructor
  · rintro ⟨decl, hdecl, hpair⟩
    cases hp : d.find? q with
    | none =>
      rw [liveDeclarations, hp] at hdecl
      cases hdecl
    | some p =>
      rw [liveDeclarations_eq hp] at hdecl
      obtain ⟨c, hc, hlive⟩ := List.mem_filterMap.mp hdecl
      obtain ⟨m, hm, hremoved, hlabel⟩ := liveDeclaration?_eq_some_iff.mp hlive
      exact ⟨p, c, m, decl, hp, hc, hm, hremoved, hlabel, beq_iff_eq.mp hpair⟩
  · rintro ⟨p, c, m, decl, hp, hc, hm, hremoved, hlabel, hpair⟩
    refine ⟨decl, ?_, beq_iff_eq.mpr hpair⟩
    rw [liveDeclarations_eq hp]
    exact List.mem_filterMap.mpr ⟨c, hc, liveDeclaration?_eq_some_iff.mpr ⟨m, hm, hremoved, hlabel⟩⟩

theorem count_pairs_eq_zero (h : d.contains q pair = false) : (d.pairs q).count pair = 0 := by
  rw [List.count_eq_zero, pairs, List.mem_map]
  rintro ⟨decl, hdecl, hpair⟩
  have hfound : d.contains q pair = true := List.any_eq_true.mpr ⟨decl, hdecl, beq_iff_eq.mpr hpair⟩
  rw [h] at hfound
  cases hfound

/-! ## One insertion -/

/-- A node that stands in a block is refused a pair exactly when the block has it. -/
theorem insertBefore_eq_none_iff (hm : d.find? before = some m) (hparent : m.parent = some q) :
    d.insertBefore before property value = none ↔ d.Has q (property, value) := by
  rw [← contains_iff]
  constructor
  · intro hnone
    simp only [insertBefore, hm, hparent, Option.bind_eq_bind, Option.bind_some] at hnone
    split at hnone
    · assumption
    · cases hnone
  · exact insertBefore_eq_none_of_contains hm hparent

/-- What an insertion changes, and what not. -/
theorem Linked.adds_of_insertBefore (hd : d.Linked [0]) (hm : d.find? before = some m)
    (hparent : m.parent = some q)
    (hnew : d.insertBefore before property value = some (new, e)) :
    new = d.next ∧ d.Adds m q property value e := by
  obtain ⟨m₀, q₀, p, front, back, hm₀, hparent₀, hp, heq, hafter⟩ :=
    (hd.inserts_of_insertBefore hnew).exists_parent hd
  cases hm.symm.trans hm₀
  cases hparent.symm.trans hparent₀
  obtain rfl : m.handle = before := hd.handle_eq hm
  have hlt := lt_next_of_find? hp
  have hposition : (m.label.declaration?.map Declaration.position).getD .none = m.position := by
    rw [DraftNode.position]
    cases m.label with
    | leaf l => cases l <;> rfl
    | block head => rfl
  simp only [insertBefore, hm, hparent, Option.bind_eq_bind, Option.bind_some] at hnew
  split at hnew
  · cases hnew
  · rw [hposition] at hnew
    cases hnew
    refine ⟨rfl, ?_, ?_, ⟨p, front, back, hp, heq, hafter⟩, fun h hh hne => ?_⟩
    · rw [enterBefore, next_modify, next_push]
    · rw [enterBefore, find?_modify, if_neg (Nat.ne_of_lt hlt), find?_push, if_pos rfl]
    · rw [enterBefore, find?_modify, if_neg (Ne.symm hne), find?_push_of_lt hh]

/-! ## How often a block declares a pair -/

theorem find?_eq_none_iff : d.find? h = none ↔ d.next ≤ h :=
  List.getElem?_eq_none_iff

theorem pairs_of_no_node (hq : d.find? q = none) : d.pairs q = [] := by
  rw [pairs, liveDeclarations, hq, List.map_nil]

namespace Adds

variable (ha : d.Adds m q property value e)
include ha

/-- What the nodes that were there declare is the same. -/
theorem liveDeclaration?_eq (hlt : h < d.next) : e.liveDeclaration? h = d.liveDeclaration? h := by
  rw [liveDeclaration?, liveDeclaration?, isRemoved, isRemoved, declaration?, declaration?]
  by_cases hh : h = q
  · subst hh
    obtain ⟨p, _, _, hp, _, hafter⟩ := ha.block
    rw [hp, hafter]
    rfl
  · rw [ha.others h hlt hh]

theorem liveDeclaration?_new : e.liveDeclaration? d.next = some ⟨property, value, m.position⟩ :=
  liveDeclaration?_eq_some_iff.mpr ⟨_, ha.new, rfl, rfl⟩

/-- The block that was added to declares one more pair. -/
theorem pairs_perm (hd : d.Linked loose) : (e.pairs q).Perm ((property, value) :: d.pairs q) := by
  obtain ⟨p, front, back, hp, heq, hafter⟩ := ha.block
  have hold : ∀ c ∈ p.children, e.liveDeclaration? c = d.liveDeclaration? c :=
    fun c hc => ha.liveDeclaration?_eq (hd.lt_of_mem hp hc).2
  have hperm : (front ++ d.next :: m.handle :: back).Perm (d.next :: p.children) :=
    heq ▸ List.perm_middle
  rw [pairs, pairs, liveDeclarations_eq hp, liveDeclarations_eq hafter]
  refine ((hperm.filterMap _).map _).trans ?_
  rw [List.filterMap_cons_some ha.liveDeclaration?_new, List.map_cons, List.filterMap_congr hold]
  exact List.Perm.refl _

/-- Other blocks declare the same pairs. -/
theorem pairs_eq (hd : d.Linked loose) (hne : h ≠ q) : e.pairs h = d.pairs h := by
  rcases Nat.lt_trichotomy h d.next with hlt | rfl | hgt
  · obtain ⟨p, hp⟩ := Option.isSome_iff_exists.mp (isSome_find?_iff.mpr hlt)
    have hafter : e.find? h = some p := (ha.others h hlt hne).trans hp
    rw [pairs, pairs, liveDeclarations_eq hp, liveDeclarations_eq hafter]
    rw [List.filterMap_congr fun c hc => ha.liveDeclaration?_eq (hd.lt_of_mem hp hc).2]
  · rw [pairs_of_no_node (find?_eq_none_iff.mpr (Nat.le_refl _)), pairs, liveDeclarations_eq ha.new]
    rfl
  · have hnext : e.next ≤ h := ha.next_eq ▸ hgt
    rw [pairs_of_no_node (find?_eq_none_iff.mpr (Nat.le_of_lt hgt)),
      pairs_of_no_node (find?_eq_none_iff.mpr hnext)]

/-- An insertion adds one to the number of declarations of its pair in its block. -/
theorem count_pairs (hd : d.Linked loose) (h : Handle) (pair : String × String) :
    (e.pairs h).count pair =
      (d.pairs h).count pair + if h = q ∧ pair = (property, value) then 1 else 0 := by
  by_cases hh : h = q
  · subst hh
    rw [(ha.pairs_perm hd).count_eq, List.count_cons]
    refine congrArg _ (if_congr ?_ rfl rfl)
    rw [beq_iff_eq, eq_comm, and_iff_right rfl]
  · rw [ha.pairs_eq hd hh, if_neg fun hboth => hh hboth.1, Nat.add_zero]

end Adds

/-- Where no node becomes a declaration or is restored, no block declares a pair more often. -/
theorem count_pairs_le
    (hchildren : ∀ {q p'}, e.find? q = some p' → ∃ p, d.find? q = some p ∧ p'.children = p.children)
    (hlabel : ∀ c, e.declaration? c = d.declaration? c)
    (hremoved : ∀ c, d.isRemoved c = true → e.isRemoved c = true) (q : Handle)
    (pair : String × String) : (e.pairs q).count pair ≤ (d.pairs q).count pair := by
  refine List.Sublist.count_le _ (List.Sublist.map _ ?_)
  cases hp' : e.find? q with
  | none =>
    rw [liveDeclarations, hp']
    exact List.nil_sublist _
  | some p' =>
    obtain ⟨p, hp, heq⟩ := hchildren hp'
    rw [liveDeclarations, liveDeclarations, hp', hp]
    dsimp only
    rw [liveChildren, liveChildren, heq, funext hlabel]
    refine (List.monotone_filter_right _ fun c hc => ?_).filterMap _
    rw [Bool.not_eq_true'] at hc ⊢
    exact Bool.eq_false_iff.mpr fun hd => Bool.eq_false_iff.mp hc (hremoved c hd)

theorem count_pairs_remove (test : Label → Bool) (h q : Handle) (pair : String × String) :
    ((d.modify h fun m => if test m.label then { m with removed := true } else m).pairs q).count
      pair ≤ (d.pairs q).count pair := by
  have hsame : ∀ m : DraftNode,
      (if test m.label then { m with removed := true } else m).children = m.children ∧
      (if test m.label then { m with removed := true } else m).label = m.label ∧
      (m.removed = true →
        (if test m.label then { m with removed := true } else m).removed = true) := by
    intro m
    split
    · exact ⟨rfl, rfl, fun _ => rfl⟩
    · exact ⟨rfl, rfl, id⟩
  refine count_pairs_le (fun hp' => ?_) (fun c => ?_) (fun c hc => ?_) q pair
  · obtain ⟨p, hp, rfl⟩ := Linked.exists_of_find?_modify hp'
    refine ⟨p, hp, ?_⟩
    split
    · exact (hsame p).1
    · rfl
  · rw [declaration?, declaration?, find?_modify]
    split
    · cases d.find? c with
      | none => rfl
      | some m => exact congrArg Label.declaration? (hsame m).2.1
    · rfl
  · rw [isRemoved, find?_modify]
    rw [isRemoved] at hc
    split
    · cases hm : d.find? c with
      | none =>
        rw [hm] at hc
        cases hc
      | some m =>
        rw [hm] at hc
        exact (hsame m).2.2 hc
    · exact hc

/-- One insertion or removal leaves at most one declaration of a pair in a block, or no more
than there were. -/
theorem count_pairs_edited (hd : d.Linked [0]) {x : Edit} (hx : x.InsertsOrRemoves) (q : Handle)
    (pair : String × String) :
    ((d.edited x).pairs q).count pair ≤ max 1 ((d.pairs q).count pair) := by
  cases x with
  | insertBefore before property value =>
    rw [edited]
    cases hnew : d.insertBefore before property value with
    | none => exact Nat.le_max_right _ _
    | some made =>
      obtain ⟨new, e⟩ := made
      obtain ⟨m, r, -, hm, hparent, -⟩ := (hd.inserts_of_insertBefore hnew).joins
      have hadds := (hd.adds_of_insertBefore hm hparent hnew).2
      rw [Option.map_some, Option.getD_some, hadds.count_pairs hd]
      split
      · -- The block did not have the pair, or the insertion would have been refused.
        rename_i hboth
        obtain ⟨rfl, rfl⟩ := hboth
        have hmissing : d.contains q (property, value) = false := by
          refine Bool.eq_false_iff.mpr fun hhas => ?_
          rw [insertBefore_eq_none_of_contains hm hparent hhas] at hnew
          cases hnew
        rw [count_pairs_eq_zero hmissing]
        exact Nat.le_max_left _ _
      · exact Nat.le_max_right _ _
  | removeDeclaration h =>
    exact Nat.le_trans (count_pairs_remove (·.declaration?.isSome) h q pair) (Nat.le_max_right _ _)
  | removeAnimation h =>
    exact Nat.le_trans (count_pairs_remove (·.animation?.isSome) h q pair) (Nat.le_max_right _ _)
  | setValue h value => exact hx.elim
  | copyAnimation h mark => exact hx.elim

/-- Any number of insertions and removals leave at most one declaration of a pair in a block,
or no more than there were. -/
theorem count_pairs_foldl_edited (hd : d.Linked [0]) {xs : List Edit}
    (hxs : ∀ x ∈ xs, x.InsertsOrRemoves) (q : Handle) (pair : String × String) :
    ((xs.foldl edited d).pairs q).count pair ≤ max 1 ((d.pairs q).count pair) := by
  induction xs generalizing d with
  | nil => exact Nat.le_max_right _ _
  | cons x xs ih =>
    obtain ⟨hx, hxs⟩ := List.forall_mem_cons.mp hxs
    have hstep := count_pairs_edited hd hx q pair
    exact Nat.le_trans (ih (linked_edited hd x) hxs)
      (Nat.max_le.mpr ⟨Nat.le_max_left _ _, hstep⟩)

/-- In a draft that any edits have led to, a declaration is refused in front of a node exactly
when the block of the node has the pair, and otherwise is all that changes.  So no number of
insertions and removals make a block declare a pair a second time. -/
theorem insertBefore_exact {n : Node} (hd : (ofNode n).Evolves d) :
    (∀ before, before < d.next → before ≠ 0 → ∃ m q, d.find? before = some m ∧
      m.parent = some q ∧ ∀ property value,
        (d.insertBefore before property value = none ∧
          d.edited (.insertBefore before property value) = d ↔ d.Has q (property, value)) ∧
        (¬ d.Has q (property, value) → ∃ e, d.insertBefore before property value =
          some (d.next, e) ∧ d.Adds m q property value e)) ∧
      ∀ xs : List Edit, (∀ x ∈ xs, x.InsertsOrRemoves) → ∀ q pair,
        ((xs.foldl edited (ofNode n)).pairs q).count pair ≤
          max 1 (((ofNode n).pairs q).count pair) := by
  have hlinked := hd.linked (linked_ofNode n)
  refine ⟨fun before hlt hroot => ?_, fun xs hxs q pair =>
    count_pairs_foldl_edited (linked_ofNode n) hxs q pair⟩
  obtain ⟨m, hm⟩ := Option.isSome_iff_exists.mp (isSome_find?_iff.mpr hlt)
  obtain ⟨q, hparent⟩ :=
    Option.ne_none_iff_exists'.mp (mt (hlinked.parent_eq_none_iff hm).mp hroot)
  refine ⟨m, q, hm, hparent, fun property value => ⟨?_, fun hmissing => ?_⟩⟩
  · rw [insertBefore_eq_none_iff hm hparent, and_iff_left_iff_imp]
    intro hhas
    rw [edited, (insertBefore_eq_none_iff hm hparent).mpr hhas]
    rfl
  · cases hnew : d.insertBefore before property value with
    | none => exact absurd ((insertBefore_eq_none_iff hm hparent).mp hnew) hmissing
    | some made =>
      obtain ⟨new, e⟩ := made
      obtain ⟨rfl, hadds⟩ := hlinked.adds_of_insertBefore hm hparent hnew
      exact ⟨e, rfl, hadds⟩

/-- In front of a removed declaration its own pair can be inserted again, but not the pair that
its block has got instead. -/
theorem insertBefore_exact_hyphensWithoutSpin :
    (ofNode hyphensAndSpin).Evolves hyphensWithoutSpin ∧ hyphensWithoutSpin.isRemoved 2 = true ∧
      hyphensWithoutSpin.insertBefore 2 "-webkit-hyphens" "manual" = none ∧
      ∃ m e, hyphensWithoutSpin.find? 2 = some m ∧
        hyphensWithoutSpin.insertBefore 2 "hyphens" "auto" = some (7, e) ∧
        hyphensWithoutSpin.Adds m 1 "hyphens" "auto" e := by
  have hd : (ofNode hyphensAndSpin).Evolves hyphensWithoutSpin :=
    (((Evolves.refl.edit (by decide)).edit (by decide)).edit (by decide)).edit (by decide)
  obtain ⟨m, q, hm, hparent, hexact⟩ := (insertBefore_exact hd).1 2 (by decide) (by decide)
  obtain rfl : q = 1 := by
    cases hm
    exact (Option.some.inj hparent).symm
  have hhas : hyphensWithoutSpin.Has 1 ("-webkit-hyphens", "manual") := contains_iff.mp rfl
  have hmissing : ¬ hyphensWithoutSpin.Has 1 ("hyphens", "auto") := fun h =>
    Bool.noConfusion (contains_iff.mpr h)
  obtain ⟨e, hnew, hadds⟩ := (hexact "hyphens" "auto").2 hmissing
  exact ⟨hd, rfl, ((hexact _ _).1.mpr hhas).1, m, e, hm, hnew, hadds⟩

end Draft
end VendorPrefixing
