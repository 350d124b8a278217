import Mathlib.Data.List.Infix
import Mathlib.Data.List.Perm.Basic
import VendorPrefixing.Draft.Edit

/-!
# Links between the nodes of a draft

Parents and lists of children are kept apart, and so they have to agree.  While a tree
is added, a node stands in the row before its parent lists it; the nodes in this state
are loose.  Every change of a draft is made of three kinds of changes: a loose node
joins the row, a loose node is listed by its parent, or a node changes in itself.

Main results:

- Theorem `Draft.Linked.push`: a node that joins the row is loose.
- Theorem `Draft.Linked.enter`: a loose node that is listed by its parent is loose no
  more.
- Theorem `Draft.Linked.modify`: the links do not depend on what a node is, as long as
  blocks stay blocks.
- Theorem `Draft.Linked.induction`: what is handed on from children to their parent
  holds of all nodes.
- Theorem `Draft.Under.total`: of two nodes above a third one, one is above the other.
-/

namespace VendorPrefixing

/-- The nodes that may be marked as removed. -/
def Label.IsRemovable (label : Label) : Prop :=
  label.declaration?.isSome = true ∨ label.animation?.isSome = true

namespace Draft

/-- Parents and children agree, but for the nodes in `loose`, which their parents do not
list yet. -/
structure Linked (loose : List Handle) (d : Draft) : Prop where
  handle_eq : ∀ {h m}, d.find? h = some m → m.handle = h
  parent_eq_none_iff : ∀ {h m}, d.find? h = some m → (m.parent = none ↔ h = 0)
  parent_lt : ∀ {h m q}, d.find? h = some m → m.parent = some q → q < h
  count_eq : ∀ {h m q p}, d.find? h = some m → m.parent = some q → d.find? q = some p →
    p.children.count h = if h ∈ loose then 0 else 1
  parent_of_mem : ∀ {q p c}, d.find? q = some p → c ∈ p.children →
    ∃ m, d.find? c = some m ∧ m.parent = some q
  children_of_leaf : ∀ {h m l}, d.find? h = some m → m.label = .leaf l → m.children = []
  isRemovable : ∀ {h m}, d.find? h = some m → m.removed = true → m.label.IsRemovable
  lt_next_of_loose : ∀ {h}, h ∈ loose → h < d.next

/-- The nodes under the node with a handle: itself, its children, their children and so on. -/
inductive Under (d : Draft) (r : Handle) : Handle → Prop
  | self : Under d r r
  | child {q h : Handle} {m : DraftNode} : Under d r q → d.find? h = some m →
    m.parent = some q → Under d r h

variable {d : Draft} {loose : List Handle} {h k q : Handle} {m p : DraftNode} {label : Label}
  {parent : Option Handle}

theorem linked_empty : Linked [] ⟨[]⟩ := by
  have hfind : ∀ {h : Handle} {m : DraftNode}, (Draft.mk []).find? h ≠ some m := by
    intro h m hm
    cases hm
  exact {
    handle_eq := fun hm => absurd hm hfind
    parent_eq_none_iff := fun hm => absurd hm hfind
    parent_lt := fun hm => absurd hm hfind
    count_eq := fun hm => absurd hm hfind
    parent_of_mem := fun hm => absurd hm hfind
    children_of_leaf := fun hm => absurd hm hfind
    isRemovable := fun hm => absurd hm hfind
    lt_next_of_loose := fun hmem => absurd hmem List.not_mem_nil }

namespace Linked

/-- Children come after their parents. -/
theorem lt_of_mem (hd : d.Linked loose) (hp : d.find? q = some p) (hc : k ∈ p.children) :
    q < k ∧ k < d.next := by
  obtain ⟨m, hm, hparent⟩ := hd.parent_of_mem hp hc
  exact ⟨hd.parent_lt hm hparent, lt_next_of_find? hm⟩

/-- What lists children is a block. -/
theorem exists_head_of_mem (hd : d.Linked loose) (hp : d.find? q = some p)
    (hc : k ∈ p.children) : ∃ head, p.label = .block head := by
  cases hlabel : p.label with
  | block head => exact ⟨head, rfl⟩
  | leaf l =>
    rw [hd.children_of_leaf hp hlabel] at hc
    exact absurd hc List.not_mem_nil

/-- The parent of a node is in the row. -/
theorem exists_parent (hd : d.Linked loose) (hm : d.find? h = some m)
    (hparent : m.parent = some q) : ∃ p, d.find? q = some p := by
  have hlt := Nat.lt_trans (hd.parent_lt hm hparent) (lt_next_of_find? hm)
  exact Option.isSome_iff_exists.mp (isSome_find?_iff.mpr hlt)

/-- Where no node but the root is loose, a node is listed once by its parent. -/
theorem count_children (hd : d.Linked [0]) (hm : d.find? h = some m) (hparent : m.parent = some q)
    (hp : d.find? q = some p) : p.children.count h = 1 := by
  have hroot : h ∉ [0] := fun hmem => by
    cases hparent.symm.trans ((hd.parent_eq_none_iff hm).mpr (List.mem_singleton.mp hmem))
  rw [hd.count_eq hm hparent hp, if_neg hroot]

/-- What is handed on from children to their parent holds of all nodes. -/
theorem induction (hd : d.Linked loose) {motive : Handle → Prop}
    (step : ∀ h m, d.find? h = some m → (∀ c ∈ m.children, motive c) → motive h)
    (h : Handle) (hlt : h < d.next) : motive h := by
  -- There are fewer nodes behind a child than behind its parent.
  induction hsize : d.next - h using Nat.strong_induction_on generalizing h with
  | h size ih =>
    obtain ⟨m, hm⟩ := Option.isSome_iff_exists.mp (isSome_find?_iff.mpr hlt)
    refine step h m hm fun c hc => ?_
    have hlater := hd.lt_of_mem hm hc
    have hfewer : d.next - c < size := hsize ▸ Nat.sub_lt_sub_left hlt hlater.1
    exact ih (d.next - c) hfewer c hlater.2 rfl

/-- The nodes under a node come after it. -/
theorem bounds_of_under (hd : d.Linked loose) (hlt : h < d.next) (hk : d.Under h k) :
    h ≤ k ∧ k < d.next := by
  induction hk with
  | self => exact ⟨Nat.le_refl h, hlt⟩
  | child _ hm hparent ih =>
    have hafter := hd.parent_lt hm hparent
    exact ⟨Nat.le_trans ih.1 (Nat.le_of_lt hafter), lt_next_of_find? hm⟩

/-- What is under a child of a node is under the node. -/
theorem under_of_mem (hd : d.Linked loose) (hp : d.find? q = some p) (hc : h ∈ p.children)
    (hk : d.Under h k) : d.Under q k := by
  induction hk with
  | self =>
    obtain ⟨m, hm, hparent⟩ := hd.parent_of_mem hp hc
    exact .child .self hm hparent
  | child _ hm hparent ih => exact .child ih hm hparent

/-! ## Changes -/

theorem find?_push_cases (hm : (d.push label parent).find? h = some m) :
    (h = d.next ∧ m = ⟨d.next, label, parent, [], false⟩) ∨ (h < d.next ∧ d.find? h = some m) := by
  rw [find?_push] at hm
  split at hm
  · rename_i heq
    cases hm
    exact .inl ⟨heq, rfl⟩
  · exact .inr ⟨lt_next_of_find? hm, hm⟩

/-- A node that joins the row is loose. -/
theorem push (hd : d.Linked loose) (hroot : parent = none ↔ d.next = 0)
    (hparent : ∀ q, parent = some q → q < d.next) (label : Label) :
    (d.push label parent).Linked (d.next :: loose) where
  handle_eq hm := by
    rcases find?_push_cases hm with ⟨rfl, rfl⟩ | ⟨-, hold⟩
    · rfl
    · exact hd.handle_eq hold
  parent_eq_none_iff hm := by
    rcases find?_push_cases hm with ⟨rfl, rfl⟩ | ⟨-, hold⟩
    · exact hroot
    · exact hd.parent_eq_none_iff hold
  parent_lt hm hq := by
    rcases find?_push_cases hm with ⟨rfl, rfl⟩ | ⟨-, hold⟩
    · exact hparent _ hq
    · exact hd.parent_lt hold hq
  count_eq {h m q p} hm hq hp := by
    rcases find?_push_cases hm with ⟨rfl, rfl⟩ | ⟨hlt, hold⟩
    · have hp : d.find? q = some p := by rwa [find?_push_of_lt (hparent q hq)] at hp
      rw [if_pos List.mem_cons_self, List.count_eq_zero]
      exact fun hmem => Nat.lt_irrefl _ (hd.lt_of_mem hp hmem).2
    · have hp : d.find? q = some p := by
        rwa [find?_push_of_lt (Nat.lt_trans (hd.parent_lt hold hq) hlt)] at hp
      rw [hd.count_eq hold hq hp]
      exact if_congr (by simp [Nat.ne_of_lt hlt]) rfl rfl
  parent_of_mem {q p c} hp hc := by
    rcases find?_push_cases hp with ⟨rfl, rfl⟩ | ⟨-, hold⟩
    · exact absurd hc List.not_mem_nil
    · rw [find?_push_of_lt (hd.lt_of_mem hold hc).2]
      exact hd.parent_of_mem hold hc
  children_of_leaf hm hlabel := by
    rcases find?_push_cases hm with ⟨rfl, rfl⟩ | ⟨-, hold⟩
    · rfl
    · exact hd.children_of_leaf hold hlabel
  isRemovable hm hremoved := by
    rcases find?_push_cases hm with ⟨rfl, rfl⟩ | ⟨-, hold⟩
    · cases hremoved
    · exact hd.isRemovable hold hremoved
  lt_next_of_loose hmem := by
    rw [next_push]
    rcases List.mem_cons.mp hmem with rfl | hmem
    · exact Nat.lt_succ_self _
    · exact Nat.lt_succ_of_lt (hd.lt_next_of_loose hmem)

/-- A node after a change, with the node that it was. -/
theorem exists_of_find?_modify {change : DraftNode → DraftNode}
    (hm : (d.modify k change).find? h = some m) :
    ∃ m₀, d.find? h = some m₀ ∧ m = if k = h then change m₀ else m₀ := by
  rw [find?_modify] at hm
  split at hm
  · rename_i heq
    obtain ⟨m₀, hm₀, rfl⟩ := Option.map_eq_some_iff.mp hm
    exact ⟨m₀, hm₀, by rw [if_pos heq]⟩
  · rename_i hne
    exact ⟨m, hm, by rw [if_neg hne]⟩

/-- The links do not depend on what a node is, as long as blocks stay blocks. -/
theorem modify (hd : d.Linked loose) {change : DraftNode → DraftNode}
    (hhandle : ∀ m, (change m).handle = m.handle) (hparent : ∀ m, (change m).parent = m.parent)
    (hchildren : ∀ m, (change m).children = m.children)
    (hlabel : ∀ m l, (change m).label = .leaf l → ∃ l', m.label = .leaf l')
    (hremoved : ∀ m, (m.removed = true → m.label.IsRemovable) →
      (change m).removed = true → (change m).label.IsRemovable) :
    (d.modify k change).Linked loose := by
  have hsame : ∀ {h m}, (d.modify k change).find? h = some m → ∃ m₀, d.find? h = some m₀ ∧
      m.handle = m₀.handle ∧ m.parent = m₀.parent ∧ m.children = m₀.children := by
    intro h m hm
    obtain ⟨m₀, hm₀, rfl⟩ := exists_of_find?_modify hm
    refine ⟨m₀, hm₀, ?_⟩
    split
    · exact ⟨hhandle m₀, hparent m₀, hchildren m₀⟩
    · exact ⟨rfl, rfl, rfl⟩
  exact {
    handle_eq := fun hm => by
      obtain ⟨m₀, hm₀, heq, -, -⟩ := hsame hm
      rw [heq, hd.handle_eq hm₀]
    parent_eq_none_iff := fun hm => by
      obtain ⟨m₀, hm₀, -, heq, -⟩ := hsame hm
      rw [heq]
      exact hd.parent_eq_none_iff hm₀
    parent_lt := fun hm hq => by
      obtain ⟨m₀, hm₀, -, heq, -⟩ := hsame hm
      exact hd.parent_lt hm₀ (heq ▸ hq)
    count_eq := fun hm hq hp => by
      obtain ⟨m₀, hm₀, -, hmparent, -⟩ := hsame hm
      obtain ⟨p₀, hp₀, -, -, hpchildren⟩ := hsame hp
      rw [hpchildren]
      exact hd.count_eq hm₀ (hmparent ▸ hq) hp₀
    parent_of_mem := fun {q p c} hp hc => by
      obtain ⟨p₀, hp₀, -, -, hpchildren⟩ := hsame hp
      obtain ⟨m, hm, hmparent⟩ := hd.parent_of_mem hp₀ (hpchildren ▸ hc)
      rw [find?_modify, hm]
      split
      · exact ⟨change m, rfl, (hparent m).trans hmparent⟩
      · exact ⟨m, rfl, hmparent⟩
    children_of_leaf := fun {h m l} hm hl => by
      obtain ⟨m₀, hm₀, -, -, hmchildren⟩ := hsame hm
      obtain ⟨m₁, hm₁, heq⟩ := exists_of_find?_modify hm
      cases hm₀.symm.trans hm₁
      rw [hmchildren]
      split at heq
      · obtain ⟨l', hl'⟩ := hlabel m₀ l (heq ▸ hl)
        exact hd.children_of_leaf hm₀ hl'
      · exact hd.children_of_leaf hm₀ (heq ▸ hl)
    isRemovable := fun {h m} hm hr => by
      obtain ⟨m₀, hm₀, rfl⟩ := exists_of_find?_modify hm
      split at hr
      · rename_i heq
        rw [if_pos heq]
        exact hremoved m₀ (hd.isRemovable hm₀) hr
      · rename_i hne
        rw [if_neg hne]
        exact hd.isRemovable hm₀ hr
    lt_next_of_loose := fun hmem => by
      rw [next_modify]
      exact hd.lt_next_of_loose hmem }

section Enter

variable {place : List Handle → List Handle} {q₁ : Handle} {m₀ p₀ : DraftNode}

/-- A loose node that is entered is counted once by its parent, the others as before. -/
theorem count_entered (hd : d.Linked (k :: loose)) (hk : k ∉ loose) (hm : d.find? k = some m)
    (hparent : m.parent = some q) (hp : d.find? q = some p)
    (hplace : (place p.children).Perm (k :: p.children)) (hm₀ : d.find? h = some m₀)
    (hq₁ : m₀.parent = some q₁) (hp₀ : d.find? q₁ = some p₀) :
    (if q = q₁ then place p₀.children else p₀.children).count h = if h ∈ loose then 0 else 1 := by
  have hcount := hd.count_eq hm₀ hq₁ hp₀
  by_cases heq : h = k
  · subst heq
    obtain rfl : q₁ = q := by
      cases hm.symm.trans hm₀
      exact Option.some.inj (hq₁.symm.trans hparent)
    cases hp.symm.trans hp₀
    rw [if_pos rfl, hplace.count_eq, List.count_cons_self, hcount, if_pos List.mem_cons_self,
      if_neg hk]
  · have hmem : h ∈ k :: loose ↔ h ∈ loose := by simp [heq]
    rw [← if_congr hmem rfl rfl, ← hcount]
    split
    · rename_i hq
      subst hq
      cases hp.symm.trans hp₀
      rw [hplace.count_eq, List.count_cons_of_ne (Ne.symm heq)]
    · rfl

/-- What is listed after a loose node has been entered has the list's owner as its parent. -/
theorem parent_of_mem_entered (hd : d.Linked (k :: loose)) (hm : d.find? k = some m)
    (hparent : m.parent = some q) (hp : d.find? q = some p)
    (hplace : (place p.children).Perm (k :: p.children)) (hp₀ : d.find? q₁ = some p₀)
    (hc : h ∈ if q = q₁ then place p₀.children else p₀.children) :
    ∃ m₀, d.find? h = some m₀ ∧ m₀.parent = some q₁ := by
  split at hc
  · rename_i hq
    subst hq
    cases hp.symm.trans hp₀
    rcases List.mem_cons.mp (hplace.mem_iff.mp hc) with rfl | hc
    · exact ⟨m, hm, hparent⟩
    · exact hd.parent_of_mem hp₀ hc
  · exact hd.parent_of_mem hp₀ hc

end Enter

/-- A loose node that is listed by its parent is loose no more. -/
theorem enter (hd : d.Linked (k :: loose)) (hk : k ∉ loose) (hm : d.find? k = some m)
    (hparent : m.parent = some q) (hp : d.find? q = some p)
    (hlabel : ∃ head, p.label = .block head) (place : List Handle → List Handle)
    (hplace : (place p.children).Perm (k :: p.children)) :
    (d.modify q fun m => { m with children := place m.children }).Linked loose := by
  have hsame : ∀ {h m}, (d.modify q fun m => { m with children := place m.children }).find? h =
      some m → ∃ m₀, d.find? h = some m₀ ∧ m.handle = m₀.handle ∧ m.parent = m₀.parent ∧
        m.label = m₀.label ∧ m.removed = m₀.removed ∧
        m.children = if q = h then place m₀.children else m₀.children := by
    intro h m hm
    obtain ⟨m₀, hm₀, rfl⟩ := exists_of_find?_modify hm
    refine ⟨m₀, hm₀, ?_⟩
    split <;> exact ⟨rfl, rfl, rfl, rfl, rfl⟩
  exact {
    handle_eq := fun hm => by
      obtain ⟨m₀, hm₀, heq, -⟩ := hsame hm
      rw [heq, hd.handle_eq hm₀]
    parent_eq_none_iff := fun hm => by
      obtain ⟨m₀, hm₀, -, heq, -⟩ := hsame hm
      rw [heq]
      exact hd.parent_eq_none_iff hm₀
    parent_lt := fun hm hq => by
      obtain ⟨m₀, hm₀, -, heq, -⟩ := hsame hm
      exact hd.parent_lt hm₀ (heq ▸ hq)
    count_eq := fun hm₁ hq₁ hp₁ => by
      obtain ⟨m₀, hm₀, -, hmparent, -⟩ := hsame hm₁
      obtain ⟨p₀, hp₀, -, -, -, -, hpchildren⟩ := hsame hp₁
      rw [hpchildren]
      exact hd.count_entered hk hm hparent hp hplace hm₀ (hmparent ▸ hq₁) hp₀
    parent_of_mem := fun hp₁ hc => by
      obtain ⟨p₀, hp₀, -, -, -, -, hpchildren⟩ := hsame hp₁
      obtain ⟨m₀, hm₀, hm₀parent⟩ :=
        hd.parent_of_mem_entered hm hparent hp hplace hp₀ (hpchildren ▸ hc)
      rw [find?_modify, hm₀]
      split
      · exact ⟨_, rfl, hm₀parent⟩
      · exact ⟨m₀, rfl, hm₀parent⟩
    children_of_leaf := fun {h₁ m₁ l} hm₁ hl => by
      obtain ⟨m₀, hm₀, -, -, heq, -, hchildren⟩ := hsame hm₁
      rw [hchildren]
      split
      · rename_i hq
        subst hq
        cases hp.symm.trans hm₀
        obtain ⟨head, hhead⟩ := hlabel
        rw [heq, hhead] at hl
        cases hl
      · exact hd.children_of_leaf hm₀ (heq ▸ hl)
    isRemovable := fun hm₁ hr => by
      obtain ⟨m₀, hm₀, -, -, hlabel, hremoved, -⟩ := hsame hm₁
      rw [hlabel]
      exact hd.isRemovable hm₀ (hremoved ▸ hr)
    lt_next_of_loose := fun hmem => by
      rw [next_modify]
      exact hd.lt_next_of_loose (List.mem_cons_of_mem k hmem) }

end Linked

/-- Of two nodes above a third one, one is above the other. -/
theorem Under.total {a b : Handle} (ha : d.Under a h) (hb : d.Under b h) :
    d.Under a b ∨ d.Under b a := by
  induction ha with
  | self => exact .inr hb
  | child ha hm hparent ih =>
    cases hb with
    | self => exact .inl (.child ha hm hparent)
    | child hb hm' hparent' =>
      cases hm.symm.trans hm'
      cases hparent.symm.trans hparent'
      exact ih hb

end Draft
end VendorPrefixing
