import Mathlib.Data.List.Forall2
import VendorPrefixing.Proofs.Sheet.Animation
import VendorPrefixing.Proofs.Sheet.Growth

/-!
# Copying and weaving records

Copying animations and weaving declarations, carried out on records of growth.  Erasing
the record of such a pass gives what the pass makes of the style sheet itself, so what
holds of records holds of every run.

Main results:

- Theorem `Growth.after_copied`: a record of copying has the copied style sheet on one
  side.
- Theorems `Growth.isNext_copied` and `Growth.marksOf_copied`: every copy stands directly
  in front of its animation, and there is one for every mark that is missing.
- Theorem `Growth.after_woven`: weaving a record weaves the style sheet after.
- Theorem `Growth.exists_grows_of_mem_woven`: where the declarations in a woven record come
  from.
-/

namespace VendorPrefixing
namespace Growth

open Node (declarations mapContentsAll weaveFrom weave missing animationsIn animationsAll
  copyIn copyAll missingMarks missingMarks_copyIn mapContentsAll_append)

variable {head : Block} {marks : List String} {known : List Animation} {name : String}

/-! ## Copying -/

mutual

/-- The record of a node with its copies in front of it, and the animations known after
that. -/
def copiedIn (marks : List String) (known : List Animation) :
    Node → List Growth × List Animation
  | .leaf l => ([ofNode (.leaf l)], known)
  | .block head children =>
    match head with
    | .keyframes name none =>
      ((missingMarks marks known name).map (fun mark => copy name mark (ofNodeAll children)) ++
          [block (.keyframes name none) (ofNodeAll children)],
        known ++ (missingMarks marks known name).map fun mark => ⟨name, some mark⟩)
    | head =>
      if head.isConditional then
        let (children, known) := copiedAll marks known children
        ([block head children], known)
      else
        ([block head (ofNodeAll children)], known)

/-- The records of nodes with the copies among them, and the animations known after
that. -/
def copiedAll (marks : List String) (known : List Animation) :
    List Node → List Growth × List Animation
  | [] => ([], known)
  | n :: rest =>
    let (front, known) := copiedIn marks known n
    let (back, known) := copiedAll marks known rest
    (front ++ back, known)

end

/-- The record of a style sheet whose animations are copied. -/
def copied (marks : List String) : Node → Growth
  | .leaf l => ofNode (.leaf l)
  | .block head children => block head (copiedAll marks (animationsAll children) children).1

theorem copiedIn_unmarked (marks : List String) (known : List Animation) (name : String)
    (children : List Node) :
    copiedIn marks known (.block (.keyframes name none) children) =
      ((missingMarks marks known name).map (fun mark => copy name mark (ofNodeAll children)) ++
          [block (.keyframes name none) (ofNodeAll children)],
        known ++ (missingMarks marks known name).map fun mark => ⟨name, some mark⟩) :=
  rfl

theorem copiedIn_marked (marks : List String) (known : List Animation) (name mark : String)
    (children : List Node) :
    copiedIn marks known (.block (.keyframes name (some mark)) children) =
      ([block (.keyframes name (some mark)) (ofNodeAll children)], known) :=
  rfl

theorem copiedIn_of_conditional (h : head.isConditional = true) (marks : List String)
    (known : List Animation) (children : List Node) :
    copiedIn marks known (.block head children) =
      ([block head (copiedAll marks known children).1], (copiedAll marks known children).2) := by
  cases head <;> first | rfl | cases h

theorem copiedIn_of_inert (h : head.isInert = true) (marks : List String)
    (known : List Animation) (children : List Node) :
    copiedIn marks known (.block head children) = ([block head (ofNodeAll children)], known) := by
  cases head <;> first | rfl | cases h

theorem copiedAll_cons (marks : List String) (known : List Animation) (n : Node)
    (rest : List Node) :
    copiedAll marks known (n :: rest) =
      ((copiedIn marks known n).1 ++ (copiedAll marks (copiedIn marks known n).2 rest).1,
        (copiedAll marks (copiedIn marks known n).2 rest).2) :=
  rfl

mutual

theorem copiedIn_snd (marks : List String) (known : List Animation) : (n : Node) →
    (copiedIn marks known n).2 = (copyIn marks known n).2
  | .leaf _ => rfl
  | .block head children => by
    obtain ⟨name, rfl⟩ | ⟨name, mark, rfl⟩ | h | h := head.animation_cases
    · rfl
    · rfl
    · rw [copiedIn_of_conditional h, Node.copyIn_of_conditional h]
      exact copiedAll_snd marks known children
    · rw [copiedIn_of_inert h, Node.copyIn_of_inert h]

theorem copiedAll_snd (marks : List String) (known : List Animation) : (ns : List Node) →
    (copiedAll marks known ns).2 = (copyAll marks known ns).2
  | [] => rfl
  | n :: rest => by
    rw [copiedAll_cons, Node.copyAll_cons, copiedIn_snd marks known n,
      copiedAll_snd marks _ rest]

end

/-! ### Erasing -/

theorem beforeAll_map_copy (name : String) (marks : List String) (frames : List Growth) :
    beforeAll (marks.map fun mark => copy name mark frames) = [] := by
  induction marks with
  | nil => rfl
  | cons mark marks ih =>
    rw [List.map_cons, beforeAll, ih]
    rfl

theorem afterAll_map_copy (name : String) (marks : List String) (frames : List Growth) :
    afterAll (marks.map fun mark => copy name mark frames) =
      marks.map fun mark => .block (.keyframes name (some mark)) (afterAll frames) := by
  induction marks with
  | nil => rfl
  | cons mark marks ih =>
    rw [List.map_cons, afterAll, ih]
    rfl

theorem afterAll_singleton_block (head : Block) (gs : List Growth) :
    afterAll [block head gs] = [.block head (afterAll gs)] :=
  rfl

theorem beforeAll_singleton_block (head : Block) (gs : List Growth) :
    beforeAll [block head gs] = [.block head (beforeAll gs)] :=
  rfl

mutual

theorem beforeAll_copiedIn (marks : List String) (known : List Animation) : (n : Node) →
    beforeAll (copiedIn marks known n).1 = [n]
  | .leaf l => beforeAll_ofNodeAll [.leaf l]
  | .block head children => by
    obtain ⟨name, rfl⟩ | ⟨name, mark, rfl⟩ | h | h := head.animation_cases
    · rw [copiedIn_unmarked, beforeAll_append, beforeAll_map_copy, beforeAll_singleton_block,
        beforeAll_ofNodeAll, List.nil_append]
    · rw [copiedIn_marked, beforeAll_singleton_block, beforeAll_ofNodeAll]
    · rw [copiedIn_of_conditional h, beforeAll_singleton_block,
        beforeAll_copiedAll marks known children]
    · rw [copiedIn_of_inert h, beforeAll_singleton_block, beforeAll_ofNodeAll]

theorem beforeAll_copiedAll (marks : List String) (known : List Animation) : (ns : List Node) →
    beforeAll (copiedAll marks known ns).1 = ns
  | [] => rfl
  | n :: rest => by
    rw [copiedAll_cons, beforeAll_append, beforeAll_copiedIn marks known n,
      beforeAll_copiedAll marks _ rest, List.singleton_append]

end

mutual

theorem afterAll_copiedIn (marks : List String) (known : List Animation) : (n : Node) →
    afterAll (copiedIn marks known n).1 = (copyIn marks known n).1
  | .leaf l => afterAll_ofNodeAll [.leaf l]
  | .block head children => by
    obtain ⟨name, rfl⟩ | ⟨name, mark, rfl⟩ | h | h := head.animation_cases
    · rw [copiedIn_unmarked, Node.copyIn_unmarked, afterAll_append, afterAll_map_copy,
        afterAll_singleton_block, afterAll_ofNodeAll]
    · rw [copiedIn_marked, Node.copyIn_marked, afterAll_singleton_block, afterAll_ofNodeAll]
    · rw [copiedIn_of_conditional h, Node.copyIn_of_conditional h, afterAll_singleton_block,
        afterAll_copiedAll marks known children]
    · rw [copiedIn_of_inert h, Node.copyIn_of_inert h, afterAll_singleton_block,
        afterAll_ofNodeAll]

theorem afterAll_copiedAll (marks : List String) (known : List Animation) : (ns : List Node) →
    afterAll (copiedAll marks known ns).1 = (copyAll marks known ns).1
  | [] => rfl
  | n :: rest => by
    rw [copiedAll_cons, Node.copyAll_cons, afterAll_append, afterAll_copiedIn marks known n,
      copiedIn_snd, afterAll_copiedAll marks _ rest]

end

theorem before_copied (marks : List String) (n : Node) : (copied marks n).before = [n] := by
  cases n with
  | leaf l => exact before_ofNode _
  | block head children => rw [copied, before, beforeAll_copiedAll]

/-- A record of copying has the copied style sheet on one side. -/
theorem after_copied (marks : List String) (n : Node) :
    (copied marks n).after = [n.copyAnimations marks] := by
  cases n with
  | leaf l => exact after_ofNode _
  | block head children => rw [copied, after, afterAll_copiedAll, Node.copyAnimations]

/-! ### Declarations -/

theorem isFresh_map_copy (vendor : Option String) (name : String) (marks : List String)
    (children : List Node) :
    ∀ e ∈ entriesAll vendor (marks.map fun mark => copy name mark (ofNodeAll children)),
      e.IsFresh := by
  induction marks with
  | nil => exact List.forall_mem_nil _
  | cons mark marks ih =>
    rw [List.map_cons, entriesAll, List.forall_mem_append]
    exact ⟨isFresh_ofNodeAll _ children, ih⟩

theorem entriesAll_singleton_block (vendor : Option String) (head : Block) (gs : List Growth) :
    entriesAll vendor [block head gs] = entriesAll (head.vendorWithin vendor) gs := by
  rw [entriesAll, entriesAll, List.append_nil, entries]

mutual

/-- Copying happens to no declaration. -/
theorem isFresh_copiedIn (marks : List String) (known : List Animation) (vendor : Option String) :
    (n : Node) → ∀ e ∈ entriesAll vendor (copiedIn marks known n).1, e.IsFresh
  | .leaf l => isFresh_ofNodeAll vendor [.leaf l]
  | .block head children => by
    obtain ⟨name, rfl⟩ | ⟨name, mark, rfl⟩ | h | h := head.animation_cases
    · rw [copiedIn_unmarked, entriesAll_append, List.forall_mem_append]
      exact ⟨isFresh_map_copy vendor name _ children,
        isFresh_ofNodeAll vendor [.block (.keyframes name none) children]⟩
    · exact isFresh_ofNodeAll vendor [.block (.keyframes name (some mark)) children]
    · rw [copiedIn_of_conditional h, entriesAll_singleton_block]
      exact isFresh_copiedAll marks known _ children
    · rw [copiedIn_of_inert h, entriesAll_singleton_block]
      exact isFresh_ofNodeAll _ children

theorem isFresh_copiedAll (marks : List String) (known : List Animation)
    (vendor : Option String) :
    (ns : List Node) → ∀ e ∈ entriesAll vendor (copiedAll marks known ns).1, e.IsFresh
  | [] => List.forall_mem_nil _
  | n :: rest => by
    rw [copiedAll_cons, entriesAll_append, List.forall_mem_append]
    exact ⟨isFresh_copiedIn marks known vendor n, isFresh_copiedAll marks _ vendor rest⟩

end

/-- Copying happens to no declaration. -/
theorem isFresh_copied (marks : List String) (vendor : Option String) (n : Node) :
    ∀ e ∈ (copied marks n).entries vendor, e.IsFresh := by
  cases n with
  | leaf l => exact isFresh_ofNode vendor _
  | block head children => exact isFresh_copiedAll marks _ _ children

/-! ### Copies -/

theorem copiesAll_map_copy (next : Option Node) (name : String) (marks : List String)
    (children : List Node) :
    copiesAll next (marks.map fun mark => copy name mark (ofNodeAll children)) =
      marks.map fun mark => ⟨name, mark, children, next⟩ := by
  induction marks with
  | nil => rfl
  | cons mark marks ih =>
    rw [List.map_cons, copiesAll, ih, beforeAll_map_copy, copiesIn, copiesAll_ofNodeAll,
      beforeAll_ofNodeAll]
    rfl

theorem copiesAll_singleton_block (next : Option Node) (head : Block) (gs : List Growth) :
    copiesAll next [block head gs] = copiesAll none gs := by
  rw [copiesAll, copiesAll, List.append_nil, copiesIn]

/-- The copies of an animation stand directly in front of it. -/
theorem copiesAll_copiedIn_unmarked (next : Option Node) (marks : List String)
    (known : List Animation) (name : String) (children : List Node) :
    copiesAll next (copiedIn marks known (.block (.keyframes name none) children)).1 =
      (missingMarks marks known name).map fun mark =>
        ⟨name, mark, children, some (.block (.keyframes name none) children)⟩ := by
  rw [copiedIn_unmarked, copiesAll_append, copiesAll_map_copy, copiesAll_singleton_block,
    copiesAll_ofNodeAll, List.append_nil, beforeAll_singleton_block, beforeAll_ofNodeAll]
  rfl

/-- Whether a copy has been put directly in front of what it copies. -/
def Copied.IsNext (c : Copied) : Prop :=
  c.next = some (.block (.keyframes c.name none) c.frames)

mutual

theorem isNext_copiedIn (marks : List String) (known : List Animation) (next : Option Node) :
    (n : Node) → ∀ c ∈ copiesAll next (copiedIn marks known n).1, c.IsNext
  | .leaf l => by
    rw [copiedIn, copiesAll, copiesIn_ofNode]
    exact List.forall_mem_nil _
  | .block head children => by
    obtain ⟨name, rfl⟩ | ⟨name, mark, rfl⟩ | h | h := head.animation_cases
    · rw [copiesAll_copiedIn_unmarked, List.forall_mem_map]
      intro mark _
      rfl
    · rw [copiedIn_marked, copiesAll_singleton_block, copiesAll_ofNodeAll]
      exact List.forall_mem_nil _
    · rw [copiedIn_of_conditional h, copiesAll_singleton_block]
      exact isNext_copiedAll marks known none children
    · rw [copiedIn_of_inert h, copiesAll_singleton_block, copiesAll_ofNodeAll]
      exact List.forall_mem_nil _

theorem isNext_copiedAll (marks : List String) (known : List Animation) (next : Option Node) :
    (ns : List Node) → ∀ c ∈ copiesAll next (copiedAll marks known ns).1, c.IsNext
  | [] => List.forall_mem_nil _
  | n :: rest => by
    rw [copiedAll_cons, copiesAll_append, List.forall_mem_append]
    exact ⟨isNext_copiedIn marks known _ n, isNext_copiedAll marks _ next rest⟩

end

/-- Every copy has been put directly in front of what it copies. -/
theorem isNext_copied (marks : List String) (n : Node) :
    ∀ c ∈ (copied marks n).copies, c.IsNext := by
  cases n with
  | leaf l =>
    rw [copied, copies, copiesIn_ofNode]
    exact List.forall_mem_nil _
  | block head children => exact isNext_copiedAll marks _ none children

/-- The marks of the copies of one animation. -/
def marksOf (name : String) (cs : List Copied) : List String :=
  (cs.filter (·.name == name)).map Copied.mark

theorem marksOf_append (name : String) (cs ds : List Copied) :
    marksOf name (cs ++ ds) = marksOf name cs ++ marksOf name ds := by
  rw [marksOf, marksOf, marksOf, List.filter_append, List.map_append]

theorem marksOf_map (name : String) (marks : List String) (frames : List Node)
    (next : Option Node) : marksOf name (marks.map fun mark => ⟨name, mark, frames, next⟩) = marks := by
  induction marks with
  | nil => rfl
  | cons mark marks ih => simpa [marksOf] using ih

theorem marksOf_map_of_ne {other : String} (h : other ≠ name) (marks : List String)
    (frames : List Node) (next : Option Node) :
    marksOf name (marks.map fun mark => ⟨other, mark, frames, next⟩) = [] := by
  rw [marksOf, List.map_eq_nil_iff, List.filter_eq_nil_iff, List.forall_mem_map]
  intro mark _
  simpa using h

mutual

/-- An animation gets a copy for every mark that is missing when it is met first. -/
theorem marksOf_copiedIn (marks : List String) (known : List Animation) (next : Option Node)
    (name : String) : (n : Node) →
    marksOf name (copiesAll next (copiedIn marks known n).1) =
      if ⟨name, none⟩ ∈ animationsIn n then missingMarks marks known name else []
  | .leaf l => by
    rw [copiedIn, copiesAll, copiesIn_ofNode]
    exact (if_neg List.not_mem_nil).symm
  | .block head children => by
    obtain ⟨other, rfl⟩ | ⟨other, mark, rfl⟩ | h | h := head.animation_cases
    · rw [copiesAll_copiedIn_unmarked, Node.animationsIn_keyframes]
      by_cases hname : other = name
      · rw [if_pos (by simp [hname]), hname, marksOf_map]
      · rw [if_neg (by simp [Ne.symm hname]), marksOf_map_of_ne hname]
    · rw [copiedIn_marked, copiesAll_singleton_block, copiesAll_ofNodeAll,
        Node.animationsIn_keyframes, if_neg (by simp)]
      rfl
    · rw [copiedIn_of_conditional h, copiesAll_singleton_block, Node.animationsIn_of_conditional h]
      exact marksOf_copiedAll marks known none name children
    · rw [copiedIn_of_inert h, copiesAll_singleton_block, copiesAll_ofNodeAll,
        Node.animationsIn_of_inert h, if_neg List.not_mem_nil]
      rfl

theorem marksOf_copiedAll (marks : List String) (known : List Animation) (next : Option Node)
    (name : String) : (ns : List Node) →
    marksOf name (copiesAll next (copiedAll marks known ns).1) =
      if ⟨name, none⟩ ∈ animationsAll ns then missingMarks marks known name else []
  | [] => (if_neg List.not_mem_nil).symm
  | n :: rest => by
    rw [copiedAll_cons, copiesAll_append, marksOf_append, animationsAll,
      marksOf_copiedIn marks known _ name n, copiedIn_snd,
      marksOf_copiedAll marks _ next name rest, missingMarks_copyIn]
    by_cases hfirst : ⟨name, none⟩ ∈ animationsIn n
    · simp [hfirst]
    · simp [hfirst]

end

/-- An animation gets a copy for every mark for which the style sheet has none. -/
theorem marksOf_copied (marks : List String) (name : String) (n : Node) :
    marksOf name (copied marks n).copies =
      if ⟨name, none⟩ ∈ n.animations then missingMarks marks n.animations name else [] := by
  cases n with
  | leaf l =>
    rw [copied, copies, copiesIn_ofNode]
    exact (if_neg List.not_mem_nil).symm
  | block head children => exact marksOf_copiedAll marks _ none name children

mutual

/-- Every copy is an animation more. -/
theorem length_animationsAll_copyIn (marks : List String) (known : List Animation)
    (next : Option Node) : (n : Node) →
    (animationsAll (copyIn marks known n).1).length =
      (animationsIn n).length + (copiesAll next (copiedIn marks known n).1).length
  | .leaf l => by
    rw [copiedIn, copiesAll, copiesIn_ofNode]
    rfl
  | .block head children => by
    obtain ⟨name, rfl⟩ | ⟨name, mark, rfl⟩ | h | h := head.animation_cases
    · rw [Node.copyIn_unmarked, copiesAll_copiedIn_unmarked, Node.animationsAll_append,
        Node.animationsAll_copies, Node.animationsAll_singleton, List.length_append,
        List.length_map, List.length_map, Nat.add_comm]
    · rw [copiedIn_marked, copiesAll_singleton_block, copiesAll_ofNodeAll]
      rfl
    · rw [Node.copyIn_of_conditional h, copiedIn_of_conditional h, copiesAll_singleton_block,
        Node.animationsAll_singleton, Node.animationsIn_of_conditional h,
        Node.animationsIn_of_conditional h]
      exact length_animationsAll_copyAll marks known none children
    · rw [Node.copyIn_of_inert h, copiedIn_of_inert h, copiesAll_singleton_block,
        copiesAll_ofNodeAll, Node.animationsAll_singleton]
      rfl

theorem length_animationsAll_copyAll (marks : List String) (known : List Animation)
    (next : Option Node) : (ns : List Node) →
    (animationsAll (copyAll marks known ns).1).length =
      (animationsAll ns).length + (copiesAll next (copiedAll marks known ns).1).length
  | [] => rfl
  | n :: rest => by
    have hfirst := length_animationsAll_copyIn marks known
      ((beforeAll (copiedAll marks (copyIn marks known n).2 rest).1).head? <|> next) n
    rw [Node.copyAll_cons, copiedAll_cons, copiesAll_append, Node.animationsAll_append,
      animationsAll, List.length_append, List.length_append, List.length_append, copiedIn_snd,
      length_animationsAll_copyAll marks _ next rest]
    omega

end

/-- Every copy is an animation more. -/
theorem length_animations_copyAnimations (marks : List String) (n : Node) :
    (n.copyAnimations marks).animations.length =
      n.animations.length + (copied marks n).copies.length := by
  cases n with
  | leaf l =>
    rw [copied, copies, copiesIn_ofNode]
    rfl
  | block head children => exact length_animationsAll_copyAll marks _ none children

/-! ## Weaving -/

section Weaving

variable (same : Declaration → Declaration → Bool)

/-- What weaving makes of the declarations in front of another one.  `later` holds the
declarations behind them. -/
def weaveRow (forms : Declaration → List Declaration × Declaration)
    (before later : List Declaration) : List Declaration → List Declaration
  | [] => []
  | d :: row =>
    let new := missing same (before ++ d :: (row ++ later)) (forms d).1
    new ++ (forms d).2 :: weaveRow forms (before ++ new ++ [(forms d).2]) later row

/-- Weaving goes through declarations in a row first. -/
theorem weaveFrom_map_leaf_append (forms : Declaration → List Declaration × Declaration)
    (before row : List Declaration) (ns : List Node) :
    weaveFrom same forms before (row.map (.leaf ∘ .declaration) ++ ns) =
      (weaveRow same forms before (declarations ns) row).map (.leaf ∘ .declaration) ++
        weaveFrom same forms (before ++ weaveRow same forms before (declarations ns) row) ns := by
  induction row generalizing before with
  | nil => rw [weaveRow, List.map_nil, List.nil_append, List.nil_append, List.append_nil]
  | cons d row ih =>
    have hfront : (d :: row).map (Node.leaf ∘ .declaration) ++ ns =
        .leaf (.declaration d) :: (row.map (Node.leaf ∘ .declaration) ++ ns) := rfl
    have hlater : declarations (row.map (Node.leaf ∘ .declaration) ++ ns) = row ++ declarations ns := by
      rw [Node.declarations_append, Node.declarations_map_leaf]
    rw [hfront, Node.weaveFrom_cons_leaf, Node.news, hlater, ih, weaveRow]
    simp

/-- A declaration in front of another one is woven from one that was there. -/
theorem mem_weaveRow {forms : Declaration → List Declaration × Declaration}
    {before later row : List Declaration} {x : Declaration}
    (h : x ∈ weaveRow same forms before later row) :
    ∃ d ∈ row, x ∈ (forms d).1 ∨ x = (forms d).2 := by
  induction row generalizing before with
  | nil => exact absurd h List.not_mem_nil
  | cons d row ih =>
    rw [weaveRow, List.mem_append, List.mem_cons] at h
    rcases h with h | rfl | h
    · exact ⟨d, List.mem_cons_self, .inl ((Node.sublist_missing _ _ _).subset h)⟩
    · exact ⟨d, List.mem_cons_self, .inr rfl⟩
    · obtain ⟨e, he, hx⟩ := ih h
      exact ⟨e, List.mem_cons_of_mem d he, hx⟩

variable (forms : Option String → Declaration → List Declaration × Declaration)

mutual

/-- A record in which the declarations inside of the node are woven. -/
def woven (vendor : Option String) : Growth → Growth
  | block head children => block head (wovenAll (head.vendorWithin vendor) [] children)
  | copy name mark frames => copy name mark (wovenAll (some mark) [] frames)
  | g => g

/-- Records whose declarations are woven.  `before` holds the declarations of the part
that is done. -/
def wovenAll (vendor : Option String) (before : List Declaration) : List Growth → List Growth
  | [] => []
  | g :: rest =>
    match g with
    | declaration front old new =>
      let later := declarations (afterAll rest)
      let row := weaveRow same (forms vendor) before (new :: later) front
      let own := missing same (before ++ row ++ new :: later) (forms vendor new).1
      declaration (row ++ own) old (forms vendor new).2 ::
        wovenAll vendor (before ++ row ++ own ++ [(forms vendor new).2]) rest
    | g => woven vendor g :: wovenAll vendor before rest

end

theorem wovenAll_cons_declaration (vendor : Option String) (before front : List Declaration)
    (old new : Declaration) (rest : List Growth) :
    wovenAll same forms vendor before (declaration front old new :: rest) =
      let later := declarations (afterAll rest)
      let row := weaveRow same (forms vendor) before (new :: later) front
      let own := missing same (before ++ row ++ new :: later) (forms vendor new).1
      declaration (row ++ own) old (forms vendor new).2 ::
        wovenAll same forms vendor (before ++ row ++ own ++ [(forms vendor new).2]) rest :=
  rfl

/-- Whether a record is one of a declaration. -/
def isDeclaration : Growth → Bool
  | declaration .. => true
  | _ => false

theorem eq_declaration_or (g : Growth) :
    (∃ front old new, g = declaration front old new) ∨ g.isDeclaration = false := by
  cases g with
  | declaration front old new => exact .inl ⟨front, old, new, rfl⟩
  | comment text => exact .inr rfl
  | statement kind text => exact .inr rfl
  | block head children => exact .inr rfl
  | copy name mark frames => exact .inr rfl

theorem isDeclaration_woven (vendor : Option String) (g : Growth) :
    (woven same forms vendor g).isDeclaration = g.isDeclaration := by
  cases g <;> rfl

theorem wovenAll_cons_of_not (vendor : Option String) (before : List Declaration) {g : Growth}
    (h : g.isDeclaration = false) (rest : List Growth) :
    wovenAll same forms vendor before (g :: rest) =
      woven same forms vendor g :: wovenAll same forms vendor before rest := by
  cases g <;> first | rfl | cases h

/-! ### Erasing -/

mutual

/-- Weaving happens after what stood there. -/
theorem before_woven (vendor : Option String) : (g : Growth) →
    (woven same forms vendor g).before = g.before
  | comment _ => rfl
  | statement .. => rfl
  | declaration .. => rfl
  | copy .. => rfl
  | block head children => by rw [woven, before, before, beforeAll_wovenAll _ [] children]

theorem beforeAll_wovenAll (vendor : Option String) (known : List Declaration) :
    (gs : List Growth) → beforeAll (wovenAll same forms vendor known gs) = beforeAll gs
  | [] => rfl
  | g :: rest => by
    obtain ⟨front, old, new, rfl⟩ | hg := g.eq_declaration_or
    · rw [wovenAll_cons_declaration]
      dsimp only
      rw [beforeAll, beforeAll, beforeAll_wovenAll vendor _ rest]
      rfl
    · rw [wovenAll_cons_of_not same forms vendor known hg, beforeAll, beforeAll,
        before_woven vendor g, beforeAll_wovenAll vendor known rest]

end

/-- The pass that weaves all blocks of a tree. -/
abbrev weavePass (vendor : Option String) (ns : List Node) : List Node :=
  weave same (forms vendor) ns

theorem declarations_after_of_not {g : Growth} (h : g.isDeclaration = false) :
    declarations g.after = [] := by
  cases g <;> first | rfl | cases h

theorem mapContentsAll_map_leaf (vendor : Option String) (ds : List Declaration)
    (f : Option String → List Node → List Node) :
    mapContentsAll f vendor (ds.map (.leaf ∘ .declaration)) = ds.map (.leaf ∘ .declaration) := by
  rw [Node.mapContentsAll_eq_flatMap,
    (Node.keepsDeclarations_mapContents vendor).flatMap_map_leaf]

mutual

/-- Weaving a record weaves the node after. -/
theorem after_woven (vendor : Option String) : (g : Growth) →
    (woven same forms vendor g).after = mapContentsAll (weavePass same forms) vendor g.after
  | comment _ => rfl
  | statement .. => rfl
  | declaration front old new => by
    rw [woven, after, mapContentsAll_append, mapContentsAll_map_leaf]
    · rfl
    all_goals exact nofun
  | block head children => by
    rw [woven, after, after, afterAll_wovenAll _ [] children]
    rfl
  | copy name mark frames => by
    rw [woven, after, after, afterAll_wovenAll _ [] frames]
    rfl

theorem afterAll_wovenAll (vendor : Option String) (known : List Declaration) :
    (gs : List Growth) → afterAll (wovenAll same forms vendor known gs) =
      weaveFrom same (forms vendor) known
        (mapContentsAll (weavePass same forms) vendor (afterAll gs))
  | [] => rfl
  | g :: rest => by
    obtain ⟨front, old, new, rfl⟩ | hg := g.eq_declaration_or
    · have hlater : declarations (.leaf (.declaration new) ::
          mapContentsAll (weavePass same forms) vendor (afterAll rest)) =
            new :: declarations (afterAll rest) := by
        rw [Node.declarations_cons_leaf, Node.declarations_mapContentsAll]
      have hafter : mapContentsAll (weavePass same forms) vendor
          (afterAll (declaration front old new :: rest)) =
            front.map (.leaf ∘ .declaration) ++ .leaf (.declaration new) ::
              mapContentsAll (weavePass same forms) vendor (afterAll rest) := by
        rw [afterAll, after, mapContentsAll_append, mapContentsAll_append,
          mapContentsAll_map_leaf, List.append_assoc]
        rfl
      rw [wovenAll_cons_declaration, hafter, weaveFrom_map_leaf_append, hlater,
        Node.weaveFrom_cons_leaf, Node.news, Node.declarations_mapContentsAll]
      dsimp only
      rw [afterAll, after, afterAll_wovenAll vendor _ rest]
      simp
    · have hnone : declarations (mapContentsAll (weavePass same forms) vendor g.after) = [] := by
        rw [Node.declarations_mapContentsAll, declarations_after_of_not hg]
      rw [wovenAll_cons_of_not same forms vendor known hg, afterAll, afterAll,
        mapContentsAll_append, Node.weaveFrom_append_of_declarations_nil hnone,
        after_woven vendor g, afterAll_wovenAll vendor known rest]

end

/-! ### Declarations -/

/-- Whether weaving makes the second declaration of a record out of the first one. -/
structure Entry.Grows (forms : Option String → Declaration → List Declaration × Declaration)
    (e f : Entry) : Prop where
  vendor_eq : f.vendor = e.vendor
  old_eq : f.old = e.old
  new_eq : f.new = (forms e.vendor e.new).2
  /-- What stands in front belongs to what stood in front or to the declaration. -/
  front : ∀ x ∈ f.front,
    (∃ y ∈ e.front, x ∈ (forms e.vendor y).1 ∨ x = (forms e.vendor y).2) ∨
      x ∈ (forms e.vendor e.new).1

mutual

/-- Weaving a record weaves its declarations one by one. -/
theorem grows_woven (vendor : Option String) : (g : Growth) → g.isDeclaration = false →
    List.Forall₂ (Entry.Grows forms) (g.entries vendor) ((woven same forms vendor g).entries vendor)
  | comment _, _ => .nil
  | statement .., _ => .nil
  | block head children, _ => by
    rw [woven, entries, entries]
    exact grows_wovenAll _ [] children
  | copy name mark frames, _ => by
    rw [woven, entries, entries]
    exact grows_wovenAll _ [] frames

theorem grows_wovenAll (vendor : Option String) (known : List Declaration) : (gs : List Growth) →
    List.Forall₂ (Entry.Grows forms) (entriesAll vendor gs)
      (entriesAll vendor (wovenAll same forms vendor known gs))
  | [] => .nil
  | g :: rest => by
    obtain ⟨front, old, new, rfl⟩ | hg := g.eq_declaration_or
    · rw [wovenAll_cons_declaration, entriesAll, entriesAll, entries, entries]
      refine .cons ⟨rfl, rfl, rfl, fun x hx => ?_⟩ (grows_wovenAll vendor _ rest)
      rcases List.mem_append.mp hx with hx | hx
      · exact .inl (mem_weaveRow same hx)
      · exact .inr ((Node.sublist_missing _ _ _).subset hx)
    · rw [wovenAll_cons_of_not same forms vendor known hg, entriesAll, entriesAll]
      exact List.rel_append (grows_woven vendor g hg) (grows_wovenAll vendor known rest)

end

theorem exists_of_forall₂ {α β : Type} {r : α → β → Prop} {as : List α} {bs : List β} {b : β}
    (h : List.Forall₂ r as bs) (hb : b ∈ bs) : ∃ a ∈ as, r a b := by
  induction h with
  | nil => exact absurd hb List.not_mem_nil
  | @cons a c as bs hac _ ih =>
    rcases List.mem_cons.mp hb with rfl | hb
    · exact ⟨a, List.mem_cons_self, hac⟩
    · obtain ⟨a', ha', hr⟩ := ih hb
      exact ⟨a', List.mem_cons_of_mem a ha', hr⟩

/-- Every declaration of a woven record is woven from one that was there. -/
theorem exists_grows_of_mem_woven {vendor : Option String} {g : Growth} {f : Entry}
    (hg : g.isDeclaration = false) (h : f ∈ (woven same forms vendor g).entries vendor) :
    ∃ e ∈ g.entries vendor, e.Grows forms f :=
  exists_of_forall₂ (grows_woven same forms vendor g hg) h

theorem map_old_of_grows {es fs : List Entry} (h : List.Forall₂ (Entry.Grows forms) es fs) :
    fs.map Entry.old = es.map Entry.old := by
  induction h with
  | nil => rfl
  | cons hgrows _ ih => rw [List.map_cons, List.map_cons, ih, hgrows.old_eq]

/-- Weaving a record makes no declaration of its own. -/
theorem map_old_entries_woven (vendor : Option String) (g : Growth) :
    ((woven same forms vendor g).entries vendor).map Entry.old =
      (g.entries vendor).map Entry.old := by
  obtain ⟨front, old, new, rfl⟩ | hg := g.eq_declaration_or
  · rfl
  · exact map_old_of_grows forms (grows_woven same forms vendor g hg)

/-! ### Copies -/

mutual

/-- Weaving keeps all copies. -/
theorem copiesIn_woven (vendor : Option String) (next : Option Node) : (g : Growth) →
    copiesIn next (woven same forms vendor g) = copiesIn next g
  | comment _ => rfl
  | statement .. => rfl
  | declaration .. => rfl
  | block head children => by
    rw [woven, copiesIn, copiesIn, copiesAll_wovenAll _ [] none children]
  | copy name mark frames => by
    rw [woven, copiesIn, copiesIn, beforeAll_wovenAll, copiesAll_wovenAll _ [] none frames]

theorem copiesAll_wovenAll (vendor : Option String) (known : List Declaration)
    (next : Option Node) : (gs : List Growth) →
    copiesAll next (wovenAll same forms vendor known gs) = copiesAll next gs
  | [] => rfl
  | g :: rest => by
    obtain ⟨front, old, new, rfl⟩ | hg := g.eq_declaration_or
    · rw [wovenAll_cons_declaration]
      dsimp only
      rw [copiesAll, copiesAll, copiesAll_wovenAll vendor _ next rest]
      rfl
    · rw [wovenAll_cons_of_not same forms vendor known hg, copiesAll, copiesAll,
        beforeAll_wovenAll, copiesIn_woven vendor _ g, copiesAll_wovenAll vendor known next rest]

end

end Weaving

end Growth
end VendorPrefixing
