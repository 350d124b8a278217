import VendorPrefixing.Marking.Statistics
import VendorPrefixing.Proofs.Sheet.Animation

/-!
# Going from declaration to declaration

A style sheet can be changed on a way through it that comes to one declaration after the other,
in the order of the text, and takes something along, such as what has been counted so far.
Passes over the contents of blocks can be made that way.  There is another way, from animation
to animation.

Main results:

- Theorem `Node.walk_weave`: weaving declarations in on the way, and counting them.
- Theorem `Node.walk_filter`: taking declarations out on the way, and counting them.
- Theorem `Node.walk_any`: looking for a declaration on the way.
- Theorems `Node.tour_copy` and `Node.tour_drop`: copying and dropping animations on the way, and
  counting them.
-/

namespace VendorPrefixing

namespace Statistics

/-- So many declarations have been added. -/
def ofAdded (count : Nat) : Statistics :=
  { zero with declarationsAdded := count }

/-- So many declarations have been removed. -/
def ofRemoved (count : Nat) : Statistics :=
  { zero with declarationsRemoved := count }

/-- So many animations have been copied. -/
def ofCopied (count : Nat) : Statistics :=
  { zero with keyframesAdded := count }

/-- So many animations have been dropped. -/
def ofDropped (count : Nat) : Statistics :=
  { zero with keyframesRemoved := count }

theorem merge_ofAdded_add (s : Statistics) (j k : Nat) :
    (s.merge (ofAdded j)).merge (ofAdded k) = s.merge (ofAdded (j + k)) :=
  merge_assoc s (ofAdded j) (ofAdded k)

theorem merge_ofRemoved_add (s : Statistics) (j k : Nat) :
    (s.merge (ofRemoved j)).merge (ofRemoved k) = s.merge (ofRemoved (j + k)) :=
  merge_assoc s (ofRemoved j) (ofRemoved k)

theorem merge_ofCopied_add (s : Statistics) (j k : Nat) :
    (s.merge (ofCopied j)).merge (ofCopied k) = s.merge (ofCopied (j + k)) :=
  merge_assoc s (ofCopied j) (ofCopied k)

theorem merge_ofDropped_add (s : Statistics) (j k : Nat) :
    (s.merge (ofDropped j)).merge (ofDropped k) = s.merge (ofDropped (j + k)) :=
  merge_assoc s (ofDropped j) (ofDropped k)

theorem ofCopied_merge_ofAdded (j k : Nat) : (ofCopied j).merge (ofAdded k) =
    { zero with declarationsAdded := k, keyframesAdded := j } := by
  simp [merge, ofCopied, ofAdded, zero]

theorem ofDropped_merge_ofRemoved (j k : Nat) : (ofDropped j).merge (ofRemoved k) =
    { zero with declarationsRemoved := k, keyframesRemoved := j } := by
  simp [merge, ofDropped, ofRemoved, zero]

end Statistics

namespace Node

variable {α : Type}

/-- What comes to stand in the place of a declaration, and what is taken along from there.  It
may depend on whose browsers read the declaration, on the ones that its block has at that time,
and on what was taken along so far. -/
abbrev Turn (α : Type) :=
  Option String → List Declaration → Declaration → α → List Declaration × α

section

variable (turn : Turn α)

mutual

/-- Goes through a tree that belongs to `vendor` from left to right. -/
def walk (vendor : Option String) (a : α) : Node → Node × α
  | leaf l => (leaf l, a)
  | block head children =>
    let (children, a) := walkAll (head.vendorWithin vendor) [] a children
    (block head children, a)

/-- Goes through the trees in a block, where `before` holds the declarations of the part that
is done. -/
def walkAll (vendor : Option String) (before : List Declaration) (a : α) :
    List Node → List Node × α
  | [] => ([], a)
  | n :: rest =>
    match n.declaration? with
    | some d =>
      let (now, a) := turn vendor (before ++ declarations (n :: rest)) d a
      let (rest, a) := walkAll vendor (before ++ now) a rest
      (now.map (leaf ∘ .declaration) ++ rest, a)
    | none =>
      let (n, a) := walk vendor a n
      let (rest, a) := walkAll vendor before a rest
      (n :: rest, a)

end

end

variable {turn : Turn α} {vendor : Option String} {before : List Declaration} {a : α} {n : Node}

theorem walkAll_cons_declaration (d : Declaration) (rest : List Node) :
    walkAll turn vendor before a (leaf (.declaration d) :: rest) =
      let now := turn vendor (before ++ d :: declarations rest) d a
      let after := walkAll turn vendor (before ++ now.1) now.2 rest
      (now.1.map (leaf ∘ .declaration) ++ after.1, after.2) :=
  rfl

theorem walkAll_cons_of_none (h : n.declaration? = none) (rest : List Node) :
    walkAll turn vendor before a (n :: rest) =
      let first := walk turn vendor a n
      let after := walkAll turn vendor before first.2 rest
      (first.1 :: after.1, after.2) := by
  rw [walkAll, h]

/-- What is a declaration stays the same declaration. -/
theorem declaration?_walk (turn : Turn α) (vendor : Option String) (a : α) (n : Node) :
    (n.walk turn vendor a).1.declaration? = n.declaration? := by
  cases n <;> rfl

/-- What becomes of the first one of the trees in a block, where `rest` holds the others. -/
def walkFirst (turn : Turn α) (vendor : Option String) (before : List Declaration) (a : α)
    (n : Node) (rest : List Node) : List Node × α :=
  match n.declaration? with
  | some d =>
    let (now, a) := turn vendor (before ++ d :: declarations rest) d a
    (now.map (leaf ∘ .declaration), a)
  | none =>
    let (n, a) := n.walk turn vendor a
    ([n], a)

/-- The first tree is gone through before the others. -/
theorem walkAll_cons (turn : Turn α) (vendor : Option String) (before : List Declaration) (a : α)
    (n : Node) (rest : List Node) :
    walkAll turn vendor before a (n :: rest) =
      let first := walkFirst turn vendor before a n rest
      let after := walkAll turn vendor (before ++ declarations first.1) first.2 rest
      (first.1 ++ after.1, after.2) := by
  cases hn : n.declaration? with
  | some d =>
    obtain rfl := declaration?_eq_some.mp hn
    rw [walkAll_cons_declaration, walkFirst]
    simp only [declaration?, declarations_map_leaf]
  | none =>
    have hnone := (declaration?_walk turn vendor a n).trans hn
    rw [walkAll_cons_of_none hn, walkFirst, hn]
    dsimp only
    rw [declarations_cons_of_none hnone, declarations_nil, List.append_nil, List.singleton_append]

/-! ## Weaving -/

section Weave

variable (same : Declaration → Declaration → Bool)
  (forms : Option String → Declaration → List Declaration × Declaration)

/-- Puts the forms of a declaration in front of it that its block has not got yet. -/
def weaveTurn : Turn Statistics :=
  fun vendor known d s =>
    let new := missing same known (forms vendor d).1
    (new ++ [(forms vendor d).2], s.merge (.ofAdded new.length))

mutual

theorem exists_walk_weave (vendor : Option String) (s : Statistics) : (n : Node) →
    ∃ k, n.walk (weaveTurn same forms) vendor s =
        (n.mapContents (fun vendor => weave same (forms vendor)) vendor, s.merge (.ofAdded k)) ∧
      (n.mapContents (fun vendor => weave same (forms vendor)) vendor).declarationCount =
        n.declarationCount + k
  | leaf _ => ⟨0, rfl, rfl⟩
  | block head children => by
    obtain ⟨k, hwalk, hcount⟩ := exists_walkAll_weave (head.vendorWithin vendor) [] s children
    refine ⟨k, ?_, hcount⟩
    rw [walk, hwalk, mapContents, weave]

theorem exists_walkAll_weave (vendor : Option String) (before : List Declaration)
    (s : Statistics) : (ns : List Node) →
    let after := weaveFrom same (forms vendor) before
      (mapContentsAll (fun vendor => weave same (forms vendor)) vendor ns)
    ∃ k, walkAll (weaveTurn same forms) vendor before s ns = (after, s.merge (.ofAdded k)) ∧
      declarationCountAll after = declarationCountAll ns + k
  | [] => ⟨0, rfl, rfl⟩
  | n :: rest => by
    rw [mapContentsAll]
    cases hn : n.declaration? with
    | some d =>
      obtain rfl := declaration?_eq_some.mp hn
      let new := news same (forms vendor) before d rest
      have hnews : news same (forms vendor) before d
          (mapContentsAll (fun vendor => weave same (forms vendor)) vendor rest) = new := by
        rw [news, declarations_mapContentsAll]
      obtain ⟨k, hwalk, hcount⟩ := exists_walkAll_weave vendor
        (before ++ (new ++ [(forms vendor d).2])) (s.merge (.ofAdded new.length)) rest
      rw [← List.append_assoc] at hcount
      refine ⟨new.length + k, ?_, ?_⟩
      · have hturn : weaveTurn same forms vendor (before ++ d :: declarations rest) d s =
            (new ++ [(forms vendor d).2], s.merge (.ofAdded new.length)) := rfl
        rw [mapContents, weaveFrom_cons_leaf, hnews, walkAll_cons_declaration, hturn]
        dsimp only
        rw [hwalk, ← List.append_assoc before, List.map_append, List.append_assoc,
          Statistics.merge_ofAdded_add]
        rfl
      · rw [mapContents, weaveFrom_cons_leaf, hnews, declarationCountAll_append,
          declarationCountAll_map_leaf, declarationCountAll, declarationCountAll, hcount,
          declarationCount_leaf_declaration, declarationCount_leaf_declaration]
        omega
    | none =>
      obtain ⟨j, hfirst, hj⟩ := exists_walk_weave vendor s n
      obtain ⟨k, hrest, hk⟩ := exists_walkAll_weave vendor before (s.merge (.ofAdded j)) rest
      have hnone := (declaration?_mapContents (fun vendor => weave same (forms vendor)) vendor n).trans hn
      refine ⟨j + k, ?_, ?_⟩
      · rw [walkAll_cons_of_none hn, hfirst, weaveFrom_cons_of_none hnone]
        dsimp only
        rw [hrest, Statistics.merge_ofAdded_add]
      · rw [weaveFrom_cons_of_none hnone, declarationCountAll, declarationCountAll, hj, hk]
        omega

end

/-- Weaving declarations in on the way, and counting them. -/
theorem walk_weave (vendor : Option String) (s : Statistics) (n : Node) :
    let after := n.mapContents (fun vendor => weave same (forms vendor)) vendor
    n.walk (weaveTurn same forms) vendor s =
      (after, s.merge (.ofAdded (after.declarationCount - n.declarationCount))) := by
  obtain ⟨k, hwalk, hcount⟩ := exists_walk_weave same forms vendor s n
  dsimp only
  rw [hwalk, hcount, Nat.add_sub_cancel_left]

end Weave

/-! ## Filtering -/

section Filter

variable (useless : Declaration → Bool)

/-- Takes a declaration out if it is useless. -/
def filterTurn : Turn Statistics :=
  fun _ _ d s => if useless d then ([], s.merge (.ofRemoved 1)) else ([d], s)

mutual

theorem exists_walk_filter (vendor : Option String) (s : Statistics) : (n : Node) →
    let after := n.mapContents (fun _ => (·.filter fun n => !n.declaration?.any useless)) vendor
    ∃ k, n.walk (filterTurn useless) vendor s = (after, s.merge (.ofRemoved k)) ∧
      n.declarationCount = after.declarationCount + k
  | leaf _ => ⟨0, rfl, rfl⟩
  | block head children => by
    obtain ⟨k, hwalk, hcount⟩ := exists_walkAll_filter (head.vendorWithin vendor) [] s children
    refine ⟨k, ?_, hcount⟩
    rw [walk, hwalk, mapContents]

theorem exists_walkAll_filter (vendor : Option String) (before : List Declaration)
    (s : Statistics) : (ns : List Node) →
    let after := (mapContentsAll (fun _ => (·.filter fun n => !n.declaration?.any useless))
      vendor ns).filter fun n => !n.declaration?.any useless
    ∃ k, walkAll (filterTurn useless) vendor before s ns = (after, s.merge (.ofRemoved k)) ∧
      declarationCountAll ns = declarationCountAll after + k
  | [] => ⟨0, rfl, rfl⟩
  | n :: rest => by
    rw [mapContentsAll]
    cases hn : n.declaration? with
    | some d =>
      obtain rfl := declaration?_eq_some.mp hn
      rw [mapContents, walkAll_cons_declaration, declarationCountAll,
        declarationCount_leaf_declaration]
      cases hd : useless d with
      | true =>
        obtain ⟨k, hwalk, hcount⟩ := exists_walkAll_filter vendor (before ++ [])
          (s.merge (.ofRemoved 1)) rest
        have hturn : filterTurn useless vendor (before ++ d :: declarations rest) d s =
            ([], s.merge (.ofRemoved 1)) := by rw [filterTurn, if_pos hd]
        rw [List.filter_cons_of_neg (by simp [declaration?, hd]), hturn]
        refine ⟨1 + k, ?_, ?_⟩
        · dsimp only
          rw [hwalk, Statistics.merge_ofRemoved_add]
          rfl
        · rw [hcount]
          omega
      | false =>
        obtain ⟨k, hwalk, hcount⟩ := exists_walkAll_filter vendor (before ++ [d]) s rest
        have hturn : filterTurn useless vendor (before ++ d :: declarations rest) d s =
            ([d], s) := by rw [filterTurn, if_neg (Bool.eq_false_iff.mp hd)]
        rw [List.filter_cons_of_pos (by simp [declaration?, hd]), hturn]
        refine ⟨k, ?_, ?_⟩
        · dsimp only
          rw [hwalk]
          rfl
        · rw [declarationCountAll, declarationCount_leaf_declaration, hcount]
          omega
    | none =>
      obtain ⟨j, hfirst, hj⟩ := exists_walk_filter vendor s n
      obtain ⟨k, hrest, hk⟩ := exists_walkAll_filter vendor before (s.merge (.ofRemoved j)) rest
      have hnone := (declaration?_mapContents
        (fun _ => (·.filter fun n => !n.declaration?.any useless)) vendor n).trans hn
      rw [walkAll_cons_of_none hn, hfirst, List.filter_cons_of_pos (by simp [hnone])]
      refine ⟨j + k, ?_, ?_⟩
      · dsimp only
        rw [hrest, Statistics.merge_ofRemoved_add]
      · rw [declarationCountAll, declarationCountAll, hj, hk]
        omega

end

/-- Taking declarations out on the way, and counting them. -/
theorem walk_filter (vendor : Option String) (s : Statistics) (n : Node) :
    let after := n.mapContents (fun _ => (·.filter fun n => !n.declaration?.any useless)) vendor
    n.walk (filterTurn useless) vendor s =
      (after, s.merge (.ofRemoved (n.declarationCount - after.declarationCount))) := by
  obtain ⟨k, hwalk, hcount⟩ := exists_walk_filter useless vendor s n
  dsimp only
  rw [hwalk, hcount, Nat.add_sub_cancel_left]

end Filter

/-! ## Looking for a declaration -/

section Any

variable (test : Option String → Declaration → Bool)

/-- Leaves a declaration as it is and tells whether it or one before passes a test. -/
def anyTurn : Turn Bool :=
  fun vendor _ d found => ([d], found || test vendor d)

mutual

/-- Looking for a declaration on the way. -/
theorem walk_any (vendor : Option String) (found : Bool) :
    (n : Node) → n.declaration? = none →
    n.walk (anyTurn test) vendor found =
      (n, found || (n.placed vendor).any fun x => test x.1 x.2)
  | leaf l, hn => by
    cases l with
    | declaration d => cases hn
    | comment text => simp [walk, placed]
    | statement kind text => simp [walk, placed]
  | block head children, _ => by
    rw [walk, walkAll_any (head.vendorWithin vendor) [] found children, placed]

theorem walkAll_any (vendor : Option String) (before : List Declaration) (found : Bool) :
    (ns : List Node) → walkAll (anyTurn test) vendor before found ns =
      (ns, found || (placedAll vendor ns).any fun x => test x.1 x.2)
  | [] => by simp [walkAll, placedAll]
  | n :: rest => by
    rw [placedAll, List.any_append, ← Bool.or_assoc]
    cases hn : n.declaration? with
    | some d =>
      obtain rfl := declaration?_eq_some.mp hn
      rw [walkAll_cons_declaration, anyTurn]
      dsimp only
      rw [walkAll_any vendor (before ++ [d]) _ rest]
      simp [placed]
    | none =>
      rw [walkAll_cons_of_none hn, walk_any vendor found n hn]
      dsimp only
      rw [walkAll_any vendor before _ rest]

end

end Any

/-! ## From animation to animation -/

/-- What comes to stand in the place of an animation with the given frames, and what is taken
along from there. -/
abbrev AnimationTurn (α : Type) :=
  Animation → List Node → α → List Node × α

section

variable (turn : AnimationTurn α)

mutual

/-- Goes through a node of a list. -/
def tourIn (a : α) : Node → List Node × α
  | leaf l => ([leaf l], a)
  | block head children =>
    match head with
    | .keyframes name vendor => turn ⟨name, vendor⟩ children a
    | head =>
      if head.isConditional then
        let (children, a) := tourAll a children
        ([block head children], a)
      else ([block head children], a)

/-- Goes through the nodes of a list from left to right. -/
def tourAll (a : α) : List Node → List Node × α
  | [] => ([], a)
  | n :: rest =>
    let (front, a) := tourIn a n
    let (back, a) := tourAll a rest
    (front ++ back, a)

end

/-- Goes through a style sheet. -/
def tour (a : α) : Node → Node × α
  | leaf l => (leaf l, a)
  | block head children =>
    let (children, a) := tourAll turn a children
    (block head children, a)

end

section Tour

variable {turn : AnimationTurn α} {head : Block}

theorem tourIn_of_conditional (h : head.isConditional = true) (a : α) (children : List Node) :
    tourIn turn a (block head children) =
      ([(tour turn a (block head children)).1], (tour turn a (block head children)).2) := by
  cases head <;> first | rfl | cases h

theorem tourIn_of_inert (h : head.isInert = true) (a : α) (children : List Node) :
    tourIn turn a (block head children) = ([block head children], a) := by
  cases head <;> first | rfl | cases h

theorem tourAll_cons (a : α) (n : Node) (rest : List Node) :
    tourAll turn a (n :: rest) =
      let first := tourIn turn a n
      let after := tourAll turn first.2 rest
      (first.1 ++ after.1, after.2) :=
  rfl

theorem tourAll_singleton (a : α) (n : Node) : tourAll turn a [n] = tourIn turn a n := by
  rw [tourAll_cons]
  exact Prod.ext (List.append_nil _) rfl

theorem tourAll_append (a : α) (ns ms : List Node) :
    tourAll turn a (ns ++ ms) =
      let first := tourAll turn a ns
      let after := tourAll turn first.2 ms
      (first.1 ++ after.1, after.2) := by
  induction ns generalizing a with
  | nil => rfl
  | cons n ns ih =>
    rw [List.cons_append, tourAll_cons, tourAll_cons]
    dsimp only
    rw [ih, List.append_assoc]

end Tour

/-! ## Copying animations -/

section Copy

variable (marks : List String)

/-- Puts a copy for each mark in front of an animation without one, unless such an animation is
known, and makes the copies known. -/
def copyTurn : AnimationTurn (List Animation × Statistics) :=
  fun animation frames (known, s) =>
    let copied := copyIn marks known (block (.keyframes animation.name animation.vendor) frames)
    (copied.1, (copied.2, s.merge (.ofCopied (copied.1.length - 1))))

mutual

theorem exists_tourIn_copy (known : List Animation) (s : Statistics) : (n : Node) →
    let copied := copyIn marks known n
    ∃ k, tourIn (copyTurn marks) (known, s) n =
        (copied.1, (copied.2, s.merge (.ofCopied k))) ∧
      (animationsAll copied.1).length = (animationsIn n).length + k
  | leaf _ => ⟨0, rfl, rfl⟩
  | block head children => by
    obtain ⟨name, rfl⟩ | ⟨name, mark, rfl⟩ | h | h := head.animation_cases
    · refine ⟨(missingMarks marks known name).length, ?_, ?_⟩
      · rw [tourIn, copyTurn, copyIn_unmarked]
        simp
      · rw [copyIn_unmarked, animationsAll_append, animationsAll_copies, animationsAll_singleton,
          List.length_append, List.length_map, Nat.add_comm]
    · exact ⟨0, rfl, rfl⟩
    · obtain ⟨k, htour, hcount⟩ := exists_tourAll_copy known s children
      refine ⟨k, ?_, ?_⟩
      · rw [tourIn_of_conditional h, copyIn_of_conditional h, tour, htour]
      · rw [copyIn_of_conditional h, animationsAll_singleton, animationsIn_of_conditional h,
          animationsIn_of_conditional h, hcount]
    · refine ⟨0, ?_, ?_⟩
      · rw [tourIn_of_inert h, copyIn_of_inert h]
        rfl
      · rw [copyIn_of_inert h, animationsAll_singleton, Nat.add_zero]

theorem exists_tourAll_copy (known : List Animation) (s : Statistics) : (ns : List Node) →
    let copied := copyAll marks known ns
    ∃ k, tourAll (copyTurn marks) (known, s) ns =
        (copied.1, (copied.2, s.merge (.ofCopied k))) ∧
      (animationsAll copied.1).length = (animationsAll ns).length + k
  | [] => ⟨0, rfl, rfl⟩
  | n :: rest => by
    obtain ⟨j, hfirst, hj⟩ := exists_tourIn_copy known s n
    obtain ⟨k, hrest, hk⟩ :=
      exists_tourAll_copy (copyIn marks known n).2 (s.merge (.ofCopied j)) rest
    refine ⟨j + k, ?_, ?_⟩
    · rw [tourAll_cons, hfirst, copyAll_cons]
      dsimp only
      rw [hrest, Statistics.merge_ofCopied_add]
    · rw [copyAll_cons, animationsAll_append, animationsAll, List.length_append,
        List.length_append, hj, hk]
      omega

end

/-- Copying animations on the way, and counting them. -/
theorem tour_copy (s : Statistics) (n : Node) :
    ∃ known, tour (copyTurn marks) (n.animations, s) n =
      (n.copyAnimations marks, (known,
        s.merge (.ofCopied ((n.copyAnimations marks).animations.length - n.animations.length)))) := by
  cases n with
  | leaf l => exact ⟨[], rfl⟩
  | block head children =>
    obtain ⟨k, htour, hcount⟩ := exists_tourAll_copy marks (animationsAll children) s children
    refine ⟨(copyAll marks (animationsAll children) children).2, ?_⟩
    rw [tour, animations, htour, copyAnimations, animations, hcount, Nat.add_sub_cancel_left]

end Copy

/-! ## Dropping animations -/

section Drop

variable (useless : String → Bool)

/-- Drops an animation if its mark is useless. -/
def dropTurn : AnimationTurn Statistics :=
  fun animation frames s =>
    if animation.vendor.any useless then ([], s.merge (.ofDropped 1))
    else ([block (.keyframes animation.name animation.vendor) frames], s)

mutual

theorem exists_tourIn_drop (s : Statistics) : (n : Node) →
    ∃ k, tourIn (dropTurn useless) s n = (dropIn useless n, s.merge (.ofDropped k)) ∧
      (animationsIn n).length = (animationsAll (dropIn useless n)).length + k
  | leaf _ => ⟨0, rfl, rfl⟩
  | block head children => by
    obtain ⟨name, rfl⟩ | ⟨name, mark, rfl⟩ | h | h := head.animation_cases
    · exact ⟨0, rfl, rfl⟩
    · rw [tourIn, dropTurn, dropIn_marked]
      dsimp only
      rw [Option.any_some]
      split
      · exact ⟨1, rfl, rfl⟩
      · exact ⟨0, rfl, rfl⟩
    · obtain ⟨k, htour, hcount⟩ := exists_tourAll_drop s children
      refine ⟨k, ?_, ?_⟩
      · rw [tourIn_of_conditional h, dropIn_of_conditional h, tour, htour]
      · rw [dropIn_of_conditional h, animationsAll_singleton, animationsIn_of_conditional h,
          animationsIn_of_conditional h, hcount]
    · refine ⟨0, ?_, ?_⟩
      · rw [tourIn_of_inert h, dropIn_of_inert h]
        rfl
      · rw [dropIn_of_inert h, animationsAll_singleton, Nat.add_zero]

theorem exists_tourAll_drop (s : Statistics) : (ns : List Node) →
    ∃ k, tourAll (dropTurn useless) s ns = (dropAll useless ns, s.merge (.ofDropped k)) ∧
      (animationsAll ns).length = (animationsAll (dropAll useless ns)).length + k
  | [] => ⟨0, rfl, rfl⟩
  | n :: rest => by
    obtain ⟨j, hfirst, hj⟩ := exists_tourIn_drop s n
    obtain ⟨k, hrest, hk⟩ := exists_tourAll_drop (s.merge (.ofDropped j)) rest
    refine ⟨j + k, ?_, ?_⟩
    · rw [tourAll_cons, hfirst, dropAll]
      dsimp only
      rw [hrest, Statistics.merge_ofDropped_add]
    · rw [dropAll, animationsAll_append, animationsAll, List.length_append, List.length_append,
        hj, hk]
      omega

end

/-- Dropping animations on the way, and counting them. -/
theorem tour_drop (s : Statistics) (n : Node) :
    tour (dropTurn useless) s n = (n.dropAnimations useless,
      s.merge (.ofDropped (n.animations.length - (n.dropAnimations useless).animations.length))) := by
  cases n with
  | leaf l => rfl
  | block head children =>
    obtain ⟨k, htour, hcount⟩ := exists_tourAll_drop useless s children
    rw [tour, htour, dropAnimations, animations, animations, hcount, Nat.add_sub_cancel_left]

end Drop

end Node
end VendorPrefixing
