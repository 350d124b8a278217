import Mathlib.Data.List.Basic
import VendorPrefixing.Proofs.Sheet.Contents
import VendorPrefixing.Sheet.Animation

/-!
# Copying and dropping animations

What happens to a style sheet whose animations are copied for some marks, and
dropped again.

Main results:

- Theorem `Node.copyAnimations_copyAnimations`: a second copy adds nothing.
- Theorem `Node.dropAnimations_copyAnimations`: dropping the copies again restores
  a style sheet whose own animations carry no mark.
- Theorem `Node.animations_dropAnimations`: dropping takes the animations with a
  useless mark out of a style sheet.
- Theorem `Node.dropAnimations_mapContents`: dropping changes places with a pass
  over declarations.
- Theorems `Node.copyAnimations_eq_self_of_length` and
  `Node.dropAnimations_eq_self_of_length`: without a change in number nothing has
  changed.
-/

namespace VendorPrefixing

/-! ## Cases -/

/-- Whether a block neither is an animation nor can hold one that is seen. -/
def Block.isInert : Block → Bool
  | sheet | rule _ | frame _ | page _ => true
  | _ => false

/-- The four things a block can be to the animations of a style sheet. -/
theorem Block.animation_cases (head : Block) :
    (∃ name, head = .keyframes name none) ∨ (∃ name mark, head = .keyframes name (some mark)) ∨
      head.isConditional = true ∨ head.isInert = true := by
  cases head with
  | keyframes name vendor =>
    cases vendor with
    | none => exact .inl ⟨name, rfl⟩
    | some mark => exact .inr (.inl ⟨name, mark, rfl⟩)
  | media query => exact .inr (.inr (.inl rfl))
  | supports condition => exact .inr (.inr (.inl rfl))
  | document condition vendor => exact .inr (.inr (.inl rfl))
  | sheet => exact .inr (.inr (.inr rfl))
  | rule selectors => exact .inr (.inr (.inr rfl))
  | frame selectors => exact .inr (.inr (.inr rfl))
  | page selectors => exact .inr (.inr (.inr rfl))

namespace Node

variable {head : Block} {children ns : List Node} {name mark : String}
variable {marks : List String} {known : List Animation} {useless : String → Bool}
variable {f : Option String → List Node → List Node}

@[simp]
theorem animationsIn_keyframes (name : String) (vendor : Option String) (children : List Node) :
    animationsIn (block (.keyframes name vendor) children) = [⟨name, vendor⟩] :=
  rfl

theorem animationsIn_of_conditional (h : head.isConditional = true) (children : List Node) :
    animationsIn (block head children) = animationsAll children := by
  cases head <;> first | rfl | cases h

theorem animationsIn_of_inert (h : head.isInert = true) (children : List Node) :
    animationsIn (block head children) = [] := by
  cases head <;> first | rfl | cases h

/-- The marks for which an animation has no copy yet. -/
abbrev missingMarks (marks : List String) (known : List Animation) (name : String) :
    List String :=
  marks.filter fun mark => !known.contains ⟨name, some mark⟩

theorem copyIn_unmarked (marks : List String) (known : List Animation) (name : String)
    (children : List Node) :
    copyIn marks known (block (.keyframes name none) children) =
      ((missingMarks marks known name).map
          (fun mark => block (.keyframes name (some mark)) children) ++
            [block (.keyframes name none) children],
        known ++ (missingMarks marks known name).map fun mark => ⟨name, some mark⟩) :=
  rfl

theorem copyIn_marked (marks : List String) (known : List Animation) (name mark : String)
    (children : List Node) :
    copyIn marks known (block (.keyframes name (some mark)) children) =
      ([block (.keyframes name (some mark)) children], known) :=
  rfl

theorem copyIn_of_conditional (h : head.isConditional = true) (marks : List String)
    (known : List Animation) (children : List Node) :
    copyIn marks known (block head children) =
      ([block head (copyAll marks known children).1], (copyAll marks known children).2) := by
  cases head <;> first | rfl | cases h

theorem copyIn_of_inert (h : head.isInert = true) (marks : List String)
    (known : List Animation) (children : List Node) :
    copyIn marks known (block head children) = ([block head children], known) := by
  cases head <;> first | rfl | cases h

theorem copyAll_cons (marks : List String) (known : List Animation) (n : Node)
    (rest : List Node) :
    copyAll marks known (n :: rest) =
      ((copyIn marks known n).1 ++ (copyAll marks (copyIn marks known n).2 rest).1,
        (copyAll marks (copyIn marks known n).2 rest).2) :=
  rfl

theorem dropIn_unmarked (useless : String → Bool) (name : String) (children : List Node) :
    dropIn useless (block (.keyframes name none) children) =
      [block (.keyframes name none) children] :=
  rfl

theorem dropIn_marked (useless : String → Bool) (name mark : String) (children : List Node) :
    dropIn useless (block (.keyframes name (some mark)) children) =
      if useless mark then [] else [block (.keyframes name (some mark)) children] :=
  rfl

theorem dropIn_of_conditional (h : head.isConditional = true) (useless : String → Bool)
    (children : List Node) :
    dropIn useless (block head children) = [block head (dropAll useless children)] := by
  cases head <;> first | rfl | cases h

theorem dropIn_of_inert (h : head.isInert = true) (useless : String → Bool)
    (children : List Node) : dropIn useless (block head children) = [block head children] := by
  cases head <;> first | rfl | cases h

/-! ## Lists -/

theorem animationsAll_eq_flatMap (ns : List Node) :
    animationsAll ns = ns.flatMap animationsIn := by
  induction ns with
  | nil => rfl
  | cons n rest ih => rw [animationsAll, ih, List.flatMap_cons]

@[simp]
theorem animationsAll_append (ns ms : List Node) :
    animationsAll (ns ++ ms) = animationsAll ns ++ animationsAll ms := by
  rw [animationsAll_eq_flatMap, animationsAll_eq_flatMap, animationsAll_eq_flatMap,
    List.flatMap_append]

@[simp]
theorem animationsAll_singleton (n : Node) : animationsAll [n] = animationsIn n := by
  rw [animationsAll, animationsAll, List.append_nil]

/-- The copies of one animation. -/
theorem animationsAll_copies (name : String) (marks : List String) (children : List Node) :
    animationsAll (marks.map fun mark => block (.keyframes name (some mark)) children) =
      marks.map fun mark => ⟨name, some mark⟩ := by
  induction marks with
  | nil => rfl
  | cons mark marks ih =>
    rw [List.map_cons, animationsAll, ih, List.map_cons, animationsIn_keyframes,
      List.singleton_append]

theorem dropAll_eq_flatMap (useless : String → Bool) (ns : List Node) :
    dropAll useless ns = ns.flatMap (dropIn useless) := by
  induction ns with
  | nil => rfl
  | cons n rest ih => rw [dropAll, ih, List.flatMap_cons]

theorem dropAll_append (useless : String → Bool) (ns ms : List Node) :
    dropAll useless (ns ++ ms) = dropAll useless ns ++ dropAll useless ms := by
  rw [dropAll_eq_flatMap, dropAll_eq_flatMap, dropAll_eq_flatMap, List.flatMap_append]

/-! ## Animations and passes over declarations -/

/-- A change of declarations keeps the animations among the nodes of a list. -/
theorem OnlyDeclarations.animationsAll_eq {change : List Node → List Node}
    (h : OnlyDeclarations change) (ns : List Node) :
    animationsAll (change ns) = animationsAll ns := by
  rw [animationsAll_eq_flatMap, animationsAll_eq_flatMap, h.flatMap_eq fun _ => rfl]

mutual

theorem animationsIn_mapContents (hf : ∀ vendor, OnlyDeclarations (f vendor))
    (vendor : Option String) :
    (n : Node) → animationsIn (n.mapContents f vendor) = animationsIn n
  | leaf _ => rfl
  | block head children => by
    rw [mapContents]
    obtain ⟨name, rfl⟩ | ⟨name, mark, rfl⟩ | h | h := head.animation_cases
    · rfl
    · rfl
    · rw [animationsIn_of_conditional h, animationsIn_of_conditional h, (hf _).animationsAll_eq,
        animationsAll_mapContentsAll hf _ children]
    · rw [animationsIn_of_inert h, animationsIn_of_inert h]

theorem animationsAll_mapContentsAll (hf : ∀ vendor, OnlyDeclarations (f vendor))
    (vendor : Option String) :
    (ns : List Node) → animationsAll (mapContentsAll f vendor ns) = animationsAll ns
  | [] => rfl
  | n :: rest => by
    rw [mapContentsAll, animationsAll, animationsAll, animationsIn_mapContents hf vendor n,
      animationsAll_mapContentsAll hf vendor rest]

end

/-- A pass over declarations keeps the animations of a style sheet. -/
theorem animations_mapContents (hf : ∀ vendor, OnlyDeclarations (f vendor))
    (vendor : Option String) (n : Node) :
    (n.mapContents f vendor).animations = n.animations := by
  cases n with
  | leaf l => rfl
  | block head children =>
    rw [mapContents, animations, animations, (hf _).animationsAll_eq,
      animationsAll_mapContentsAll hf]

/-- Dropping animations leaves declarations alone. -/
theorem keepsDeclarations_dropIn (useless : String → Bool) :
    KeepsDeclarations (dropIn useless) where
  declaration _ := rfl
  other n hn := by
    cases n with
    | leaf l =>
      rw [dropIn, declarations_cons_of_none hn, declarations_nil]
    | block head children =>
      obtain ⟨name, rfl⟩ | ⟨name, mark, rfl⟩ | h | h := head.animation_cases
      · rfl
      · rw [dropIn_marked]
        split <;> rfl
      · rw [dropIn_of_conditional h]
        rfl
      · rw [dropIn_of_inert h]
        rfl

mutual

theorem dropIn_mapContents (hf : ∀ vendor, OnlyDeclarations (f vendor))
    (vendor : Option String) : (n : Node) →
    dropIn useless (n.mapContents f vendor) = mapContentsAll f vendor (dropIn useless n)
  | leaf _ => rfl
  | block head children => by
    rw [mapContents]
    obtain ⟨name, rfl⟩ | ⟨name, mark, rfl⟩ | h | h := head.animation_cases
    · rfl
    · rw [dropIn_marked, dropIn_marked]
      split <;> rfl
    · rw [dropIn_of_conditional h, dropIn_of_conditional h, dropAll_eq_flatMap useless (f _ _),
        (hf _).flatMap (keepsDeclarations_dropIn useless), ← dropAll_eq_flatMap,
        dropAll_mapContentsAll hf _ children]
      rfl
    · rw [dropIn_of_inert h, dropIn_of_inert h]
      rfl

theorem dropAll_mapContentsAll (hf : ∀ vendor, OnlyDeclarations (f vendor))
    (vendor : Option String) : (ns : List Node) →
    dropAll useless (mapContentsAll f vendor ns) = mapContentsAll f vendor (dropAll useless ns)
  | [] => rfl
  | n :: rest => by
    rw [mapContentsAll, dropAll, dropAll, mapContentsAll_append, dropIn_mapContents hf vendor n,
      dropAll_mapContentsAll hf vendor rest]

end

/-- Dropping animations changes places with a pass over declarations. -/
theorem dropAnimations_mapContents (hf : ∀ vendor, OnlyDeclarations (f vendor))
    (vendor : Option String) (n : Node) :
    (n.mapContents f vendor).dropAnimations useless =
      (n.dropAnimations useless).mapContents f vendor := by
  cases n with
  | leaf l => rfl
  | block head children =>
    rw [mapContents, dropAnimations, dropAnimations, mapContents, dropAll_eq_flatMap,
      (hf _).flatMap (keepsDeclarations_dropIn useless), ← dropAll_eq_flatMap,
      dropAll_mapContentsAll hf]

/-! ## Missing copies -/

/-- Nothing is missing of an animation once it has been copied. -/
theorem missingMarks_copies (marks : List String) (known : List Animation) (name : String) :
    missingMarks marks (known ++ (missingMarks marks known name).map fun mark => ⟨name, some mark⟩)
      name = [] := by
  rw [List.filter_eq_nil_iff]
  intro mark hmark
  by_cases hknown : ⟨name, some mark⟩ ∈ known
  · simp [hknown]
  · simp [hknown, hmark]

/-- What is missing of one animation does not depend on the copies of others. -/
theorem missingMarks_append_of_ne (marks : List String) (known : List Animation) {other : String}
    (h : other ≠ name) (copied : List String) :
    missingMarks marks (known ++ copied.map fun mark => ⟨other, some mark⟩) name =
      missingMarks marks known name := by
  apply List.filter_congr
  intro mark _
  simp [h]

mutual

/-- After copying nothing is missing of an animation that was met, and as much as before
of the others. -/
theorem missingMarks_copyIn (marks : List String) (known : List Animation) (name : String) :
    (n : Node) → missingMarks marks (copyIn marks known n).2 name =
      if ⟨name, none⟩ ∈ animationsIn n then [] else missingMarks marks known name
  | leaf _ => (if_neg List.not_mem_nil).symm
  | block head children => by
    obtain ⟨other, rfl⟩ | ⟨other, mark, rfl⟩ | h | h := head.animation_cases
    · rw [copyIn_unmarked, animationsIn_keyframes]
      by_cases hname : other = name
      · rw [if_pos (by simp [hname]), hname, missingMarks_copies]
      · rw [if_neg (by simp [Ne.symm hname]), missingMarks_append_of_ne marks known hname]
    · rw [copyIn_marked, animationsIn_keyframes, if_neg (by simp)]
    · rw [copyIn_of_conditional h, animationsIn_of_conditional h]
      exact missingMarks_copyAll marks known name children
    · rw [copyIn_of_inert h, animationsIn_of_inert h, if_neg List.not_mem_nil]

theorem missingMarks_copyAll (marks : List String) (known : List Animation) (name : String) :
    (ns : List Node) → missingMarks marks (copyAll marks known ns).2 name =
      if ⟨name, none⟩ ∈ animationsAll ns then [] else missingMarks marks known name
  | [] => (if_neg List.not_mem_nil).symm
  | n :: rest => by
    rw [copyAll_cons, animationsAll, missingMarks_copyAll marks _ name rest,
      missingMarks_copyIn marks known name n]
    by_cases hfirst : ⟨name, none⟩ ∈ animationsIn n
    · simp [hfirst]
    · simp [hfirst]

end

/-! ## Copying twice -/

mutual

/-- Copying forgets no animation. -/
theorem known_subset_copyIn (marks : List String) (known : List Animation) :
    (n : Node) → known ⊆ (copyIn marks known n).2
  | leaf _ => List.Subset.refl _
  | block head children => by
    obtain ⟨name, rfl⟩ | ⟨name, mark, rfl⟩ | h | h := head.animation_cases
    · rw [copyIn_unmarked]
      exact List.subset_append_left _ _
    · exact List.Subset.refl _
    · rw [copyIn_of_conditional h]
      exact known_subset_copyAll marks known children
    · rw [copyIn_of_inert h]
      exact List.Subset.refl _

theorem known_subset_copyAll (marks : List String) (known : List Animation) :
    (ns : List Node) → known ⊆ (copyAll marks known ns).2
  | [] => List.Subset.refl _
  | n :: rest => by
    rw [copyAll_cons]
    exact List.Subset.trans (known_subset_copyIn marks known n)
      (known_subset_copyAll marks _ rest)

end

mutual

/-- What is known after copying was known before or has been copied. -/
theorem mem_known_copyIn {a : Animation} (marks : List String) (known : List Animation) :
    (n : Node) → a ∈ (copyIn marks known n).2 →
      a ∈ known ∨ a ∈ animationsAll (copyIn marks known n).1
  | leaf _, ha => .inl ha
  | block head children, ha => by
    obtain ⟨name, rfl⟩ | ⟨name, mark, rfl⟩ | h | h := head.animation_cases
    · rw [copyIn_unmarked] at ha ⊢
      rw [animationsAll_append, animationsAll_copies, List.mem_append]
      rcases List.mem_append.mp ha with ha | ha
      · exact .inl ha
      · exact .inr (.inl ha)
    · exact .inl ha
    · rw [copyIn_of_conditional h] at ha ⊢
      rw [animationsAll_singleton, animationsIn_of_conditional h]
      exact mem_known_copyAll marks known children ha
    · rw [copyIn_of_inert h] at ha
      exact .inl ha

theorem mem_known_copyAll {a : Animation} (marks : List String) (known : List Animation) :
    (ns : List Node) → a ∈ (copyAll marks known ns).2 →
      a ∈ known ∨ a ∈ animationsAll (copyAll marks known ns).1
  | [], ha => .inl ha
  | n :: rest, ha => by
    rw [copyAll_cons] at ha ⊢
    rw [animationsAll_append, List.mem_append]
    rcases mem_known_copyAll marks _ rest ha with ha | ha
    · rcases mem_known_copyIn marks known n ha with ha | ha
      · exact .inl ha
      · exact .inr (.inl ha)
    · exact .inr (.inr ha)

end

mutual

/-- Copying keeps the animations that were there. -/
theorem animationsIn_sublist_copyIn (marks : List String) (known : List Animation) :
    (n : Node) → (animationsIn n).Sublist (animationsAll (copyIn marks known n).1)
  | leaf _ => List.nil_sublist _
  | block head children => by
    obtain ⟨name, rfl⟩ | ⟨name, mark, rfl⟩ | h | h := head.animation_cases
    · rw [copyIn_unmarked, animationsAll_append, animationsAll_singleton]
      exact List.sublist_append_right _ _
    · rw [copyIn_marked, animationsAll_singleton]
    · rw [copyIn_of_conditional h, animationsAll_singleton, animationsIn_of_conditional h,
        animationsIn_of_conditional h]
      exact animationsAll_sublist_copyAll marks known children
    · rw [animationsIn_of_inert h]
      exact List.nil_sublist _

theorem animationsAll_sublist_copyAll (marks : List String) (known : List Animation) :
    (ns : List Node) → (animationsAll ns).Sublist (animationsAll (copyAll marks known ns).1)
  | [] => List.nil_sublist _
  | n :: rest => by
    rw [copyAll_cons, animationsAll, animationsAll_append]
    exact (animationsIn_sublist_copyIn marks known n).append
      (animationsAll_sublist_copyAll marks _ rest)

end

mutual

/-- Afterwards every animation without a mark has its copies. -/
theorem copies_known_copyIn (hmark : mark ∈ marks) (known : List Animation) :
    (n : Node) → ⟨name, none⟩ ∈ animationsAll (copyIn marks known n).1 →
      ⟨name, some mark⟩ ∈ (copyIn marks known n).2
  | leaf _, h => absurd h List.not_mem_nil
  | block head children, hname => by
    obtain ⟨other, rfl⟩ | ⟨other, mark, rfl⟩ | h | h := head.animation_cases
    · rw [copyIn_unmarked] at hname ⊢
      rw [animationsAll_append, animationsAll_copies, animationsAll_singleton,
        animationsIn_keyframes] at hname
      obtain rfl : name = other := by
        rcases List.mem_append.mp hname with h | h
        · obtain ⟨m, _, h⟩ := List.mem_map.mp h
          cases h
        · exact congrArg Animation.name (List.mem_singleton.mp h)
      by_cases hknown : ⟨name, some mark⟩ ∈ known
      · exact List.mem_append_left _ hknown
      · refine List.mem_append_right _ (List.mem_map.mpr ⟨mark, ?_, rfl⟩)
        exact List.mem_filter.mpr ⟨hmark, by simpa using hknown⟩
    · cases List.mem_singleton.mp hname
    · rw [copyIn_of_conditional h, animationsAll_singleton, animationsIn_of_conditional h] at hname
      rw [copyIn_of_conditional h]
      exact copies_known_copyAll hmark known children hname
    · rw [copyIn_of_inert h, animationsAll_singleton, animationsIn_of_inert h] at hname
      exact absurd hname List.not_mem_nil

theorem copies_known_copyAll (hmark : mark ∈ marks) (known : List Animation) :
    (ns : List Node) → ⟨name, none⟩ ∈ animationsAll (copyAll marks known ns).1 →
      ⟨name, some mark⟩ ∈ (copyAll marks known ns).2
  | [], h => absurd h List.not_mem_nil
  | n :: rest, h => by
    rw [copyAll_cons] at h ⊢
    rw [animationsAll_append, List.mem_append] at h
    rcases h with h | h
    · exact known_subset_copyAll marks _ rest (copies_known_copyIn hmark known n h)
    · exact copies_known_copyAll hmark _ rest h

end

mutual

/-- Nothing is copied where every animation without a mark has its copies. -/
theorem copyIn_of_known : (n : Node) →
    (∀ name, ⟨name, none⟩ ∈ animationsIn n → ∀ mark ∈ marks, ⟨name, some mark⟩ ∈ known) →
      copyIn marks known n = ([n], known)
  | leaf _, _ => rfl
  | block head children, hknown => by
    obtain ⟨name, rfl⟩ | ⟨name, mark, rfl⟩ | h | h := head.animation_cases
    · have hmissing : missingMarks marks known name = [] := by
        rw [List.filter_eq_nil_iff]
        intro mark hmark
        have := hknown name List.mem_cons_self mark hmark
        simpa using this
      rw [copyIn_unmarked, hmissing, List.map_nil, List.map_nil, List.nil_append, List.append_nil]
    · rfl
    · rw [animationsIn_of_conditional h] at hknown
      rw [copyIn_of_conditional h, copyAll_of_known children hknown]
    · rw [copyIn_of_inert h]

theorem copyAll_of_known : (ns : List Node) →
    (∀ name, ⟨name, none⟩ ∈ animationsAll ns → ∀ mark ∈ marks, ⟨name, some mark⟩ ∈ known) →
      copyAll marks known ns = (ns, known)
  | [], _ => rfl
  | n :: rest, hknown => by
    rw [copyAll_cons,
      copyIn_of_known n fun name h => hknown name (List.mem_append_left _ h),
      copyAll_of_known rest fun name h => hknown name (List.mem_append_right _ h)]
    rfl

end

/-- Nothing is copied where every animation without a mark has its copies. -/
theorem copyAnimations_eq_self {n : Node}
    (h : ∀ name, ⟨name, none⟩ ∈ n.animations → ∀ mark ∈ marks,
      ⟨name, some mark⟩ ∈ n.animations) : n.copyAnimations marks = n := by
  cases n with
  | leaf l => rfl
  | block head children =>
    rw [animations] at h
    rw [copyAnimations, copyAll_of_known children h]

/-- After copying every animation without a mark has its copies. -/
theorem mem_animations_copyAnimations {n : Node} (hmark : mark ∈ marks)
    (h : ⟨name, none⟩ ∈ (n.copyAnimations marks).animations) :
    ⟨name, some mark⟩ ∈ (n.copyAnimations marks).animations := by
  cases n with
  | leaf l => exact absurd h List.not_mem_nil
  | block head children =>
    rw [copyAnimations, animations] at h ⊢
    have hsub := (animationsAll_sublist_copyAll marks (animationsAll children) children).subset
    rcases mem_known_copyAll marks _ children (copies_known_copyAll hmark _ children h) with h | h
    · exact hsub h
    · exact h

/-- A second copy adds nothing. -/
theorem copyAnimations_copyAnimations (marks : List String) (n : Node) :
    (n.copyAnimations marks).copyAnimations marks = n.copyAnimations marks :=
  copyAnimations_eq_self fun _ h _ hmark => mem_animations_copyAnimations hmark h

/-! ## Dropping the copies -/

mutual

/-- What only has animations without a useless mark keeps them all. -/
theorem dropIn_eq_self : (n : Node) →
    (∀ a ∈ animationsIn n, a.vendor.any useless = false) → dropIn useless n = [n]
  | leaf _, _ => rfl
  | block head children, hkept => by
    obtain ⟨name, rfl⟩ | ⟨name, mark, rfl⟩ | h | h := head.animation_cases
    · rfl
    · have hmark : useless mark = false := hkept _ List.mem_cons_self
      rw [dropIn_marked, hmark, if_neg Bool.false_ne_true]
    · rw [animationsIn_of_conditional h] at hkept
      rw [dropIn_of_conditional h, dropAll_eq_self children hkept]
    · rw [dropIn_of_inert h]

theorem dropAll_eq_self : (ns : List Node) →
    (∀ a ∈ animationsAll ns, a.vendor.any useless = false) → dropAll useless ns = ns
  | [], _ => rfl
  | n :: rest, hkept => by
    rw [dropAll, dropIn_eq_self n fun a ha => hkept a (List.mem_append_left _ ha),
      dropAll_eq_self rest fun a ha => hkept a (List.mem_append_right _ ha),
      List.singleton_append]

end

/-- A style sheet that only has animations without a useless mark keeps them all. -/
theorem dropAnimations_eq_self {n : Node}
    (h : ∀ a ∈ n.animations, a.vendor.any useless = false) : n.dropAnimations useless = n := by
  cases n with
  | leaf l => rfl
  | block head children =>
    rw [animations] at h
    rw [dropAnimations, dropAll_eq_self children h]

mutual

/-- The animations that are left carry no useless mark. -/
theorem animationsAll_dropIn (useless : String → Bool) : (n : Node) →
    animationsAll (dropIn useless n) =
      (animationsIn n).filter fun a => !a.vendor.any useless
  | leaf _ => rfl
  | block head children => by
    obtain ⟨name, rfl⟩ | ⟨name, mark, rfl⟩ | h | h := head.animation_cases
    · rfl
    · rw [dropIn_marked, animationsIn_keyframes, List.filter_singleton, Option.any_some]
      cases useless mark <;> rfl
    · rw [dropIn_of_conditional h, animationsAll_singleton, animationsIn_of_conditional h,
        animationsIn_of_conditional h, animationsAll_dropAll useless children]
    · rw [dropIn_of_inert h, animationsAll_singleton, animationsIn_of_inert h, List.filter_nil]

theorem animationsAll_dropAll (useless : String → Bool) : (ns : List Node) →
    animationsAll (dropAll useless ns) =
      (animationsAll ns).filter fun a => !a.vendor.any useless
  | [] => rfl
  | n :: rest => by
    rw [dropAll, animationsAll_append, animationsAll, List.filter_append,
      animationsAll_dropIn useless n, animationsAll_dropAll useless rest]

end

/-- Dropping takes the animations with a useless mark out of a style sheet. -/
theorem animations_dropAnimations (useless : String → Bool) (n : Node) :
    (n.dropAnimations useless).animations =
      n.animations.filter fun a => !a.vendor.any useless := by
  cases n with
  | leaf l => rfl
  | block head children => exact animationsAll_dropAll useless children

/-- Copies with useless marks are dropped. -/
theorem dropAll_copies (h : ∀ mark ∈ marks, useless mark = true) (name : String)
    (children : List Node) :
    dropAll useless (marks.map fun mark => block (.keyframes name (some mark)) children) = [] := by
  induction marks with
  | nil => rfl
  | cons mark marks ih =>
    rw [List.map_cons, dropAll, dropIn_marked, h mark List.mem_cons_self, if_pos rfl,
      ih fun m hm => h m (List.mem_cons_of_mem _ hm), List.nil_append]

mutual

/-- Dropping the copies again leaves what was there without a mark. -/
theorem dropAll_copyIn (hmarks : ∀ mark ∈ marks, useless mark = true) (known : List Animation) :
    (n : Node) → (∀ a ∈ animationsIn n, a.vendor = none) →
      dropAll useless (copyIn marks known n).1 = [n]
  | leaf _, _ => rfl
  | block head children, hbare => by
    obtain ⟨name, rfl⟩ | ⟨name, mark, rfl⟩ | h | h := head.animation_cases
    · have hmissing : ∀ mark ∈ missingMarks marks known name, useless mark = true :=
        fun mark h => hmarks mark (List.mem_filter.mp h).1
      rw [copyIn_unmarked, dropAll_append, dropAll_copies hmissing, List.nil_append, dropAll,
        dropIn_unmarked, dropAll, List.append_nil]
    · cases hbare _ List.mem_cons_self
    · rw [animationsIn_of_conditional h] at hbare
      rw [copyIn_of_conditional h, dropAll, dropIn_of_conditional h,
        dropAll_copyAll hmarks known children hbare, dropAll, List.append_nil]
    · rw [copyIn_of_inert h, dropAll, dropIn_of_inert h, dropAll, List.append_nil]

theorem dropAll_copyAll (hmarks : ∀ mark ∈ marks, useless mark = true) (known : List Animation) :
    (ns : List Node) → (∀ a ∈ animationsAll ns, a.vendor = none) →
      dropAll useless (copyAll marks known ns).1 = ns
  | [], _ => rfl
  | n :: rest, hbare => by
    rw [copyAll_cons, dropAll_append,
      dropAll_copyIn hmarks known n fun a ha => hbare a (List.mem_append_left _ ha),
      dropAll_copyAll hmarks _ rest fun a ha => hbare a (List.mem_append_right _ ha),
      List.singleton_append]

end

/-- Dropping the copies again restores a style sheet whose own animations carry no
mark. -/
theorem dropAnimations_copyAnimations {n : Node} (hmarks : ∀ mark ∈ marks, useless mark = true)
    (h : ∀ a ∈ n.animations, a.vendor = none) :
    (n.copyAnimations marks).dropAnimations useless = n := by
  cases n with
  | leaf l => rfl
  | block head children =>
    rw [animations] at h
    rw [copyAnimations, dropAnimations, dropAll_copyAll hmarks _ children h]

mutual

/-- Copying makes animations with the given marks and no others. -/
theorem mem_animations_copyIn {a : Animation} (known : List Animation) :
    (n : Node) → a ∈ animationsAll (copyIn marks known n).1 →
      a ∈ animationsIn n ∨ ∃ mark ∈ marks, a.vendor = some mark
  | leaf _, ha => absurd ha List.not_mem_nil
  | block head children, ha => by
    obtain ⟨name, rfl⟩ | ⟨name, mark, rfl⟩ | h | h := head.animation_cases
    · rw [copyIn_unmarked, animationsAll_append, animationsAll_copies, animationsAll_singleton]
        at ha
      rcases List.mem_append.mp ha with ha | ha
      · obtain ⟨mark, hmark, rfl⟩ := List.mem_map.mp ha
        exact .inr ⟨mark, (List.mem_filter.mp hmark).1, rfl⟩
      · exact .inl ha
    · rw [copyIn_marked, animationsAll_singleton] at ha
      exact .inl ha
    · rw [copyIn_of_conditional h, animationsAll_singleton, animationsIn_of_conditional h] at ha
      rw [animationsIn_of_conditional h]
      exact mem_animations_copyAll known children ha
    · rw [copyIn_of_inert h, animationsAll_singleton] at ha
      exact .inl ha

theorem mem_animations_copyAll {a : Animation} (known : List Animation) :
    (ns : List Node) → a ∈ animationsAll (copyAll marks known ns).1 →
      a ∈ animationsAll ns ∨ ∃ mark ∈ marks, a.vendor = some mark
  | [], ha => absurd ha List.not_mem_nil
  | n :: rest, ha => by
    rw [copyAll_cons, animationsAll_append] at ha
    rw [animationsAll, List.mem_append]
    rcases List.mem_append.mp ha with ha | ha
    · rcases mem_animations_copyIn known n ha with h | h
      · exact .inl (.inl h)
      · exact .inr h
    · rcases mem_animations_copyAll _ rest ha with h | h
      · exact .inl (.inr h)
      · exact .inr h

end

/-- Copying makes animations with the given marks and no others. -/
theorem mem_animations_of_copyAnimations {n : Node} {a : Animation}
    (h : a ∈ (n.copyAnimations marks).animations) :
    a ∈ n.animations ∨ ∃ mark ∈ marks, a.vendor = some mark := by
  cases n with
  | leaf l => exact .inl h
  | block head children => exact mem_animations_copyAll _ children h

/-! ## Declarations in copies -/

mutual

/-- A copy has the declarations of what it is a copy of. -/
theorem forall_placed_copyIn {p : Declaration → Prop} (known : List Animation) :
    (n : Node) → ∀ vendor, (∀ x ∈ placed vendor n, p x.2) →
      ∀ x ∈ placedAll vendor (copyIn marks known n).1, p x.2
  | leaf _, vendor, hp, x, hx => by
    rw [copyIn, placedAll, placedAll, List.append_nil] at hx
    exact hp x hx
  | block head children, vendor, hp, x, hx => by
    obtain ⟨name, rfl⟩ | ⟨name, mark, rfl⟩ | h | h := head.animation_cases
    · rw [copyIn_unmarked, placedAll_append, List.mem_append] at hx
      rcases hx with hx | hx
      · rw [placedAll_eq_flatMap] at hx
        obtain ⟨m, hm, hx⟩ := List.mem_flatMap.mp hx
        obtain ⟨mark, _, rfl⟩ := List.mem_map.mp hm
        rw [placed] at hp hx
        have hmem := List.mem_map_of_mem (f := Prod.snd) hx
        rw [map_snd_placedAll _ (Block.vendorWithin vendor (.keyframes name none))] at hmem
        obtain ⟨y, hy, hyx⟩ := List.mem_map.mp hmem
        exact hyx ▸ hp y hy
      · rw [placedAll, placedAll, List.append_nil] at hx
        exact hp x hx
    · rw [copyIn_marked, placedAll, placedAll, List.append_nil] at hx
      exact hp x hx
    · rw [copyIn_of_conditional h, placedAll, placedAll, List.append_nil, placed] at hx
      rw [placed] at hp
      exact forall_placed_copyAll known children _ hp x hx
    · rw [copyIn_of_inert h, placedAll, placedAll, List.append_nil] at hx
      exact hp x hx

theorem forall_placed_copyAll {p : Declaration → Prop} (known : List Animation) :
    (ns : List Node) → ∀ vendor, (∀ x ∈ placedAll vendor ns, p x.2) →
      ∀ x ∈ placedAll vendor (copyAll marks known ns).1, p x.2
  | [], _, _, _, hx => absurd hx List.not_mem_nil
  | n :: rest, vendor, hp, x, hx => by
    rw [placedAll] at hp
    rw [copyAll_cons, placedAll_append, List.mem_append] at hx
    rcases hx with hx | hx
    · exact forall_placed_copyIn known n vendor
        (fun y hy => hp y (List.mem_append_left _ hy)) x hx
    · exact forall_placed_copyAll _ rest vendor
        (fun y hy => hp y (List.mem_append_right _ hy)) x hx

end

/-- Copies have the declarations of what they are copies of. -/
theorem forall_placed_copyAnimations {p : Declaration → Prop} {vendor : Option String} {n : Node}
    (h : ∀ x ∈ placed vendor n, p x.2) :
    ∀ x ∈ placed vendor (n.copyAnimations marks), p x.2 := by
  cases n with
  | leaf l => exact h
  | block head children => exact forall_placed_copyAll _ children _ h

/-! ## Without a change in number -/

mutual

/-- Without further animations nothing has been copied. -/
theorem copyIn_eq_self_of_length (known : List Animation) : (n : Node) →
    (animationsAll (copyIn marks known n).1).length = (animationsIn n).length →
      (copyIn marks known n).1 = [n]
  | leaf _, _ => rfl
  | block head children, hlength => by
    obtain ⟨name, rfl⟩ | ⟨name, mark, rfl⟩ | h | h := head.animation_cases
    · rw [copyIn_unmarked, animationsAll_append, animationsAll_copies, animationsAll_singleton,
        List.length_append, List.length_map] at hlength
      have hmissing : missingMarks marks known name = [] :=
        List.eq_nil_of_length_eq_zero (by omega)
      rw [copyIn_unmarked, hmissing, List.map_nil, List.nil_append]
    · rfl
    · rw [copyIn_of_conditional h, animationsAll_singleton, animationsIn_of_conditional h,
        animationsIn_of_conditional h] at hlength
      rw [copyIn_of_conditional h, copyAll_eq_self_of_length known children hlength]
    · rw [copyIn_of_inert h]

theorem copyAll_eq_self_of_length (known : List Animation) : (ns : List Node) →
    (animationsAll (copyAll marks known ns).1).length = (animationsAll ns).length →
      (copyAll marks known ns).1 = ns
  | [], _ => rfl
  | n :: rest, hlength => by
    rw [copyAll_cons, animationsAll_append, animationsAll, List.length_append,
      List.length_append] at hlength
    have hfirst := (animationsIn_sublist_copyIn marks known n).length_le
    have hrest := (animationsAll_sublist_copyAll marks (copyIn marks known n).2 rest).length_le
    rw [copyAll_cons, copyIn_eq_self_of_length known n (by omega),
      copyAll_eq_self_of_length _ rest (by omega), List.singleton_append]

end

/-- Copying takes no animation away. -/
theorem length_animations_le_copyAnimations (marks : List String) (n : Node) :
    n.animations.length ≤ (n.copyAnimations marks).animations.length := by
  cases n with
  | leaf l => exact Nat.le_refl _
  | block head children => exact (animationsAll_sublist_copyAll marks _ children).length_le

/-- Without further animations nothing has been copied. -/
theorem copyAnimations_eq_self_of_length {n : Node}
    (h : (n.copyAnimations marks).animations.length = n.animations.length) :
    n.copyAnimations marks = n := by
  cases n with
  | leaf l => rfl
  | block head children =>
    rw [copyAnimations, copyAll_eq_self_of_length _ children h]

/-- Dropping makes no animation. -/
theorem length_animations_dropAnimations_le (useless : String → Bool) (n : Node) :
    (n.dropAnimations useless).animations.length ≤ n.animations.length := by
  rw [animations_dropAnimations]
  exact List.length_filter_le _ _

/-- Without fewer animations nothing has been dropped. -/
theorem dropAnimations_eq_self_of_length {n : Node}
    (h : (n.dropAnimations useless).animations.length = n.animations.length) :
    n.dropAnimations useless = n := by
  rw [animations_dropAnimations, List.length_filter_eq_length_iff] at h
  exact dropAnimations_eq_self fun a ha => by simpa using h a ha

end Node
end VendorPrefixing
