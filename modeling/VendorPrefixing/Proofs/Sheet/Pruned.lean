import VendorPrefixing.Proofs.Sheet.Animation
import VendorPrefixing.Proofs.Sheet.Shape

/-!
# Pruned trees

A tree is pruned by dropping nodes from it, at any depth, each with everything inside of
it.  Filtering the declarations of every block and dropping animations are two cases.

Main results:

- Theorem `Node.prune_prune`: a tree that is pruned twice is pruned for two reasons at once.
- Theorem `Node.mapContents_filter_eq_prune`: filtering declarations prunes a tree.
- Theorem `Node.dropAll_eq_pruneAll`: dropping animations prunes a style sheet.
- Theorem `Node.declarationCount_prune_add`: the declarations of a tree are left or dropped.
- Theorem `Node.length_animationsAll_pruneAll_add`: so are the animations of a style sheet.
-/

namespace VendorPrefixing

/-- Conditional blocks hold rules. -/
theorem Block.content_of_conditional {head : Block} (h : head.isConditional = true) :
    head.content = .rules := by
  cases head <;> first | rfl | cases h

theorem Block.isConditional_of_inert {head : Block} (h : head.isInert = true) :
    head.isConditional = false := by
  cases head <;> first | rfl | cases h

/-- A block that stands somewhere and holds rules is a conditional one among rules. -/
theorem Block.StandsIn.conditional_of_content {content : Content} {head : Block}
    (h : head.StandsIn content) (hrules : head.content = .rules) :
    head.isConditional = true ∧ content = .rules := by
  cases head with
  | sheet => exact h.elim
  | media _ => exact ⟨rfl, h⟩
  | supports _ => exact ⟨rfl, h⟩
  | document _ _ => exact ⟨rfl, h⟩
  | _ => cases hrules

namespace Node

section

variable (p : Node → Prop) [DecidablePred p]

mutual

/-- The tree without the nodes inside of it for which `p` holds. -/
def prune : Node → Node
  | leaf l => leaf l
  | block head children => block head (pruneAll children)

/-- The trees without the nodes for which `p` holds. -/
def pruneAll : List Node → List Node
  | [] => []
  | n :: rest => if p n then pruneAll rest else prune n :: pruneAll rest

end

mutual

/-- The nodes that a tree is pruned of.  What stands inside of one of them is not listed
again. -/
def pruned : Node → List Node
  | leaf _ => []
  | block _ children => prunedAll children

/-- The nodes that a list of trees is pruned of. -/
def prunedAll : List Node → List Node
  | [] => []
  | n :: rest => if p n then n :: prunedAll rest else pruned n ++ prunedAll rest

end

end

variable {p q : Node → Prop} [DecidablePred p] [DecidablePred q]
variable {n : Node} {ns : List Node} {content : Content}

theorem pruneAll_cons_of_pos (h : p n) (rest : List Node) :
    pruneAll p (n :: rest) = pruneAll p rest := by
  rw [pruneAll, if_pos h]

theorem pruneAll_cons_of_neg (h : ¬p n) (rest : List Node) :
    pruneAll p (n :: rest) = prune p n :: pruneAll p rest := by
  rw [pruneAll, if_neg h]

theorem prunedAll_cons_of_pos (h : p n) (rest : List Node) :
    prunedAll p (n :: rest) = n :: prunedAll p rest := by
  rw [prunedAll, if_pos h]

theorem prunedAll_cons_of_neg (h : ¬p n) (rest : List Node) :
    prunedAll p (n :: rest) = pruned p n ++ prunedAll p rest := by
  rw [prunedAll, if_neg h]

theorem pruneAll_append (ns ms : List Node) :
    pruneAll p (ns ++ ms) = pruneAll p ns ++ pruneAll p ms := by
  induction ns with
  | nil => rfl
  | cons n ns ih =>
    by_cases h : p n
    · rw [List.cons_append, pruneAll_cons_of_pos h, pruneAll_cons_of_pos h, ih]
    · rw [List.cons_append, pruneAll_cons_of_neg h, pruneAll_cons_of_neg h, ih, List.cons_append]

theorem prunedAll_append (ns ms : List Node) :
    prunedAll p (ns ++ ms) = prunedAll p ns ++ prunedAll p ms := by
  induction ns with
  | nil => rfl
  | cons n ns ih =>
    by_cases h : p n
    · rw [List.cons_append, prunedAll_cons_of_pos h, prunedAll_cons_of_pos h, ih,
        List.cons_append]
    · rw [List.cons_append, prunedAll_cons_of_neg h, prunedAll_cons_of_neg h, ih,
        List.append_assoc]

theorem prune_congr (h : ∀ n, p n ↔ q n) (n : Node) : n.prune p = n.prune q := by
  obtain rfl : p = q := funext fun n => propext (h n)
  congr

mutual

/-- A tree that is pruned of nothing stays as it is. -/
theorem prune_eq_self : (n : Node) → n.pruned p = [] → n.prune p = n
  | leaf _, _ => rfl
  | block head children, h => by
    rw [pruned] at h
    rw [prune, pruneAll_eq_self children h]

theorem pruneAll_eq_self : (ns : List Node) → prunedAll p ns = [] → pruneAll p ns = ns
  | [], _ => rfl
  | n :: rest, h => by
    by_cases hn : p n
    · rw [prunedAll_cons_of_pos hn] at h
      exact absurd h (List.cons_ne_nil _ _)
    · rw [prunedAll_cons_of_neg hn] at h
      obtain ⟨hfirst, hrest⟩ := List.append_eq_nil_iff.mp h
      rw [pruneAll_cons_of_neg hn, prune_eq_self n hfirst, pruneAll_eq_self rest hrest]

end

/-! ## Pruning twice -/

mutual

/-- A tree that is pruned twice is pruned for two reasons at once. -/
theorem prune_prune (h : ∀ n, p (n.prune q) ↔ p n) :
    (n : Node) → (n.prune q).prune p = n.prune fun n => q n ∨ p n
  | leaf _ => rfl
  | block head children => by
    rw [prune, prune, prune, pruneAll_pruneAll h children]

theorem pruneAll_pruneAll (h : ∀ n, p (n.prune q) ↔ p n) :
    (ns : List Node) → pruneAll p (pruneAll q ns) = pruneAll (fun n => q n ∨ p n) ns
  | [] => rfl
  | n :: rest => by
    have hrest := pruneAll_pruneAll h rest
    by_cases hq : q n
    · rw [pruneAll_cons_of_pos hq, pruneAll_cons_of_pos (.inl hq), hrest]
    · by_cases hp : p n
      · rw [pruneAll_cons_of_neg hq, pruneAll_cons_of_pos ((h n).mpr hp),
          pruneAll_cons_of_pos (.inr hp), hrest]
      · rw [pruneAll_cons_of_neg hq, pruneAll_cons_of_neg (mt (h n).mp hp),
          pruneAll_cons_of_neg (not_or.mpr ⟨hq, hp⟩), hrest, prune_prune h n]

end

mutual

/-- A tree that was pruned is pruned of nothing. -/
theorem pruned_prune_self (h : ∀ n, p (n.prune p) ↔ p n) :
    (n : Node) → (n.prune p).pruned p = []
  | leaf _ => rfl
  | block head children => by
    rw [prune, pruned, prunedAll_pruneAll_self h children]

theorem prunedAll_pruneAll_self (h : ∀ n, p (n.prune p) ↔ p n) :
    (ns : List Node) → prunedAll p (pruneAll p ns) = []
  | [] => rfl
  | n :: rest => by
    by_cases hp : p n
    · rw [pruneAll_cons_of_pos hp, prunedAll_pruneAll_self h rest]
    · rw [pruneAll_cons_of_neg hp, prunedAll_cons_of_neg (mt (h n).mp hp),
        pruned_prune_self h n, prunedAll_pruneAll_self h rest, List.nil_append]

end

mutual

/-- What a tree is pruned of in a second step.  The first step leaves this alone. -/
theorem pruned_prune (h : ∀ n, p (n.prune q) ↔ p n) (hself : ∀ n, p n → n.prune q = n)
    (hdisjoint : ∀ n, q n → ¬p n) :
    (n : Node) → (n.prune q).pruned p = (n.pruned fun n => q n ∨ p n).filter p
  | leaf _ => rfl
  | block head children => by
    rw [prune, pruned, pruned, prunedAll_pruneAll h hself hdisjoint children]

theorem prunedAll_pruneAll (h : ∀ n, p (n.prune q) ↔ p n) (hself : ∀ n, p n → n.prune q = n)
    (hdisjoint : ∀ n, q n → ¬p n) : (ns : List Node) →
    prunedAll p (pruneAll q ns) = (prunedAll (fun n => q n ∨ p n) ns).filter p
  | [] => rfl
  | n :: rest => by
    have hrest := prunedAll_pruneAll h hself hdisjoint rest
    by_cases hq : q n
    · rw [pruneAll_cons_of_pos hq, prunedAll_cons_of_pos (.inl hq), hrest,
        List.filter_cons_of_neg (by simpa using hdisjoint n hq)]
    · by_cases hp : p n
      · rw [pruneAll_cons_of_neg hq, hself n hp, prunedAll_cons_of_pos hp,
          prunedAll_cons_of_pos (.inr hp), List.filter_cons_of_pos (by simpa using hp), hrest]
      · rw [pruneAll_cons_of_neg hq, prunedAll_cons_of_neg (mt (h n).mp hp),
          prunedAll_cons_of_neg (not_or.mpr ⟨hq, hp⟩), List.filter_append, hrest,
          pruned_prune h hself hdisjoint n]

end

mutual

/-- What a tree is pruned of in a first step, if a second step drops only nodes that the
first one does nothing to. -/
theorem pruned_eq_filter (hnone : ∀ n, p n → n.pruned q = []) (hdisjoint : ∀ n, q n → ¬p n) :
    (n : Node) → n.pruned q = (n.pruned fun n => q n ∨ p n).filter q
  | leaf _ => rfl
  | block head children => by
    rw [pruned, pruned, prunedAll_eq_filter hnone hdisjoint children]

theorem prunedAll_eq_filter (hnone : ∀ n, p n → n.pruned q = []) (hdisjoint : ∀ n, q n → ¬p n) :
    (ns : List Node) → prunedAll q ns = (prunedAll (fun n => q n ∨ p n) ns).filter q
  | [] => rfl
  | n :: rest => by
    have hrest := prunedAll_eq_filter hnone hdisjoint rest
    by_cases hq : q n
    · rw [prunedAll_cons_of_pos hq, prunedAll_cons_of_pos (.inl hq),
        List.filter_cons_of_pos (by simpa using hq), hrest]
    · by_cases hp : p n
      · rw [prunedAll_cons_of_neg hq, prunedAll_cons_of_pos (.inr hp),
          List.filter_cons_of_neg (by simpa using hq), hnone n hp, List.nil_append, hrest]
      · rw [prunedAll_cons_of_neg hq, prunedAll_cons_of_neg (not_or.mpr ⟨hq, hp⟩),
          List.filter_append, hrest, pruned_eq_filter hnone hdisjoint n]

end

/-! ## Shapes -/

mutual

/-- In a pruned tree everything still stands where its kind may stand. -/
theorem StandsIn.prune : {n : Node} → {content : Content} → n.StandsIn content →
    (n.prune p).StandsIn content
  | leaf _, _, h => h
  | block _ _, _, h => ⟨h.1, AllStandIn.pruneAll h.2⟩

theorem AllStandIn.pruneAll : {ns : List Node} → {content : Content} → AllStandIn content ns →
    AllStandIn content (pruneAll p ns)
  | [], _, _ => trivial
  | n :: rest, content, h => by
    by_cases hp : p n
    · rw [pruneAll_cons_of_pos hp]
      exact AllStandIn.pruneAll h.2
    · rw [pruneAll_cons_of_neg hp]
      exact ⟨StandsIn.prune h.1, AllStandIn.pruneAll h.2⟩

end

/-! ## Declarations -/

/-- Whether a node is a declaration for which `p` holds. -/
def IsDeclarationWith (p : Declaration → Prop) (n : Node) : Prop :=
  ∃ d, n = leaf (.declaration d) ∧ p d

section

variable {p : Declaration → Prop}

theorem isDeclarationWith_leaf {d : Declaration} :
    IsDeclarationWith p (leaf (.declaration d)) ↔ p d := by
  simp [IsDeclarationWith]

theorem not_isDeclarationWith_of_none (h : n.declaration? = none) : ¬IsDeclarationWith p n := by
  rintro ⟨d, rfl, -⟩
  cases h

instance [DecidablePred p] : DecidablePred (IsDeclarationWith p) := fun n =>
  match h : n.declaration? with
  | some d =>
    decidable_of_iff (p d) (by rw [declaration?_eq_some.mp h, isDeclarationWith_leaf])
  | none => .isFalse (not_isDeclarationWith_of_none h)

end

variable {keep : Node → Bool}

mutual

/-- Filtering the declarations of every block prunes a tree. -/
theorem mapContents_filter_eq_prune (hkeep : ∀ n, n.declaration? = none → keep n = true)
    (vendor : Option String) : (n : Node) →
    n.mapContents (fun _ => (·.filter keep)) vendor =
      n.prune (IsDeclarationWith fun d => keep (leaf (.declaration d)) = false)
  | leaf _ => rfl
  | block head children => by
    rw [mapContents, prune, filter_mapContentsAll_eq_pruneAll hkeep _ children]

theorem filter_mapContentsAll_eq_pruneAll (hkeep : ∀ n, n.declaration? = none → keep n = true)
    (vendor : Option String) : (ns : List Node) →
    (mapContentsAll (fun _ => (·.filter keep)) vendor ns).filter keep =
      pruneAll (IsDeclarationWith fun d => keep (leaf (.declaration d)) = false) ns
  | [] => rfl
  | n :: rest => by
    have hrest := filter_mapContentsAll_eq_pruneAll hkeep vendor rest
    rw [mapContentsAll]
    cases hn : n.declaration? with
    | none =>
      have hkept := hkeep _ ((declaration?_mapContents (fun _ => (·.filter keep)) vendor n).trans hn)
      rw [List.filter_cons_of_pos hkept, hrest, mapContents_filter_eq_prune hkeep vendor n,
        pruneAll_cons_of_neg (not_isDeclarationWith_of_none hn)]
    | some d =>
      obtain rfl := declaration?_eq_some.mp hn
      rw [mapContents]
      by_cases hd : keep (leaf (.declaration d)) = true
      · rw [List.filter_cons_of_pos hd, hrest, pruneAll_cons_of_neg, prune]
        rw [isDeclarationWith_leaf, hd]
        exact Bool.true_eq_false.mp
      · rw [List.filter_cons_of_neg hd, hrest, pruneAll_cons_of_pos]
        exact isDeclarationWith_leaf.mpr (Bool.eq_false_iff.mpr hd)

end

/-! ## Animations -/

/-- Whether a node is an animation with a mark for which `p` holds. -/
def IsAnimationWith (p : String → Prop) (n : Node) : Prop :=
  ∃ name mark children, n = block (.keyframes name (some mark)) children ∧ p mark

section

variable {p : String → Prop} {name mark : String} {head : Block} {children : List Node}

theorem isAnimationWith_keyframes :
    IsAnimationWith p (block (.keyframes name (some mark)) children) ↔ p mark := by
  simp [IsAnimationWith]

theorem not_isAnimationWith_leaf (l : Leaf) : ¬IsAnimationWith p (leaf l) := by
  rintro ⟨_, _, _, h, -⟩
  cases h

theorem not_isAnimationWith_block (h : ∀ name mark, head ≠ .keyframes name (some mark)) :
    ¬IsAnimationWith p (block head children) := by
  rintro ⟨name, mark, _, heq, -⟩
  exact h name mark (Node.block.inj heq).1

theorem not_isAnimationWith_unmarked :
    ¬IsAnimationWith p (block (.keyframes name none) children) :=
  not_isAnimationWith_block fun _ _ heq => by cases heq

instance [DecidablePred p] : DecidablePred (IsAnimationWith p)
  | leaf l => .isFalse (not_isAnimationWith_leaf l)
  | block (.keyframes _ (some mark)) _ =>
    decidable_of_iff (p mark) isAnimationWith_keyframes.symm
  | block (.keyframes _ none) _ => .isFalse not_isAnimationWith_unmarked
  | block .sheet _ | block (.rule _) _ | block (.media _) _ | block (.supports _) _
  | block (.frame _) _ | block (.page _) _ | block (.document ..) _ =>
    .isFalse (not_isAnimationWith_block nofun)

theorem isAnimationWith_prune_iff (q : Node → Prop) [DecidablePred q] {n : Node} :
    IsAnimationWith p (n.prune q) ↔ IsAnimationWith p n := by
  cases n with
  | leaf l => rfl
  | block head children => simp [IsAnimationWith, prune]

/-- What does not stand among rules is no animation. -/
theorem StandsIn.not_isAnimationWith (h : n.StandsIn content) (hcontent : content ≠ .rules) :
    ¬IsAnimationWith p n := by
  rintro ⟨name, mark, children, rfl, -⟩
  exact hcontent h.1

end

mutual

/-- Where there are no rules there are no animations to drop. -/
theorem pruned_eq_nil_of_standsIn {p : String → Prop} [DecidablePred p] :
    {n : Node} → {content : Content} → n.StandsIn content → content ≠ .rules →
      n.pruned (IsAnimationWith p) = []
  | leaf _, _, _, _ => rfl
  | block head children, _, h, hcontent => by
    obtain ⟨hhead, hchildren⟩ := standsIn_block.mp h
    rw [pruned, prunedAll_eq_nil_of_allStandIn hchildren]
    exact fun hrules => hcontent (hhead.conditional_of_content hrules).2

theorem prunedAll_eq_nil_of_allStandIn {p : String → Prop} [DecidablePred p] :
    {ns : List Node} → {content : Content} → AllStandIn content ns → content ≠ .rules →
      prunedAll (IsAnimationWith p) ns = []
  | [], _, _, _ => rfl
  | n :: rest, _, h, hcontent => by
    obtain ⟨hn, hrest⟩ := allStandIn_cons.mp h
    rw [prunedAll_cons_of_neg (hn.not_isAnimationWith hcontent),
      pruned_eq_nil_of_standsIn hn hcontent, prunedAll_eq_nil_of_allStandIn hrest hcontent,
      List.nil_append]

end

variable {useless : String → Bool}

/-- Only a conditional block has animations inside of it that are dropped. -/
theorem pruned_eq_nil_of_not_conditional {p : String → Prop} [DecidablePred p] {head : Block}
    {children : List Node} (h : StandsIn .rules (block head children))
    (hcond : head.isConditional = false) : pruned (IsAnimationWith p) (block head children) = [] := by
  obtain ⟨hhead, hchildren⟩ := standsIn_block.mp h
  refine prunedAll_eq_nil_of_allStandIn hchildren fun hrules => ?_
  rw [(hhead.conditional_of_content hrules).1] at hcond
  cases hcond

theorem not_isAnimationWith_of_conditional {p : String → Prop} {head : Block}
    {children : List Node} (h : head.isConditional = true) :
    ¬IsAnimationWith p (block head children) :=
  not_isAnimationWith_block fun _ _ heq => by rw [heq] at h; cases h

theorem not_isAnimationWith_of_inert {p : String → Prop} {head : Block}
    {children : List Node} (h : head.isInert = true) : ¬IsAnimationWith p (block head children) :=
  not_isAnimationWith_block fun _ _ heq => by rw [heq] at h; cases h

mutual

/-- Dropping animations prunes a style sheet. -/
theorem dropIn_eq_pruneAll : (n : Node) → n.StandsIn .rules →
    dropIn useless n = pruneAll (IsAnimationWith (useless · = true)) [n]
  | leaf l, _ => by
    rw [pruneAll_cons_of_neg (not_isAnimationWith_leaf l)]
    rfl
  | block head children, h => by
    obtain ⟨name, rfl⟩ | ⟨name, mark, rfl⟩ | hcond | hinert := head.animation_cases
    · rw [dropIn_unmarked, pruneAll_cons_of_neg not_isAnimationWith_unmarked,
        prune_eq_self _ (pruned_eq_nil_of_not_conditional h rfl), pruneAll]
    · rw [dropIn_marked]
      by_cases hmark : useless mark = true
      · rw [if_pos hmark, pruneAll_cons_of_pos (isAnimationWith_keyframes.mpr hmark), pruneAll]
      · rw [if_neg hmark, pruneAll_cons_of_neg (mt isAnimationWith_keyframes.mp hmark),
          prune_eq_self _ (pruned_eq_nil_of_not_conditional h rfl), pruneAll]
    · have hchildren := h.2
      rw [Block.content_of_conditional hcond] at hchildren
      rw [dropIn_of_conditional hcond,
        pruneAll_cons_of_neg (not_isAnimationWith_of_conditional hcond), prune, pruneAll,
        dropAll_eq_pruneAll children hchildren]
    · have hnone := pruned_eq_nil_of_not_conditional (p := (useless · = true)) h
        (Block.isConditional_of_inert hinert)
      rw [dropIn_of_inert hinert, pruneAll_cons_of_neg (not_isAnimationWith_of_inert hinert),
        prune_eq_self _ hnone, pruneAll]

theorem dropAll_eq_pruneAll : (ns : List Node) → AllStandIn .rules ns →
    dropAll useless ns = pruneAll (IsAnimationWith (useless · = true)) ns
  | [], _ => rfl
  | n :: rest, h => by
    obtain ⟨hn, hrest⟩ := allStandIn_cons.mp h
    rw [dropAll, dropIn_eq_pruneAll n hn, dropAll_eq_pruneAll rest hrest, ← pruneAll_append,
      List.singleton_append]

end

/-! ## Numbers -/

mutual

/-- The declarations of a tree are left or dropped. -/
theorem declarationCount_prune_add (p : Node → Prop) [DecidablePred p] : (n : Node) →
    (n.prune p).declarationCount + declarationCountAll (n.pruned p) = n.declarationCount
  | leaf _ => rfl
  | block head children => by
    rw [prune, pruned, declarationCount, declarationCount,
      declarationCountAll_pruneAll_add p children]

theorem declarationCountAll_pruneAll_add (p : Node → Prop) [DecidablePred p] :
    (ns : List Node) →
    declarationCountAll (pruneAll p ns) + declarationCountAll (prunedAll p ns) =
      declarationCountAll ns
  | [] => rfl
  | n :: rest => by
    have hrest := declarationCountAll_pruneAll_add p rest
    by_cases h : p n
    · rw [pruneAll_cons_of_pos h, prunedAll_cons_of_pos h, declarationCountAll,
        declarationCountAll]
      omega
    · have hn := declarationCount_prune_add p n
      rw [pruneAll_cons_of_neg h, prunedAll_cons_of_neg h, declarationCountAll_append,
        declarationCountAll, declarationCountAll]
      omega

end

/-- Declarations count once each. -/
theorem declarationCountAll_eq_length (h : ∀ n ∈ ns, n.declarationCount = 1) :
    declarationCountAll ns = ns.length := by
  induction ns with
  | nil => rfl
  | cons n ns ih =>
    obtain ⟨hn, hns⟩ := List.forall_mem_cons.mp h
    rw [declarationCountAll, hn, ih hns, List.length_cons, Nat.add_comm]

mutual

/-- A style sheet is pruned of as many animations as it has with a useless mark. -/
theorem length_pruned_singleton : (n : Node) → n.StandsIn .rules →
    (prunedAll (IsAnimationWith (useless · = true)) [n]).length =
      ((animationsIn n).filter (·.vendor.any useless)).length
  | leaf l, _ => by
    rw [prunedAll_cons_of_neg (not_isAnimationWith_leaf l)]
    rfl
  | block head children, h => by
    obtain ⟨name, rfl⟩ | ⟨name, mark, rfl⟩ | hcond | hinert := head.animation_cases
    · rw [prunedAll_cons_of_neg not_isAnimationWith_unmarked,
        pruned_eq_nil_of_not_conditional h rfl]
      rfl
    · rw [animationsIn_keyframes]
      by_cases hmark : useless mark = true
      · rw [prunedAll_cons_of_pos (isAnimationWith_keyframes.mpr hmark), prunedAll]
        simp [hmark]
      · rw [prunedAll_cons_of_neg (mt isAnimationWith_keyframes.mp hmark),
          pruned_eq_nil_of_not_conditional h rfl, prunedAll]
        simp [hmark]
    · have hchildren := h.2
      rw [Block.content_of_conditional hcond] at hchildren
      rw [prunedAll_cons_of_neg (not_isAnimationWith_of_conditional hcond), pruned, prunedAll,
        List.append_nil, animationsIn_of_conditional hcond, length_prunedAll children hchildren]
    · have hnone := pruned_eq_nil_of_not_conditional (p := (useless · = true)) h
        (Block.isConditional_of_inert hinert)
      rw [prunedAll_cons_of_neg (not_isAnimationWith_of_inert hinert), hnone,
        animationsIn_of_inert hinert]
      rfl

theorem length_prunedAll : (ns : List Node) → AllStandIn .rules ns →
    (prunedAll (IsAnimationWith (useless · = true)) ns).length =
      ((animationsAll ns).filter (·.vendor.any useless)).length
  | [], _ => rfl
  | n :: rest, h => by
    obtain ⟨hn, hrest⟩ := allStandIn_cons.mp h
    rw [← List.singleton_append, prunedAll_append, List.length_append,
      length_pruned_singleton n hn, length_prunedAll rest hrest, ← List.length_append,
      ← List.filter_append, animationsAll_append, animationsAll_singleton]

end

end Node
end VendorPrefixing
