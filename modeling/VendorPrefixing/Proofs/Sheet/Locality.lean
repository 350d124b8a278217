import VendorPrefixing.Proofs.Sheet.Animation

/-!
# Style sheets in parts

Copying animations goes through a style sheet with a list of the animations it knows.
Which copies stand in a part of the style sheet only depends on what is known of the
animations that have a name of this part.  The other passes know nothing about what stands
beside a rule, or around it as long as this is no block of a vendor.

Main results:

- Theorem `Node.copyAll_congr`: copies only depend on what is missing of the animations that
  are copied.
- Theorem `Node.copyAll_append_of_namesApart`: rules whose animations have different names
  are copied independently.
- Theorems `Node.isLocal_mapContents` and `Node.isLocal_dropAnimations`: passes over
  declarations and dropping animations are local.
-/

namespace VendorPrefixing
namespace Node

variable {head : Block} {ns ms : List Node} {marks : List String}
variable {known known' : List Animation} {f : Option String → List Node → List Node}

/-! ## Copies -/

mutual

theorem copyIn_congr : (n : Node) → ∀ {known known'},
    (∀ a ∈ animationsIn n, missingMarks marks known a.name = missingMarks marks known' a.name) →
      (copyIn marks known n).1 = (copyIn marks known' n).1
  | leaf _, _, _, _ => rfl
  | block head children, known, known', h => by
    obtain ⟨name, rfl⟩ | ⟨name, mark, rfl⟩ | hcond | hinert := head.animation_cases
    · have hname : missingMarks marks known name = missingMarks marks known' name :=
        h _ List.mem_cons_self
      rw [copyIn_unmarked, copyIn_unmarked, hname]
    · rfl
    · rw [animationsIn_of_conditional hcond] at h
      rw [copyIn_of_conditional hcond, copyIn_of_conditional hcond, copyAll_congr children h]
    · rw [copyIn_of_inert hinert, copyIn_of_inert hinert]

/-- Copies only depend on what is missing of the animations that are copied. -/
theorem copyAll_congr : (ns : List Node) → ∀ {known known'},
    (∀ a ∈ animationsAll ns, missingMarks marks known a.name = missingMarks marks known' a.name) →
      (copyAll marks known ns).1 = (copyAll marks known' ns).1
  | [], _, _, _ => rfl
  | n :: rest, known, known', h => by
    rw [animationsAll] at h
    have hfirst := copyIn_congr n fun a ha => h a (List.mem_append_left _ ha)
    have hrest : (copyAll marks (copyIn marks known n).2 rest).1 =
        (copyAll marks (copyIn marks known' n).2 rest).1 := by
      refine copyAll_congr rest fun a ha => ?_
      rw [missingMarks_copyIn, missingMarks_copyIn, h a (List.mem_append_right _ ha)]
    rw [copyAll_cons, copyAll_cons, hfirst, hrest]

end

theorem copyAll_append (marks : List String) (known : List Animation) (ns ms : List Node) :
    (copyAll marks known (ns ++ ms)).1 =
      (copyAll marks known ns).1 ++ (copyAll marks (copyAll marks known ns).2 ms).1 := by
  induction ns generalizing known with
  | nil => rfl
  | cons n ns ih => rw [List.cons_append, copyAll_cons, copyAll_cons, ih, List.append_assoc]

/-- Known animations of other names make no difference to what is missing. -/
theorem missingMarks_congr {name : String}
    (h : ∀ a : Animation, a.name = name → (a ∈ known ↔ a ∈ known')) :
    missingMarks marks known name = missingMarks marks known' name := by
  refine List.filter_congr fun mark _ => ?_
  rw [List.contains_eq_mem, List.contains_eq_mem, decide_eq_decide.mpr (h ⟨name, some mark⟩ rfl)]

/-- Whether no animation of some rules has the name of one of some others. -/
def NamesApart (ns ms : List Node) : Prop :=
  ∀ a ∈ animationsAll ns, ∀ b ∈ animationsAll ms, a.name ≠ b.name

/-- Rules whose animations have different names are copied independently. -/
theorem copyAll_append_of_namesApart (marks : List String) (h : NamesApart ns ms) :
    (copyAll marks (animationsAll (ns ++ ms)) (ns ++ ms)).1 =
      (copyAll marks (animationsAll ns) ns).1 ++ (copyAll marks (animationsAll ms) ms).1 := by
  have hfront : ∀ a ∈ animationsAll ns, missingMarks marks (animationsAll (ns ++ ms)) a.name =
      missingMarks marks (animationsAll ns) a.name := by
    intro a ha
    refine missingMarks_congr fun b hb => ?_
    rw [animationsAll_append, List.mem_append]
    exact or_iff_left fun hmem => h a ha b hmem hb.symm
  have hback : ∀ b ∈ animationsAll ms,
      missingMarks marks (copyAll marks (animationsAll (ns ++ ms)) ns).2 b.name =
        missingMarks marks (animationsAll ms) b.name := by
    intro b hb
    have hnew : ⟨b.name, none⟩ ∉ animationsAll ns := fun hmem => h _ hmem b hb rfl
    rw [missingMarks_copyAll, if_neg hnew]
    refine missingMarks_congr fun a ha => ?_
    rw [animationsAll_append, List.mem_append]
    exact or_iff_right fun hmem => h a hmem b hb ha
  rw [copyAll_append, copyAll_congr ns hfront, copyAll_congr ms hback]

theorem declarations_copyIn (marks : List String) (known : List Animation) (n : Node) :
    declarations (copyIn marks known n).1 = declarations [n] := by
  cases n with
  | leaf l => rfl
  | block head children =>
    obtain ⟨name, rfl⟩ | ⟨name, mark, rfl⟩ | hcond | hinert := head.animation_cases
    · have hcopies : ∀ missing : List String, declarations
          (missing.map fun mark => block (.keyframes name (some mark)) children) = [] := by
        intro missing
        rw [declarations, List.filterMap_map]
        exact List.filterMap_eq_nil_iff.mpr fun _ _ => rfl
      rw [copyIn_unmarked, declarations_append, hcopies, List.nil_append]
    · rfl
    · rw [copyIn_of_conditional hcond]
      rfl
    · rw [copyIn_of_inert hinert]

/-- Copying animations makes no declarations among rules. -/
theorem declarations_copyAll (marks : List String) (known : List Animation) (ns : List Node) :
    declarations (copyAll marks known ns).1 = declarations ns := by
  induction ns generalizing known with
  | nil => rfl
  | cons n ns ih =>
    rw [copyAll_cons, declarations_append, declarations_copyIn, ih, ← declarations_append,
      List.singleton_append]

/-! ## Other passes -/

/-- A pass over style sheets that goes through the rules part by part, and through the rules
in a conditional block of no vendor as through those of a style sheet.  `rules` is what it
does to rules. -/
structure IsLocal (pass : Node → Node) (rules : List Node → List Node) : Prop where
  sheet : ∀ ns, declarations ns = [] → pass (block .sheet ns) = block .sheet (rules ns)
  declarations_eq_nil : ∀ ns, declarations ns = [] → declarations (rules ns) = []
  append : ∀ ns ms, rules (ns ++ ms) = rules ns ++ rules ms
  block : ∀ head ns, head.isConditional = true → head.vendorWithin none = none →
    declarations ns = [] → rules [block head ns] = [block head (rules ns)]

variable {pass after : Node → Node} {rules rulesAfter : List Node → List Node}

/-- Two local passes one after the other are local. -/
theorem IsLocal.comp (h : IsLocal pass rules) (hafter : IsLocal after rulesAfter) :
    IsLocal (after ∘ pass) (rulesAfter ∘ rules) where
  sheet ns hns := by
    rw [Function.comp, h.sheet ns hns, hafter.sheet _ (h.declarations_eq_nil ns hns),
      Function.comp]
  declarations_eq_nil ns hns := hafter.declarations_eq_nil _ (h.declarations_eq_nil ns hns)
  append ns ms := by
    rw [Function.comp, h.append, hafter.append]
    rfl
  block head ns hcond hvendor hns := by
    rw [Function.comp, h.block head ns hcond hvendor hns,
      hafter.block head _ hcond hvendor (h.declarations_eq_nil ns hns)]
    rfl

/-- A pass that changes nothing but declarations is local. -/
theorem isLocal_mapContents (hf : ∀ vendor ns, declarations ns = [] → f vendor ns = ns) :
    IsLocal (·.mapContents f none) (mapContentsAll f none) where
  sheet ns hns := by
    have hvendor : Block.vendorWithin none .sheet = none := rfl
    rw [mapContents, hvendor, hf none _ ((declarations_mapContentsAll none ns).trans hns)]
  declarations_eq_nil ns hns := (declarations_mapContentsAll none ns).trans hns
  append ns ms := mapContentsAll_append none ns ms
  block head ns _ hvendor hns := by
    rw [mapContentsAll, mapContents, hvendor,
      hf none _ ((declarations_mapContentsAll none ns).trans hns), mapContentsAll]

/-- Dropping animations is local. -/
theorem isLocal_dropAnimations (useless : String → Bool) :
    IsLocal (·.dropAnimations useless) (dropAll useless) where
  sheet ns _ := rfl
  declarations_eq_nil ns hns := by
    rw [dropAll_eq_flatMap, (keepsDeclarations_dropIn useless).declarations_flatMap, hns]
  append ns ms := dropAll_append useless ns ms
  block head ns hcond _ _ := by
    rw [dropAll, dropIn_of_conditional hcond, dropAll, List.append_nil]

end Node
end VendorPrefixing
