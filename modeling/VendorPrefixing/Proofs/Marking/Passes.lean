import VendorPrefixing.Marking.Process
import VendorPrefixing.Proofs.Sheet.Animation

/-!
# The passes of a run

Each step of a run that goes through the blocks of a style sheet only concerns
declarations.  So the two passes that add are one pass, and animations stay as
they are between copying and dropping.

Main results:

- Theorem `Plan.addMarks_eq`: adding is one pass over a style sheet with copied
  animations.
- Theorem `Plan.animations_addMarks`: the passes that add leave animations alone.
- Theorem `Plan.markProperties_eq_self_of_count`: a pass over properties that adds
  no declaration changes nothing.
- Theorem `Plan.markValues_eq_of_count`: a pass over values that adds no
  declaration only overwrites.
-/

namespace VendorPrefixing
namespace Plan

open Node (OnlyDeclarations)

variable (plan : Plan) (vendor : Option String)

/-! ## One pass -/

/-- Marking the properties of a block only concerns its declarations. -/
theorem onlyDeclarations_markPropertiesIn : OnlyDeclarations (plan.markPropertiesIn vendor) :=
  Node.onlyDeclarations_weave

/-- Marking the values of a block only concerns its declarations. -/
theorem onlyDeclarations_markValuesIn : OnlyDeclarations (plan.markValuesIn vendor) :=
  Node.onlyDeclarations_weave

/-- The contents of a block that belongs to `vendor` with the marked forms of its
properties and values. -/
def markIn (ns : List Node) : List Node :=
  plan.markValuesIn vendor (plan.markPropertiesIn vendor ns)

theorem onlyDeclarations_markIn : OnlyDeclarations (plan.markIn vendor) :=
  (plan.onlyDeclarations_markValuesIn vendor).comp (plan.onlyDeclarations_markPropertiesIn vendor)

/-- Marking properties and then values is one pass. -/
theorem markValues_markProperties (n : Node) :
    plan.markValues (plan.markProperties n) = n.mapContents plan.markIn none :=
  Node.mapContents_mapContents plan.onlyDeclarations_markPropertiesIn none n

theorem addition_fst (n : Node) : (plan.addition n).1 = plan.addMarks n :=
  rfl

/-- Adding is one pass over a style sheet with copied animations. -/
theorem addMarks_eq (n : Node) :
    plan.addMarks n = (plan.copyKeyframes n).mapContents plan.markIn none :=
  plan.markValues_markProperties _

/-- The passes that add leave animations alone. -/
theorem animations_addMarks (n : Node) :
    (plan.addMarks n).animations = (plan.copyKeyframes n).animations := by
  rw [addMarks_eq, Node.animations_mapContents plan.onlyDeclarations_markIn]

/-! ## Removing -/

/-- Only declarations are ever useless. -/
theorem not_any_removes_of_none {n : Node} (h : n.declaration? = none) :
    (!n.declaration?.any plan.removesDeclaration) = true := by
  rw [h]
  rfl

/-- Dropping the useless declarations of a block only concerns its declarations. -/
theorem onlyDeclarations_dropDeclarations : OnlyDeclarations plan.dropDeclarations :=
  Node.onlyDeclarations_filter fun _ h => plan.not_any_removes_of_none h

section Dropping

variable {plan} {same : Declaration → Declaration → Bool}
variable {forms : Declaration → List Declaration × Declaration} {ns : List Node}

theorem dropDeclarations_cons_of_none {n : Node} (h : n.declaration? = none) (rest : List Node) :
    plan.dropDeclarations (n :: rest) = n :: plan.dropDeclarations rest :=
  List.filter_cons_of_pos (plan.not_any_removes_of_none h)

theorem dropDeclarations_cons_leaf (d : Declaration) (rest : List Node) :
    plan.dropDeclarations (.leaf (.declaration d) :: rest) =
      if plan.removesDeclaration d = true then plan.dropDeclarations rest
      else .leaf (.declaration d) :: plan.dropDeclarations rest := by
  rw [dropDeclarations, List.filter_cons, Node.declaration?, Option.any_some]
  cases plan.removesDeclaration d <;> rfl

/-- A block without useless declarations keeps them all. -/
theorem dropDeclarations_eq_self
    (h : ∀ d ∈ Node.declarations ns, plan.removesDeclaration d = false) :
    plan.dropDeclarations ns = ns := by
  induction ns with
  | nil => rfl
  | cons n rest ih =>
    cases hn : n.declaration? with
    | none =>
      rw [Node.declarations_cons_of_none hn] at h
      rw [dropDeclarations_cons_of_none hn, ih h]
    | some d =>
      obtain rfl := Node.declaration?_eq_some.mp hn
      rw [Node.declarations_cons_leaf] at h
      rw [dropDeclarations_cons_leaf, h d List.mem_cons_self, if_neg Bool.false_ne_true,
        ih fun e he => h e (List.mem_cons_of_mem d he)]

/-- Where everything that is put in is useless, dropping leaves what was there. -/
theorem dropDeclarations_weave
    (h : ∀ d ∈ Node.declarations ns, ∀ e ∈ (forms d).1, plan.removesDeclaration e = true) :
    plan.dropDeclarations (Node.weave same forms ns) =
      plan.dropDeclarations (ns.map (Node.overwrite forms)) :=
  Node.filter_weaveFrom fun d hd e he => by
    rw [Node.declaration?, Option.any_some, h d hd e he, Bool.not_true]

/-- Overwriting what is useless before and after makes no difference. -/
theorem dropDeclarations_map_overwrite
    (h : ∀ d ∈ Node.declarations ns, (forms d).2 = d ∨
      plan.removesDeclaration d = true ∧ plan.removesDeclaration (forms d).2 = true) :
    plan.dropDeclarations (ns.map (Node.overwrite forms)) = plan.dropDeclarations ns := by
  induction ns with
  | nil => rfl
  | cons n rest ih =>
    cases hn : n.declaration? with
    | none =>
      rw [Node.declarations_cons_of_none hn] at h
      rw [List.map_cons, Node.overwrite_of_none hn, dropDeclarations_cons_of_none hn,
        dropDeclarations_cons_of_none hn, ih h]
    | some d =>
      obtain rfl := Node.declaration?_eq_some.mp hn
      rw [Node.declarations_cons_leaf] at h
      have hrest := ih fun e he => h e (List.mem_cons_of_mem d he)
      rw [List.map_cons, Node.overwrite_leaf, dropDeclarations_cons_leaf,
        dropDeclarations_cons_leaf, hrest]
      rcases h d List.mem_cons_self with hsame | ⟨hbefore, hafter⟩
      · rw [hsame]
      · rw [if_pos hbefore, if_pos hafter]

end Dropping

/-! ## Without a change in number -/

theorem declarationCount_le_markProperties (n : Node) :
    n.declarationCount ≤ (plan.markProperties n).declarationCount :=
  Node.declarationCount_le_mapContents
    (fun _ ns => Node.declarationCountAll_le_weaveFrom [] ns) none n

theorem declarationCount_le_markValues (n : Node) :
    n.declarationCount ≤ (plan.markValues n).declarationCount :=
  Node.declarationCount_le_mapContents
    (fun _ ns => Node.declarationCountAll_le_weaveFrom [] ns) none n

/-- Overwriting every declaration with itself changes nothing. -/
theorem map_overwrite_propertyForms (ns : List Node) :
    ns.map (Node.overwrite fun d => (plan.propertyForms vendor d, d)) = ns := by
  refine (List.map_congr_left fun n _ => ?_).trans (List.map_id ns)
  cases hn : n.declaration? with
  | none => exact Node.overwrite_of_none hn
  | some d =>
    obtain rfl := Node.declaration?_eq_some.mp hn
    rfl

/-- A pass over properties that adds no declaration changes nothing. -/
theorem markProperties_eq_self_of_count {n : Node}
    (h : (plan.markProperties n).declarationCount = n.declarationCount) :
    plan.markProperties n = n := by
  have heq : plan.markProperties n = n.mapContents (fun _ => id) none := by
    refine Node.mapContents_eq_of_count
      (fun _ ns => Node.declarationCountAll_le_weaveFrom [] ns) (fun vendor ns hns => ?_) none n h
    exact (Node.map_overwrite_eq_of_count hns).trans (plan.map_overwrite_propertyForms vendor ns)
  rw [heq, Node.mapContents_id]

/-- A pass over values that adds no declaration only overwrites. -/
theorem markValues_eq_of_count {n : Node}
    (h : (plan.markValues n).declarationCount = n.declarationCount) :
    plan.markValues n =
      n.mapContents (fun vendor => (·.map (Node.overwrite (plan.markValue vendor)))) none :=
  Node.mapContents_eq_of_count (fun _ ns => Node.declarationCountAll_le_weaveFrom [] ns)
    (fun _ _ hns => Node.map_overwrite_eq_of_count hns) none n h

end Plan
end VendorPrefixing
