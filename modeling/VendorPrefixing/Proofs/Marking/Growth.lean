import VendorPrefixing.Proofs.Marking.Written
import VendorPrefixing.Proofs.Sheet.Recording

/-!
# What adding puts in

Adding runs three passes over a style sheet, and the last one also meets what the one
before it has put in.  Carried out on records, the passes show which declaration
everything that is put in belongs to, and the numbers that a run reports are the numbers
of the record.

Main results:

- Theorem `Plan.isFresh_or_isMarked`: what becomes of one declaration.
- Theorem `Plan.records_growth`: adding keeps every node in its place, puts copies of
  animations in front of what they copy and declarations in front of the ones that they
  stand for, and counts both.
-/

namespace VendorPrefixing
namespace Plan

open Node (missingMarks)
open Growth (Entry copied woven entries inserted marksOf)

variable (plan : Plan)

/-- The record of marking the properties in a style sheet with copied animations. -/
def propertyGrowth (n : Node) : Growth :=
  woven (fun d e => d.property == e.property) (fun vendor d => (plan.propertyForms vendor d, d))
    none (copied (plan.add "@keyframes") n)

/-- The record of adding to a style sheet. -/
def growth (n : Node) : Growth :=
  woven (fun d e => d.pair == e.pair) plan.markValue none (plan.propertyGrowth n)

/-! ## The two sides -/

theorem before_growth (n : Node) : (plan.growth n).before = [n] := by
  rw [growth, Growth.before_woven, propertyGrowth, Growth.before_woven, Growth.before_copied]

theorem after_growth (n : Node) : (plan.growth n).after = [(plan.addition n).1] := by
  rw [growth, Growth.after_woven, propertyGrowth, Growth.after_woven, Growth.after_copied]
  rfl

/-! ## Declarations -/

/-- Whether the passes make a declaration of a record what it is. -/
structure IsMarked (e : Entry) : Prop where
  new_eq : e.new = (plan.markValue e.vendor e.old).2
  /-- What stands in front is a form of the value, or a form of the property with the
  forms of its value. -/
  front : ∀ x ∈ e.front, x ∈ (plan.markValue e.vendor e.old).1 ∨
    ∃ y ∈ plan.propertyForms e.vendor e.old,
      x ∈ (plan.markValue e.vendor y).1 ∨ x = (plan.markValue e.vendor y).2

variable {plan} {n : Node} {e : Entry}

theorem isMarked_of_grows {first second : Entry} (hfresh : first.IsFresh)
    (hproperty : first.Grows (fun vendor d => (plan.propertyForms vendor d, d)) second)
    (hvalue : second.Grows plan.markValue e) : plan.IsMarked e := by
  have hvendor : second.vendor = e.vendor := hvalue.vendor_eq.symm
  have hold : first.old = e.old := by rw [hvalue.old_eq, hproperty.old_eq]
  have hnew : second.new = e.old := by rw [hproperty.new_eq, hfresh.new_eq, hold]
  have hforms : ∀ y ∈ second.front, y ∈ plan.propertyForms e.vendor e.old := by
    intro y hy
    rcases hproperty.front y hy with ⟨z, hz, -⟩ | hy
    · rw [hfresh.front_eq] at hz
      exact absurd hz List.not_mem_nil
    · rwa [hfresh.new_eq, hold, ← hproperty.vendor_eq, hvendor] at hy
  constructor
  · rw [hvalue.new_eq, hvendor, hnew]
  · intro x hx
    rcases hvalue.front x hx with ⟨y, hy, hx⟩ | hx
    · rw [hvendor] at hx
      exact .inr ⟨y, hforms y hy, hx⟩
    · rw [hvendor, hnew] at hx
      exact .inl hx

/-- What becomes of one declaration. -/
theorem isFresh_or_isMarked (h : e ∈ (plan.growth n).entries none) :
    e.IsFresh ∨ plan.IsMarked e := by
  have hfresh := Growth.isFresh_copied (plan.add "@keyframes") none n
  obtain ⟨front, old, new, hroot⟩ | hroot :=
    (copied (plan.add "@keyframes") n).eq_declaration_or
  · -- The passes only go into blocks, so they leave a declaration at the root alone.
    rw [growth, propertyGrowth, hroot] at h
    rw [hroot] at hfresh
    exact .inl (hfresh e h)
  · have hproperties : (plan.propertyGrowth n).isDeclaration = false := by
      rw [propertyGrowth, Growth.isDeclaration_woven, hroot]
    obtain ⟨second, hsecond, hvalue⟩ := Growth.exists_grows_of_mem_woven _ _ hproperties h
    obtain ⟨first, hfirst, hproperty⟩ := Growth.exists_grows_of_mem_woven _ _ hroot hsecond
    exact .inr (isMarked_of_grows (hfresh first hfirst) hproperty hvalue)

/-- Every record of a declaration is about one that was there before. -/
theorem map_old_growth (plan : Plan) (n : Node) :
    ((plan.growth n).entries none).map Entry.old =
      ((copied (plan.add "@keyframes") n).entries none).map Entry.old := by
  rw [growth, Growth.map_old_entries_woven, propertyGrowth, Growth.map_old_entries_woven]

/-- The declarations in front of which something is put are those of the style sheet. -/
theorem forall_old_growth {p : Declaration → Prop} (h : ∀ x ∈ n.placed none, p x.2) :
    ∀ e ∈ (plan.growth n).entries none, p e.old := by
  intro e he
  have hold : e.old ∈ ((copied (plan.add "@keyframes") n).entries none).map Entry.old :=
    map_old_growth plan n ▸ List.mem_map_of_mem he
  obtain ⟨first, hfirst, heq⟩ := List.mem_map.mp hold
  have hfresh := Growth.isFresh_copied _ none n first hfirst
  have hplaced : (first.vendor, first.old) ∈ Node.placedAll none
      (copied (plan.add "@keyframes") n).after := by
    rw [Growth.placedAll_after, List.mem_flatMap]
    refine ⟨first, hfirst, ?_⟩
    rw [Entry.placed, hfresh.front_eq, hfresh.new_eq]
    exact List.mem_singleton_self _
  rw [Growth.after_copied, Node.placedAll, Node.placedAll, List.append_nil] at hplaced
  rw [← heq]
  exact Node.forall_placed_copyAnimations h _ hplaced

/-! ## What stands for a declaration -/

variable (plan) in
/-- Whether a declaration has the place of another one, and its property or a marked form
of its property. -/
def StandsFor (old d : Declaration) : Prop :=
  d.position = old.position ∧
    (d.property = old.property ∨
      ∃ f, plan.feature? old.property = some f ∧ ∃ mark ∈ plan.add old.property,
        ∃ form ∈ f.feature.spelling.forms mark old.property old.value, d.property = form.1)

variable {vendor : Option String} {old d : Declaration}

theorem standsFor_of_mem_propertyForms (h : d ∈ plan.propertyForms vendor old) :
    plan.StandsFor old d := by
  refine ⟨mem_propertyForms h, .inr ?_⟩
  obtain ⟨f, hf, _, mark, hmark, _, _, form, hform, rfl⟩ := mem_propertyForms_iff.mp h
  refine ⟨f, hf, mark, ?_, form, hform, rfl⟩
  rw [add, hf]
  exact hmark

theorem StandsFor.mem_markValue {x : Declaration} (h : plan.StandsFor old d)
    (hx : x ∈ (plan.markValue vendor d).1) : plan.StandsFor old x := by
  obtain ⟨value, _, rfl⟩ := mem_allMarkedValues_of_mem_markValue hx
  exact h

theorem StandsFor.markValue_snd (h : plan.StandsFor old d) :
    plan.StandsFor old (plan.markValue vendor d).2 := by
  obtain ⟨value, hvalue⟩ := exists_markValue_snd plan vendor d
  rw [hvalue]
  exact h

theorem IsMarked.standsFor (he : plan.IsMarked e) : ∀ x ∈ e.front, plan.StandsFor e.old x := by
  intro x hx
  have hold : plan.StandsFor e.old e.old := ⟨rfl, .inl rfl⟩
  rcases he.front x hx with hx | ⟨y, hy, hx | rfl⟩
  · exact hold.mem_markValue hx
  · exact (standsFor_of_mem_propertyForms hy).mem_markValue hx
  · exact (standsFor_of_mem_propertyForms hy).markValue_snd

variable (plan) in
/-- Whether a declaration is another one as it was, or its property carries the mark of a
selected browser and nothing but the value is different. -/
def Keeps (old d : Declaration) : Prop :=
  d = old ∨ ∃ mark ∈ plan.vendors,
    vendorOf? old.property = some mark ∧ ∃ value, d = { old with value := value }

theorem IsMarked.keeps (he : plan.IsMarked e) : plan.Keeps e.old e.new := by
  rw [he.new_eq]
  by_cases h : plan.Overwrites e.vendor e.old
  · obtain ⟨mark, hmark, hown, -⟩ := h
    exact .inr ⟨mark, mem_vendors_of_mem_marksFor hmark, hown, exists_markValue_snd _ _ _⟩
  · exact .inl (markValue_snd_eq_self_iff.mpr h)

/-! ## Numbers -/

theorem declarationCount_copyKeyframes (plan : Plan) (n : Node) :
    (plan.copyKeyframes n).declarationCount = ((plan.growth n).entries none).length := by
  have hnone := Growth.inserted_eq_zero (Growth.isFresh_copied (plan.add "@keyframes") none n)
  have hcount := Growth.declarationCountAll_after (copied (plan.add "@keyframes") n)
  rw [Growth.after_copied, hnone, Nat.zero_add] at hcount
  have hlength := congrArg List.length (map_old_growth plan n)
  rw [List.length_map, List.length_map, ← hcount] at hlength
  exact hlength.symm

theorem declarationCount_addition (plan : Plan) (n : Node) :
    (plan.addition n).1.declarationCount =
      inserted ((plan.growth n).entries none) + ((plan.growth n).entries none).length := by
  have hcount := Growth.declarationCountAll_after (plan.growth n)
  rw [after_growth] at hcount
  exact hcount

theorem copies_growth (plan : Plan) (n : Node) :
    (plan.growth n).copies = (copied (plan.add "@keyframes") n).copies := by
  rw [growth, Growth.copies, Growth.copiesIn_woven, propertyGrowth, Growth.copiesIn_woven,
    Growth.copies]

/-- The numbers that are reported are those of the record. -/
theorem addition_snd (plan : Plan) (n : Node) :
    (plan.addition n).2 =
      { Statistics.zero with
        declarationsAdded := inserted ((plan.growth n).entries none)
        keyframesAdded := (plan.growth n).copies.length } := by
  have hdeclarations : (plan.addition n).1.declarationCount -
      (plan.copyKeyframes n).declarationCount = inserted ((plan.growth n).entries none) := by
    rw [declarationCount_addition, declarationCount_copyKeyframes, Nat.add_sub_cancel]
  have hkeyframes : (plan.copyKeyframes n).animations.length - n.animations.length =
      (plan.growth n).copies.length := by
    rw [copyKeyframes, Growth.length_animations_copyAnimations, copies_growth,
      Nat.add_sub_cancel_left]
  rw [← hdeclarations, ← hkeyframes]
  rfl

/-! ## Records of adding -/

/-- Whether a record tells what adding does to a style sheet. -/
structure Records (plan : Plan) (n : Node) (g : Growth) : Prop where
  before_eq : g.before = [n]
  after_eq : g.after = [(plan.addition n).1]
  front : ∀ e ∈ g.entries none, ∀ d ∈ e.front, plan.StandsFor e.old d
  keeps : ∀ e ∈ g.entries none, plan.Keeps e.old e.new
  next : ∀ c ∈ g.copies, c.IsNext
  /-- The first animation of a name gets the copies that are missing. -/
  marks : ∀ name, marksOf name g.copies =
    if ⟨name, none⟩ ∈ n.animations then
      missingMarks (plan.add "@keyframes") n.animations name
    else []
  statistics : (plan.addition n).2 =
    { Statistics.zero with
      declarationsAdded := inserted (g.entries none)
      keyframesAdded := g.copies.length }

/-- Adding keeps every node in its place, puts copies of animations directly in front of
what they copy and declarations directly in front of the ones that they stand for, and
counts both. -/
theorem records_growth (plan : Plan) (n : Node) : plan.Records n (plan.growth n) where
  before_eq := plan.before_growth n
  after_eq := plan.after_growth n
  front := by
    intro e he
    rcases isFresh_or_isMarked he with hfresh | hmarked
    · rw [hfresh.front_eq]
      exact List.forall_mem_nil _
    · exact hmarked.standsFor
  keeps := by
    intro e he
    rcases isFresh_or_isMarked he with hfresh | hmarked
    · exact .inl hfresh.new_eq
    · exact hmarked.keeps
  next := by
    rw [copies_growth]
    exact Growth.isNext_copied _ n
  marks := by
    intro name
    rw [copies_growth]
    exact Growth.marksOf_copied _ name n
  statistics := plan.addition_snd n

end Plan
end VendorPrefixing
