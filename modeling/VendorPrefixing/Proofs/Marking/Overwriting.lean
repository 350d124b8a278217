import VendorPrefixing.Proofs.Marking.Passes

/-!
# Overwriting values

Where a property carries a mark, its value is marked in place.

Main results:

- Theorem `Plan.overwrites_iff`: a marked property is overwritten exactly when its
  value can be marked.
- Theorem `Plan.markValue_snd_eq_self_iff`: marking values leaves a declaration as it
  is exactly where it does not overwrite it.
-/

namespace VendorPrefixing
namespace Plan

variable {plan : Plan} {vendor : Option String} {d : Declaration}

/-! ## Overwriting -/

/-- Whether marking values overwrites the value of a declaration in a block that
belongs to `vendor`: its property carries a mark that the value can take and that
a feature in the value needs. -/
def Overwrites (plan : Plan) (vendor : Option String) (d : Declaration) : Prop :=
  ∃ mark ∈ plan.marksFor vendor d,
    vendorOf? d.property = some mark ∧ markedValues (plan.featuresOf d) mark d.value ≠ []

/-- A marked property only takes its own mark in its value. -/
theorem eq_of_mem_marksFor {mark own : String} (hmark : mark ∈ plan.marksFor vendor d)
    (hown : vendorOf? d.property = some own) : own = mark := by
  rw [marksFor, List.mem_filter] at hmark
  have hread := hmark.2
  rw [hown] at hread
  simp only [isReadBy, Option.all_some, Bool.and_eq_true, beq_iff_eq] at hread
  exact hread.1.1.2

/-- The values for all marks that a declaration can take. -/
def allMarkedValues (plan : Plan) (vendor : Option String) (d : Declaration) : List String :=
  (plan.marksFor vendor d).flatMap fun mark => markedValues (plan.featuresOf d) mark d.value

theorem ne_of_mem_allMarkedValues {value : String}
    (h : value ∈ plan.allMarkedValues vendor d) : value ≠ d.value := by
  obtain ⟨mark, _, h⟩ := List.mem_flatMap.mp h
  exact markedValues_ne h

theorem markValue_of_unmarked (h : vendorOf? d.property = none) :
    plan.markValue vendor d =
      ((plan.allMarkedValues vendor d).map fun value => { d with value := value }, d) := by
  rw [markValue, h]
  rfl

theorem markValue_of_marked {own : String} (h : vendorOf? d.property = some own) :
    plan.markValue vendor d =
      match (plan.allMarkedValues vendor d).getLast? with
      | some last =>
        ((plan.allMarkedValues vendor d).dropLast.map fun value => { d with value := value },
          { d with value := last })
      | none => ([], d) := by
  rw [markValue, h]
  dsimp only
  rw [← allMarkedValues]
  cases (plan.allMarkedValues vendor d).getLast? <;> rfl

/-- Where no value can be marked nothing is written. -/
theorem markValue_of_allMarkedValues_eq_nil (h : plan.allMarkedValues vendor d = []) :
    plan.markValue vendor d = ([], d) := by
  cases hown : vendorOf? d.property with
  | none => rw [markValue_of_unmarked hown, h, List.map_nil]
  | some own => rw [markValue_of_marked hown, h, List.getLast?_nil]

/-- The values that are written for a marked property are the ones for its own
mark. -/
theorem overwrites_iff {own : String} (h : vendorOf? d.property = some own) :
    plan.Overwrites vendor d ↔ plan.allMarkedValues vendor d ≠ [] := by
  rw [allMarkedValues, ne_eq, List.flatMap_eq_nil_iff]
  constructor
  · rintro ⟨mark, hmark, _, hvalues⟩ hnil
    exact hvalues (hnil mark hmark)
  · intro hne
    simp only [not_forall] at hne
    obtain ⟨mark, hmark, hvalues⟩ := hne
    obtain rfl := eq_of_mem_marksFor hmark h
    exact ⟨own, hmark, h, hvalues⟩

/-- Marking values leaves a declaration as it is exactly where it does not
overwrite it. -/
theorem markValue_snd_eq_self_iff :
    (plan.markValue vendor d).2 = d ↔ ¬ plan.Overwrites vendor d := by
  cases h : vendorOf? d.property with
  | none =>
    rw [markValue_of_unmarked h]
    refine ⟨fun _ => ?_, fun _ => rfl⟩
    rintro ⟨mark, _, hmark, _⟩
    rw [h] at hmark
    cases hmark
  | some own =>
    rw [overwrites_iff h, markValue_of_marked h, not_not]
    cases hlast : (plan.allMarkedValues vendor d).getLast? with
    | none => exact ⟨fun _ => List.getLast?_eq_none_iff.mp hlast, fun _ => rfl⟩
    | some last =>
      constructor
      · intro heq
        have hmem : last ∈ plan.allMarkedValues vendor d := List.mem_of_getLast? hlast
        exact absurd (congrArg Declaration.value heq) (ne_of_mem_allMarkedValues hmem)
      · intro hnil
        rw [hnil] at hlast
        cases hlast

end Plan
end VendorPrefixing
