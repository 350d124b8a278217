import VendorPrefixing.Marking.Property

/-!
# Marked values

A value that holds features in need of vendor marks gets one or more declarations
of the same property in front of it, in which these features are marked.  Where
the property itself carries a mark, its value is marked for the same vendor in
place, and only further forms of it stand in front.

Main results:

- Theorem `Plan.markedValues_ne`: a marked value differs from the value it stands
  for.
- Theorem `Plan.property_of_mem_markValue`: marking a value keeps the property.
-/

namespace VendorPrefixing
namespace Plan

/-- The features that stand in the value of a declaration. -/
def featuresOf (plan : Plan) (d : Declaration) : List FeaturePlan :=
  (plan.featuresIn (unmarked d.property)).filter fun f =>
    f.feature.matcher?.any (·.finds d.value)

/-- The values in place of `values` in which one feature is marked. -/
def markFeature (mark : String) (values : List String) (f : FeaturePlan) : List String :=
  match f.feature.matcher? with
  | none => values
  | some m =>
    values.flatMap fun value =>
      if m.finds value then f.feature.spelling.values m mark value else [value]

/-- The values for one vendor in which every feature that needs its mark is marked,
one feature after the other. -/
def markedValues (features : List FeaturePlan) (mark value : String) : List String :=
  ((features.filter (·.add.contains mark)).foldl (markFeature mark) [value]).filter
    (· != value)

/-- Whether marking one feature after the other in the values in place of `values` ends the
program. -/
def crashesFrom (mark : String) (values : List String) : List FeaturePlan → Bool
  | [] => false
  | f :: features =>
    (f.feature.matcher?.any fun m => values.any fun value =>
        m.finds value && f.feature.spelling.crashes m value) ||
      crashesFrom mark (markFeature mark values f) features

/-- The marks that a declaration in a block of `vendor` can take in its value.  A
value that names a vendor already takes none, and a marked property only its own. -/
def marksFor (plan : Plan) (vendor : Option String) (d : Declaration) : List String :=
  plan.vendors.filter fun mark =>
    isReadBy vendor mark && isReadBy (vendorOf? d.property) mark &&
      !Text.contains d.value mark && !plan.isClaimed mark d.value

/-- The declarations to put in front of a declaration, and what becomes of the
declaration itself. -/
def markValue (plan : Plan) (vendor : Option String) (d : Declaration) :
    List Declaration × Declaration :=
  let values :=
    (plan.marksFor vendor d).flatMap fun mark => markedValues (plan.featuresOf d) mark d.value
  let withValue := fun value : String => { d with value := value }
  match vendorOf? d.property, values.getLast? with
  | some _, some last => (values.dropLast.map withValue, withValue last)
  | some _, none => ([], d)
  | none, _ => (values.map withValue, d)

/-- Whether marking the value of a declaration in a block of `vendor` ends the program. -/
def crashes (plan : Plan) (vendor : Option String) (d : Declaration) : Bool :=
  (plan.marksFor vendor d).any fun mark =>
    crashesFrom mark [d.value] ((plan.featuresOf d).filter (·.add.contains mark))

/-- The contents of a block that belongs to `vendor` with the marked forms of its
values.  A form is there already when its property is, with the same value. -/
def markValuesIn (plan : Plan) (vendor : Option String) (ns : List Node) : List Node :=
  Node.weave (fun d e => d.pair == e.pair) (plan.markValue vendor) ns

/-- The style sheet with the marked forms of its values. -/
def markValues (plan : Plan) (n : Node) : Node :=
  n.mapContents plan.markValuesIn none

/-- A marked value differs from the value it stands for. -/
theorem markedValues_ne {features : List FeaturePlan} {mark value marked : String}
    (h : marked ∈ markedValues features mark value) : marked ≠ value := by
  simpa using (List.mem_filter.mp h).2

/-- Marking a value keeps the property. -/
theorem property_of_mem_markValue {plan : Plan} {vendor : Option String} {d e : Declaration}
    (h : e ∈ (plan.markValue vendor d).1) : e.property = d.property := by
  rw [markValue] at h
  dsimp only at h
  split at h
  · obtain ⟨_, _, rfl⟩ := List.mem_map.mp h
    rfl
  · simp at h
  · obtain ⟨_, _, rfl⟩ := List.mem_map.mp h
    rfl

end Plan
end VendorPrefixing
