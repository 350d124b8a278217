import VendorPrefixing.Proofs.Plan.Meaning

/-!
# Plans for more versions

With more versions selected more marks are needed and fewer are useless.  The useless
properties and at-rules follow: a name that is useless for more versions is useless for fewer,
although every feature that leads to the name has a say in it.

Main results:

- Theorems `FeaturePlan.add_subset_add` and `FeaturePlan.remove_subset_remove`: what more
  versions change about one feature.
- Theorem `Plan.precedes_build`: what they change about a plan.
- Theorem `Plan.splits_build`: the needed and the useless marks of a feature are all that its
  data knows, each on one side.
- Theorem `Plan.build_monotone`: both, for any tables.
-/

namespace VendorPrefixing

variable {table : BrowserTable} {S T : Selection} {f : Feature}

/-! ## One feature -/

/-- Whether some version in the data of a feature uses a mark: a known version in the range of
a need, of the browser that the need names. -/
def Feature.MarkedWith (table : BrowserTable) (f : Feature) (mark : String) : Prop :=
  ∃ need ∈ f.needs, ∃ b v, table.find? need.browser = some b ∧ v ∈ b.versions ∧
    need.first ≤ v ∧ (∀ last, need.last = some last → v ≤ last) ∧
      table.vendorFor? ⟨b.name, v⟩ = some mark

theorem Need.mem_targets {need : Need} {t : Target} : t ∈ need.targets table ↔
    ∃ b v, table.find? need.browser = some b ∧ v ∈ b.versions ∧ need.holds v = true ∧
      t = ⟨b.name, v⟩ := by
  rw [targets]
  cases hfind : table.find? need.browser with
  | none => simp
  | some b =>
    rw [List.mem_map]
    constructor
    · rintro ⟨v, hv, rfl⟩
      obtain ⟨hknown, hholds⟩ := List.mem_filter.mp hv
      exact ⟨b, v, rfl, hknown, hholds, rfl⟩
    · rintro ⟨c, v, hc, hknown, hholds, rfl⟩
      cases hc
      exact ⟨v, List.mem_filter.mpr ⟨hknown, hholds⟩, rfl⟩

/-- The marks of all targets of a feature are those that its data is marked with. -/
theorem Feature.mem_vendorsOf_targets {mark : String} :
    mark ∈ table.vendorsOf (f.targets table) ↔ f.MarkedWith table mark := by
  rw [BrowserTable.mem_vendorsOf, MarkedWith]
  simp only [targets, mem_sortDistinct Target.before_strictOrder, List.mem_flatMap,
    Need.mem_targets, Need.holds_iff]
  constructor
  · rintro ⟨t, ⟨need, hneed, b, v, hfind, hknown, ⟨hfirst, hlast⟩, rfl⟩, hvendor⟩
    exact ⟨need, hneed, b, v, hfind, hknown, hfirst, hlast, hvendor⟩
  · rintro ⟨need, hneed, b, v, hfind, hknown, hfirst, hlast, hvendor⟩
    exact ⟨⟨b.name, v⟩, ⟨need, hneed, b, v, hfind, hknown, ⟨hfirst, hlast⟩, rfl⟩, hvendor⟩

namespace FeaturePlan

/-- With more versions no mark is needed less. -/
theorem add_subset_add (h : S.targets ⊆ T.targets) (f : Feature) :
    (ofFeature table S f).add ⊆ (ofFeature table T f).add := by
  refine BrowserTable.vendorsOf_subset fun t ht => ?_
  obtain ⟨htarget, hselected⟩ := List.mem_filter.mp ht
  refine List.mem_filter.mpr ⟨htarget, ?_⟩
  exact Selection.contains_iff.mpr (h (Selection.contains_iff.mp hselected))

/-- With more versions no mark becomes useless. -/
theorem remove_subset_remove (h : S.targets ⊆ T.targets) (f : Feature) :
    (ofFeature table T f).remove ⊆ (ofFeature table S f).remove := by
  intro mark hmark
  obtain ⟨hfull, hneeded⟩ := mem_remove_iff.mp hmark
  exact mem_remove_iff.mpr ⟨hfull, fun hadd => hneeded (add_subset_add h f hadd)⟩

/-- A mark that the data of a feature knows is needed or useless. -/
theorem mem_add_or_mem_remove_iff {selection : Selection} {mark : String} :
    mark ∈ (ofFeature table selection f).add ∨ mark ∈ (ofFeature table selection f).remove ↔
      f.MarkedWith table mark := by
  rw [mem_remove_iff, ← Feature.mem_vendorsOf_targets]
  constructor
  · rintro (hadd | hremove)
    · exact add_subset table selection f hadd
    · exact hremove.1
  · intro hfull
    by_cases hadd : mark ∈ (ofFeature table selection f).add
    · exact .inl hadd
    · exact .inr ⟨hfull, hadd⟩

/-- Fewer marks lead to fewer names. -/
theorem LeadsTo.mono {p q : FeaturePlan} {marks others : List String} {name : String}
    (hfeature : p.feature = q.feature) (hmarks : marks ⊆ others) (h : p.LeadsTo marks name) :
    q.LeadsTo others name := by
  obtain ⟨hkind, mark, hmark, hname⟩ := h
  rw [hfeature] at hkind hname
  exact ⟨hkind, mark, hmarks hmark, hname⟩

theorem mem_removedAtRules_iff {p : FeaturePlan} {rule : String} :
    rule ∈ p.removedAtRules ↔ p.feature.kind = .atRule ∧ ∃ mark ∈ p.remove,
      rule = "@" ++ mark ++ .ofList (p.feature.name.toList.dropWhile (· == '@')) := by
  rw [removedAtRules]
  cases p.feature.kind <;> simp [eq_comm]

/-- Of two plans for one feature the second needs what the first needs, and the first finds
useless what the second finds useless. -/
structure Precedes (p q : FeaturePlan) : Prop where
  feature_eq : p.feature = q.feature
  add_subset : p.add ⊆ q.add
  remove_subset : q.remove ⊆ p.remove

/-- The marks of a feature are split: no mark is needed and useless, and together they are
all that the data of the feature knows. -/
structure Splits (table : BrowserTable) (p : FeaturePlan) : Prop where
  disjoint : p.add.Disjoint p.remove
  mem_iff : ∀ mark, mark ∈ p.add ∨ mark ∈ p.remove ↔ p.feature.MarkedWith table mark

theorem precedes_ofFeature (h : S.targets ⊆ T.targets) (f : Feature) :
    (ofFeature table S f).Precedes (ofFeature table T f) where
  feature_eq := rfl
  add_subset := add_subset_add h f
  remove_subset := remove_subset_remove h f

theorem splits_ofFeature (table : BrowserTable) (selection : Selection) (f : Feature) :
    (ofFeature table selection f).Splits table where
  disjoint _ hadd hremove := remove_disjoint hremove hadd
  mem_iff _ := mem_add_or_mem_remove_iff

end FeaturePlan

namespace Plan

/-! ## Whole plans -/

/-- The features of a plan are those of the table, each with its marks. -/
theorem mem_features_build {features : List Feature} {selection : Selection} {p : FeaturePlan} :
    p ∈ (build table features selection).features ↔
      ∃ f ∈ features, FeaturePlan.ofFeature table selection f = p :=
  List.mem_map

/-- A feature is looked up by its name alone. -/
theorem feature?_build (table : BrowserTable) (features : List Feature) (selection : Selection)
    (name : String) : (build table features selection).feature? name =
      (features.reverse.find? (·.name == name)).map (FeaturePlan.ofFeature table selection) := by
  rw [feature?, build]
  dsimp only
  rw [← List.map_reverse, List.find?_map]
  rfl

theorem removesAtRule_build_iff {features : List Feature} {selection : Selection}
    {rule : String} : (build table features selection).removesAtRule rule = true ↔
      ∃ f ∈ features, rule ∈ (FeaturePlan.ofFeature table selection f).removedAtRules := by
  rw [removesAtRule, List.contains_eq_mem, decide_eq_true_eq, build]
  simp only [List.mem_flatMap, List.mem_map, exists_exists_and_eq_and]

/-- Of two plans the second needs what the first needs, and the first finds useless what the
second finds useless. -/
structure Precedes (p q : Plan) : Prop where
  features : List.Forall₂ FeaturePlan.Precedes p.features q.features
  add_subset : ∀ name, p.add name ⊆ q.add name
  remove_subset : ∀ name, q.remove name ⊆ p.remove name
  vendors_subset : p.vendors ⊆ q.vendors
  removesProperty : ∀ name, q.removesProperty name = true → p.removesProperty name = true
  removesAtRule : ∀ rule, q.removesAtRule rule = true → p.removesAtRule rule = true

/-- A property that is useless for more versions is useless for fewer. -/
theorem removesProperty_build_of_subset (h : S.targets ⊆ T.targets) {features : List Feature}
    {name : String} (hname : (build table features T).removesProperty name = true) :
    (build table features S).removesProperty name = true := by
  obtain ⟨⟨p, hp, hremove⟩, hadd⟩ := removesProperty_build_iff.mp hname
  obtain ⟨f, hf, rfl⟩ := mem_features_build.mp hp
  refine removesProperty_build_iff.mpr ⟨⟨_, mem_features_build.mpr ⟨f, hf, rfl⟩, ?_⟩, ?_⟩
  · exact hremove.mono rfl (FeaturePlan.remove_subset_remove h f)
  · -- A feature that still needs the name for fewer versions needs it for more.
    rintro ⟨q, hq, hneeded⟩
    obtain ⟨g, hg, rfl⟩ := mem_features_build.mp hq
    exact hadd ⟨_, mem_features_build.mpr ⟨g, hg, rfl⟩,
      hneeded.mono rfl (FeaturePlan.add_subset_add h g)⟩

/-- An at-rule that is useless for more versions is useless for fewer. -/
theorem removesAtRule_build_of_subset (h : S.targets ⊆ T.targets) {features : List Feature}
    {rule : String} (hrule : (build table features T).removesAtRule rule = true) :
    (build table features S).removesAtRule rule = true := by
  obtain ⟨f, hf, hremoved⟩ := removesAtRule_build_iff.mp hrule
  obtain ⟨hkind, mark, hmark, heq⟩ := FeaturePlan.mem_removedAtRules_iff.mp hremoved
  refine removesAtRule_build_iff.mpr ⟨f, hf, FeaturePlan.mem_removedAtRules_iff.mpr ?_⟩
  exact ⟨hkind, mark, FeaturePlan.remove_subset_remove h f hmark, heq⟩

/-- What more versions change about a plan. -/
theorem precedes_build (h : S.targets ⊆ T.targets) (features : List Feature) :
    (build table features S).Precedes (build table features T) where
  features := by
    rw [build, build]
    exact List.forall₂_map_left_iff.mpr (List.forall₂_map_right_iff.mpr
      (List.forall₂_same.mpr fun f _ => FeaturePlan.precedes_ofFeature h f))
  add_subset name := by
    rw [add, add, feature?_build, feature?_build]
    cases features.reverse.find? (·.name == name) with
    | none => exact List.Subset.refl _
    | some f => exact FeaturePlan.add_subset_add h f
  remove_subset name := by
    rw [remove, remove, feature?_build, feature?_build]
    cases features.reverse.find? (·.name == name) with
    | none => exact List.Subset.refl _
    | some f => exact FeaturePlan.remove_subset_remove h f
  vendors_subset := BrowserTable.vendorsOf_subset h
  removesProperty _ := removesProperty_build_of_subset h
  removesAtRule _ := removesAtRule_build_of_subset h

/-- In every plan the marks of a feature are split. -/
theorem splits_build {features : List Feature} {selection : Selection} :
    ∀ p ∈ (build table features selection).features, p.Splits table := by
  intro p hp
  obtain ⟨f, _, rfl⟩ := mem_features_build.mp hp
  exact FeaturePlan.splits_ofFeature table selection f

/-- Whatever the tables say, selecting more versions adds to what is needed and takes away
from what is useless, and each plan splits the marks that the data of a feature knows into
needed and useless ones. -/
theorem build_monotone (table : BrowserTable) (features : List Feature)
    (h : ∀ t ∈ S.targets, t ∈ T.targets) :
    (build table features S).Precedes (build table features T) ∧
      ∀ selection, ∀ p ∈ (build table features selection).features, p.Splits table :=
  ⟨precedes_build h features, fun _ => splits_build⟩

/-- Once the version before the change is selected too, its mark is no longer useless. -/
theorem build_monotone_changingOpera :
    let later := Selection.empty.insert ⟨"opera", ⟨16, 0⟩⟩
    let both := later.insert ⟨"opera", ⟨12, 1⟩⟩
    let plan := build [changingOpera] [turningFeature]
    (∀ t ∈ later.targets, t ∈ both.targets) ∧ (plan later).remove "transform" = ["-o-"] ∧
      (plan both).remove "transform" = [] ∧ (plan later).Precedes (plan both) ∧
      ∀ p ∈ (plan later).features, p.Splits [changingOpera] := by
  have hsubset : ∀ t ∈ (Selection.empty.insert ⟨"opera", ⟨16, 0⟩⟩).targets,
      t ∈ ((Selection.empty.insert ⟨"opera", ⟨16, 0⟩⟩).insert ⟨"opera", ⟨12, 1⟩⟩).targets :=
    fun t ht => Selection.mem_insert.mpr (.inr ht)
  obtain ⟨hprecedes, hsplits⟩ := build_monotone [changingOpera] [turningFeature] hsubset
  exact ⟨hsubset, by decide, by decide, hprecedes, hsplits _⟩

end Plan
end VendorPrefixing
