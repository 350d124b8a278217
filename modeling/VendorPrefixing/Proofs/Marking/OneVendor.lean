import VendorPrefixing.Proofs.Feature.Sought
import VendorPrefixing.Proofs.Marking.Growth
import VendorPrefixing.Proofs.Marking.Removal

/-!
# One vendor at a time

A declaration that adding writes is meant for the browsers of one vendor.  Its value
holds no mark of another selected browser, and neither its property nor the block that
it stands in belongs to another vendor.
What stands in the frames of a copied animation is copied and not written, apart from what
is put into them.

Main results:

- Theorems `Plan.lacks_of_mem_values` and `Plan.lacks_of_mem_markedValues`: marking a value
  for one vendor brings no mark of another one into it.
- Theorem `Plan.exists_isFor_of_mem_written`: what is written for a declaration is meant for
  one vendor.
- Theorem `Plan.separates_growth`: adding never mixes the marks of selected browsers.
-/

namespace VendorPrefixing

theorem isReadBy_iff {vendor : Option String} {mark : String} :
    isReadBy vendor mark = true ↔ ∀ own, vendor = some own → own = mark := by
  cases vendor <;> simp [isReadBy]

namespace Plan

open Growth (Entry)

variable {selection : Selection} {vendor : Option String} {d old : Declaration} {n : Node}
variable {e : Entry} {mark value : String}

/-! ## Values -/

/-- Marking one feature in a value brings no other mark into it. -/
theorem lacks_of_mem_values {f : FeaturePlan} {m : Matcher} {property other marked : String}
    (hf : f ∈ (ofSelection selection).featuresIn property) (hadd : mark ∈ f.add)
    (hm : f.feature.matcher? = some m) (hfinds : m.finds value = true)
    (hother : other ∈ Browser.marks) (hne : other ≠ mark) (hvalue : Lacks other value)
    (h : marked ∈ f.feature.spelling.values m mark value) : Lacks other marked := by
  have hmark := mem_marks_of_mem_add (mem_featuresIn.mp hf).1 hadd
  rcases edited_of_mem_values hf hm hfinds h with rfl | ⟨edits, news, hedited, hnews⟩
  · exact hvalue
  rw [lacks_iff]
  intro hpart
  rcases hedited.infix_cases (Feature.areWord_of_mem_marks hother) hpart with
    hpart | ⟨new, hnew, hpart⟩
  · exact lacks_iff.mp hvalue hpart
  rcases hnews new hnew with ⟨name, hname, rfl⟩ | ⟨direction, hturns⟩
  · have hlacks :=
      Feature.lacks_of_mem_valueNames (mem_soughtFeatures hf).1 hmark hother hne hname
    exact lacks_iff.mp hlacks hpart
  · have hbare := isBare_iff.mp (Gradient.isDirection_of_turns hturns).isBare other hother
    rw [String.toList_ofList] at hbare
    exact hbare hpart

/-- A marked value lacks the marks that the value lacks, apart from its own. -/
theorem lacks_of_mem_markedValues {features : List FeaturePlan} {property other marked : String}
    (hfeatures : ∀ f ∈ features, f ∈ (ofSelection selection).featuresIn property)
    (hother : other ∈ Browser.marks) (hne : other ≠ mark) (hvalue : Lacks other value)
    (h : marked ∈ markedValues features mark value) : Lacks other marked := by
  apply forall_mem_markedValues hvalue _ marked h
  intro f hf hadd m hm v hv hfinds w hw
  exact lacks_of_mem_values (hfeatures f hf) hadd hm hfinds hother hne hv hw

/-! ## Declarations -/

/-- Whether a declaration in a block that belongs to `vendor` is meant for the browsers of
one mark. -/
structure IsFor (plan : Plan) (vendor : Option String) (mark : String) (d : Declaration) :
    Prop where
  others : ∀ other ∈ plan.vendors, other ≠ mark → Text.contains d.value other = false
  property : ∀ own, vendorOf? d.property = some own → own = mark
  contains : Text.contains d.property mark = true ∨ Text.contains d.value mark = true
  block : ∀ own, vendor = some own → own = mark

/-- A marked value is meant for its mark. -/
theorem isFor_of_mem_allMarkedValues
    (h : value ∈ (ofSelection selection).allMarkedValues vendor d) :
    ∃ mark ∈ (ofSelection selection).marksFor vendor d,
      (ofSelection selection).IsFor vendor mark { d with value := value } := by
  obtain ⟨mark, hmark, hvalue, hcontains⟩ := exists_mark_of_mem_allMarkedValues h
  obtain ⟨_, hread, hown, _, hclaimed⟩ := mem_marksFor_iff.mp hmark
  have hfeatures : ∀ f ∈ (ofSelection selection).featuresOf d,
      f ∈ (ofSelection selection).featuresIn (unmarked d.property) := by
    intro f hf
    exact mem_featuresIn_of_mem_featuresOf hf
  have hothers : ∀ other ∈ (ofSelection selection).vendors, other ≠ mark →
      Lacks other value := by
    intro other hother hne
    have hlacks := isClaimed_eq_false_iff.mp hclaimed other hother hne
    exact lacks_of_mem_markedValues hfeatures (mem_marks_of_mem_vendors hother) hne hlacks hvalue
  exact ⟨mark, hmark, {
    others := hothers
    property := isReadBy_iff.mp hown
    contains := .inr hcontains
    block := isReadBy_iff.mp hread }⟩

/-- A marked property is meant for its mark. -/
theorem isFor_of_mem_propertyForms (h : d ∈ (ofSelection selection).propertyForms vendor old) :
    ∃ mark ∈ (ofSelection selection).vendors, vendorOf? d.property = some mark ∧
      (ofSelection selection).IsFor vendor mark d := by
  obtain ⟨f, hf, _, mark, hadd, hread, hclaimed, form, hform, rfl⟩ := mem_propertyForms_iff.mp h
  obtain ⟨hmem, hname⟩ := mem_features_of_feature? hf
  have hlead : mark.toList <+: form.1.toList := by
    apply Spelling.isPrefix_of_mem_names
    apply Spelling.mem_names_of_mem_forms _ hform
    intro hfilter
    rw [← hname]
    exact Feature.name_eq_of_spelling_filter hfilter
  have hown := vendorOf?_of_isPrefix_mark (mem_marks_of_mem_add hmem hadd) hlead
  have hothers : ∀ other ∈ (ofSelection selection).vendors, other ≠ mark →
      Lacks other form.2 := by
    intro other hother hne
    have hlacks := isClaimed_eq_false_iff.mp hclaimed other hother hne
    exact Spelling.lacks_of_mem_forms (mem_marks_of_mem_vendors hother) hlacks hform
  exact ⟨mark, mem_vendors_of_mem_add hmem hadd, hown, {
    others := hothers
    property := by
      intro own hself
      rw [hown] at hself
      exact (Option.some.inj hself).symm
    contains := .inl (Text.contains_iff.mpr hlead.isInfix)
    block := isReadBy_iff.mp hread }⟩

/-- Marking a value for its own mark keeps what a declaration is meant for. -/
theorem isFor_of_mem_markValue {mark : String} (hown : vendorOf? d.property = some mark)
    (hfor : (ofSelection selection).IsFor vendor mark d) {x : Declaration}
    (h : x ∈ ((ofSelection selection).markValue vendor d).1 ∨
      x = ((ofSelection selection).markValue vendor d).2) :
    (ofSelection selection).IsFor vendor mark x := by
  have hmarked : ∀ value ∈ (ofSelection selection).allMarkedValues vendor d,
      (ofSelection selection).IsFor vendor mark { d with value := value } := by
    intro value hvalue
    obtain ⟨other, hother, hfor⟩ := isFor_of_mem_allMarkedValues hvalue
    rwa [eq_of_mem_marksFor hother hown]
  rcases h with h | rfl
  · obtain ⟨value, hvalue, rfl⟩ := mem_allMarkedValues_of_mem_markValue h
    exact hmarked value hvalue
  · rcases (ofSelection selection).markValue_snd_eq_or vendor d with hsame | ⟨value, hvalue, hsame⟩
    · rwa [hsame]
    · rw [hsame]
      exact hmarked value hvalue

/-- What is written for a declaration is meant for one vendor. -/
theorem exists_isFor_of_mem_written (he : e ∈ ((ofSelection selection).growth n).entries none)
    (h : d ∈ e.written) :
    ∃ mark ∈ (ofSelection selection).vendors, (ofSelection selection).IsFor e.vendor mark d := by
  have hvalue : ∀ value ∈ (ofSelection selection).allMarkedValues e.vendor e.old,
      ∃ mark ∈ (ofSelection selection).vendors,
        (ofSelection selection).IsFor e.vendor mark { e.old with value := value } := by
    intro value hvalue
    obtain ⟨mark, hmark, hfor⟩ := isFor_of_mem_allMarkedValues hvalue
    exact ⟨mark, mem_vendors_of_mem_marksFor hmark, hfor⟩
  rcases isFresh_or_isMarked he with hfresh | hmarked
  · rw [hfresh.written_eq] at h
    exact absurd h List.not_mem_nil
  rw [Entry.written, List.mem_append] at h
  rcases h with h | h
  · rcases hmarked.front d h with h | ⟨y, hy, h⟩
    · obtain ⟨value, hmem, rfl⟩ := mem_allMarkedValues_of_mem_markValue h
      exact hvalue value hmem
    · obtain ⟨mark, hmark, hown, hfor⟩ := isFor_of_mem_propertyForms hy
      exact ⟨mark, hmark, isFor_of_mem_markValue hown hfor h⟩
  · split at h
    · exact absurd h List.not_mem_nil
    · rename_i hne
      obtain rfl := List.mem_singleton.mp h
      rw [hmarked.new_eq] at hne ⊢
      obtain ⟨value, hmem, hsame⟩ :=
        ((ofSelection selection).markValue_snd_eq_or e.vendor e.old).resolve_left hne
      rw [hsame]
      exact hvalue value hmem

/-! ## Style sheets -/

/-- Whether a value holds the mark of at most one selected browser. -/
def Unmixed (plan : Plan) (value : String) : Prop :=
  ∀ mark ∈ plan.vendors, ∀ other ∈ plan.vendors,
    Text.contains value mark = true → Text.contains value other = true → other = mark

theorem IsFor.unmixed {plan : Plan} {mark : String} (h : plan.IsFor vendor mark d) :
    plan.Unmixed d.value := by
  have hself : ∀ other ∈ plan.vendors, Text.contains d.value other = true → other = mark := by
    intro other hother hcontains
    by_contra hne
    rw [h.others other hother hne] at hcontains
    cases hcontains
  intro p hp q hq hcontainsP hcontainsQ
  rw [hself p hp hcontainsP, hself q hq hcontainsQ]

/-- Whether a record of adding to a style sheet shows that no vendors are mixed. -/
structure Separates (plan : Plan) (n : Node) (g : Growth) : Prop where
  before_eq : g.before = [n]
  after_eq : g.after = [(plan.addition n).1]
  written : ∀ e ∈ g.entries none, ∀ d ∈ e.written,
    ∃ mark ∈ plan.vendors, plan.IsFor e.vendor mark d
  /-- Where no value of the style sheet holds two marks none does afterwards. -/
  unmixed : (∀ x ∈ n.placed none, plan.Unmixed x.2.value) →
    ∀ x ∈ (plan.addition n).1.placed none, plan.Unmixed x.2.value

/-- Adding never mixes the marks of selected browsers. -/
theorem separates_growth (selection : Selection) (n : Node) :
    (ofSelection selection).Separates n ((ofSelection selection).growth n) where
  before_eq := before_growth _ n
  after_eq := after_growth _ n
  written := fun _ he _ hd => exists_isFor_of_mem_written he hd
  unmixed := by
    intro h x hx
    have hplaced : x ∈ Node.placedAll none ((ofSelection selection).growth n).after := by
      rwa [after_growth, Node.placedAll, Node.placedAll, List.append_nil]
    rw [Growth.placedAll_after, List.mem_flatMap] at hplaced
    obtain ⟨e, he, hplaced⟩ := hplaced
    obtain ⟨d, hd, rfl⟩ := List.mem_map.mp hplaced
    have hold : (ofSelection selection).Unmixed e.old.value :=
      forall_old_growth (p := fun d => (ofSelection selection).Unmixed d.value) h e he
    rcases Entry.mem_written_or hd with hwritten | rfl
    · obtain ⟨mark, _, hfor⟩ := exists_isFor_of_mem_written he hwritten
      exact hfor.unmixed
    · exact hold

end Plan
end VendorPrefixing
