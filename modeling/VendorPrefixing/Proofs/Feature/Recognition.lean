import VendorPrefixing.Proofs.Feature.Stem

/-!
# What is written is recognised

Marking writes property names and names inside values.  Marks are taken away by looking for
the names that they lead to, and these are listed without any value at hand.  Both sides
agree: whatever the value has been, what is written for it is among the names looked for, and
stands alone where the search expects it.

Main results:

- Theorem `Spelling.count_of_mem_forms`: a property that is written is a name that the mark
  leads to, and is written once.
- Theorem `Feature.finds_of_mem_values`: a marked value that differs from the value holds a
  name that is looked for.
- Theorem `Feature.recognises_written`: both, for every built-in feature.
-/

namespace VendorPrefixing

/-- A property that is written is a name that the mark leads to and begins with the mark.
Neither what is written nor the names hold it twice. -/
theorem Spelling.count_of_mem_forms {s : Spelling} {mark property value name : String}
    (hfilter : s = .filter → property = "filter")
    (h : name ∈ (s.forms mark property value).map Prod.fst) :
    name ∈ s.names mark property ∧ mark.toList <+: name.toList ∧
      ((s.forms mark property value).map Prod.fst).count name = 1 ∧
        (s.names mark property).count name = 1 := by
  have hsublist := map_fst_forms_sublist mark value hfilter
  have hname := hsublist.subset h
  have hnodup := nodup_names s mark property
  exact ⟨hname, isPrefix_of_mem_names hname, List.count_eq_one_of_mem (hnodup.sublist hsublist) h,
    List.count_eq_one_of_mem hnodup hname⟩

namespace Feature

variable {f : Feature} {m : Matcher} {mark value marked : String}

/-- A marked value that differs from the value holds a name that is looked for. -/
theorem finds_of_mem_values (hf : f ∈ builtIn) (hm : f.matcher? = some m)
    (hmark : mark ∈ Browser.marks) (hfinds : m.finds value = true)
    (h : marked ∈ f.spelling.values m mark value) (hne : marked ≠ value) :
    (Matcher.ofNames (f.spelling.valueNames mark f.searched)).finds marked = true := by
  have hregular := regular_of_mem_builtIn f hf
  obtain ⟨rfl, -⟩ := names_of_matcher? hregular hm
  have hsought : f ∈ soughtFeatures := List.mem_filter.mpr ⟨hf, Option.isSome_of_eq_some hm⟩
  have hsearched : (Matcher.ofNames f.searched).names ⊆ f.searched :=
    fun name hname => Matcher.mem_names.mp hname
  obtain ⟨news, hedited, name, hname, hnew⟩ :=
    (Spelling.edited_values (mem_of_spelling_display hregular hm) hfinds h).resolve_left hne
  -- What has been written stands alone, as the text that it replaced did.
  obtain ⟨place, hplace⟩ := exists_standsAt_iff.mpr (hedited.stands hnew)
  exact Matcher.finds_of_standsAt (fun _ hother => isWord_of_mem_valueNames hsought hmark hother)
    (Spelling.valueNames_subset hsearched hname) hplace

/-- What marking writes is recognised by what takes marks away.  A property that is written
for any value is one of the names that the mark leads to, begins with the mark and occurs
once.  A marked value that differs from the value holds one of the names that the mark leads
to inside values. -/
theorem recognises_written (hf : f ∈ builtIn) :
    (∀ mark value, ∀ name ∈ (f.spelling.forms mark f.name value).map Prod.fst,
      name ∈ f.spelling.names mark f.name ∧ mark.toList <+: name.toList ∧
        ((f.spelling.forms mark f.name value).map Prod.fst).count name = 1 ∧
          (f.spelling.names mark f.name).count name = 1) ∧
      ∀ m, f.matcher? = some m → ∀ mark ∈ Browser.marks, ∀ value, m.finds value = true →
        ∀ marked ∈ f.spelling.values m mark value, marked ≠ value →
          (Matcher.ofNames (f.spelling.valueNames mark f.searched)).finds marked = true := by
  constructor
  · intro mark value name hname
    exact Spelling.count_of_mem_forms name_eq_of_spelling_filter hname
  · intro m hm mark hmark value hfinds marked hmarked hne
    exact finds_of_mem_values hf hm hmark hfinds hmarked hne

/-- A corner of a box is recognised under its old name. -/
theorem recognises_written_topLeftCorner :
    transitional "border-top-left-radius" borderRadiusNeeds ∈ builtIn ∧
      "-moz-border-radius-topleft" ∈
        Spelling.names .cornerRadius "-moz-" "border-top-left-radius" ∧
      (Matcher.ofNames ["-moz-border-radius-topleft"]).finds
        "all 1s, -moz-border-radius-topleft 1s" = true := by
  have hcorner : transitional "border-top-left-radius" borderRadiusNeeds ∈ builtIn := by decide
  obtain ⟨hforms, hvalues⟩ := recognises_written hcorner
  refine ⟨hcorner, (hforms "-moz-" "1px" _ (by decide)).1, ?_⟩
  exact hvalues (.single "border-top-left-radius") rfl "-moz-" (by decide)
    "all 1s, border-top-left-radius 1s" (by decide) _ (by decide) (by decide)

end Feature
end VendorPrefixing
