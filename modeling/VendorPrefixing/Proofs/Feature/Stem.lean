import Mathlib.Data.List.Nodup
import Mathlib.Data.List.Pairwise
import VendorPrefixing.Proofs.Feature.Table
import VendorPrefixing.Proofs.Spelling.Values
import VendorPrefixing.Proofs.Value.Standing

/-!
# What stands behind a mark

The names that marking writes into values consist of a mark and a stem.  No two
features share a stem and no mark begins another one, so a marked name tells its
feature and its mark.

Main results:

- Theorem `Feature.exists_stem_of_mem_valueNames`: marked names consist of a mark and
  a stem.
- Theorem `Feature.nodup_stems`: no two features share a stem.
- Theorem `Feature.eq_of_mem_valueNames`: a marked name tells its feature and its mark.
-/

namespace VendorPrefixing
namespace Feature

/-- The older keywords for flexible boxes. -/
def oldKeywords : List String :=
  ["box", "inline-box", "flexbox", "inline-flexbox"]

/-- What stands behind the mark in the marked names of a feature. -/
def stems (f : Feature) : List String :=
  f.searched ++
    f.searched.filterMap (fun name => (CornerRadius.corners.find? (·.1 == name)).map Prod.snd) ++
      if f.name = "display-flex" then oldKeywords else []

/-- The features that are looked for in values. -/
def soughtFeatures : List Feature :=
  builtIn.filter (·.matcher?.isSome)

/-! ## The table -/

/-- No two features share a stem. -/
theorem nodup_stems : (soughtFeatures.flatMap stems).Nodup := by
  decide +kernel

theorem isWord_of_mem_stems : ∀ f ∈ soughtFeatures, ∀ stem ∈ f.stems, IsWord stem := by
  decide +kernel

variable {f g : Feature} {mark other name : String}

/-- Features that share a stem are the same. -/
theorem eq_of_mem_stems (hf : f ∈ soughtFeatures) (hg : g ∈ soughtFeatures) {stem : String}
    (hstem : stem ∈ f.stems) (hother : stem ∈ g.stems) : f = g := by
  by_contra hne
  have hdisjoint := (List.nodup_flatMap.mp nodup_stems).2
  have hsymm : Std.Symm (Function.onFun List.Disjoint stems) := ⟨fun _ _ h _ hx hy => h hy hx⟩
  exact hdisjoint.forall hf hg hne hstem hother

/-! ## Marked names -/

theorem mem_stems_of_mem_searched (h : name ∈ f.searched) : name ∈ f.stems :=
  List.mem_append_left _ (List.mem_append_left _ h)

/-- The other name of a corner is a stem. -/
theorem mem_stems_of_corner {corner : String × String} (h : name ∈ f.searched)
    (hcorner : CornerRadius.corners.find? (·.1 == name) = some corner) : corner.2 ∈ f.stems := by
  have hmem : corner.2 ∈ f.searched.filterMap
      (fun name => (CornerRadius.corners.find? (·.1 == name)).map Prod.snd) :=
    List.mem_filterMap.mpr ⟨name, h, by rw [hcorner]; rfl⟩
  exact List.mem_append_left _ (List.mem_append_right _ hmem)

theorem mem_stems_of_mem_oldKeywords (hname : f.name = "display-flex")
    (h : name ∈ oldKeywords) : name ∈ f.stems := by
  rw [stems, if_pos hname]
  exact List.mem_append_right _ h

/-- The keywords for flexible boxes consist of a mark and a stem in every specification. -/
theorem exists_stem_of_mem_displayNames (hregular : f.Regular) (hspelling : f.spelling = .display)
    (h : name ∈ Spelling.valueNames .display mark f.searched) :
    ∃ stem ∈ f.stems, name = mark ++ stem := by
  have hname := name_eq_of_spelling_display hspelling
  obtain ⟨era, _, h⟩ := List.mem_flatMap.mp h
  obtain ⟨bare, hbare, rfl⟩ := List.mem_map.mp h
  cases era with
  | of2009 =>
    refine ⟨_, mem_stems_of_mem_oldKeywords hname ?_, rfl⟩
    split <;> decide
  | of2012 =>
    refine ⟨_, mem_stems_of_mem_oldKeywords hname ?_, rfl⟩
    split <;> decide
  | final =>
    refine ⟨bare, mem_stems_of_mem_searched ?_, rfl⟩
    rw [hregular.searched_eq hname]
    exact hbare

/-- Marked names consist of a mark and a stem. -/
theorem exists_stem_of_mem_valueNames (hregular : f.Regular)
    (h : name ∈ f.spelling.valueNames mark f.searched) : ∃ stem ∈ f.stems, name = mark ++ stem := by
  cases hspelling : f.spelling with
  | plain | flex property | filter | gradient =>
    rw [hspelling] at h
    obtain ⟨bare, hbare, rfl⟩ := List.mem_map.mp h
    exact ⟨bare, mem_stems_of_mem_searched hbare, rfl⟩
  | cornerRadius =>
    rw [hspelling] at h
    obtain ⟨bare, hbare, rfl⟩ := List.mem_map.mp h
    rw [CornerRadius.marked]
    split
    · split
      · rename_i corner hcorner
        exact ⟨corner.2, mem_stems_of_corner hbare hcorner, rfl⟩
      · exact ⟨bare, mem_stems_of_mem_searched hbare, rfl⟩
    · exact ⟨bare, mem_stems_of_mem_searched hbare, rfl⟩
  | display =>
    rw [hspelling] at h
    exact exists_stem_of_mem_displayNames hregular hspelling h

/-! ## Marks -/

theorem eq_of_isPrefix_of_mem_marks :
    ∀ p ∈ Browser.marks, ∀ q ∈ Browser.marks, p.toList <+: q.toList → p = q := by
  decide

/-- No mark begins another one. -/
theorem eq_of_isPrefix_mark (hmark : mark ∈ Browser.marks) (hother : other ∈ Browser.marks)
    (h : mark.toList <+: name.toList) (h' : other.toList <+: name.toList) : mark = other := by
  rcases List.prefix_or_prefix_of_prefix h h' with hlead | hlead
  · exact eq_of_isPrefix_of_mem_marks mark hmark other hother hlead
  · exact (eq_of_isPrefix_of_mem_marks other hother mark hmark hlead).symm

theorem isWord_of_mem_marks : ∀ mark ∈ Browser.marks, ∀ c ∈ mark.toList,
    isNameChar c = true ∧ Word.isSeparator c = false := by
  decide

theorem areWord_of_mem_marks (hmark : mark ∈ Browser.marks) : AreWord mark.toList where
  ne_nil hnil := by
    have hhead := head?_of_mem_marks mark hmark
    rw [hnil] at hhead
    cases hhead
  isNameChar c hc := (isWord_of_mem_marks mark hmark c hc).1
  not_isSeparator c hc := (isWord_of_mem_marks mark hmark c hc).2

/-- A mark and a word make a word. -/
theorem isWord_append {word : String} (hmark : mark ∈ Browser.marks) (hword : IsWord word) :
    IsWord (mark ++ word) := by
  refine ⟨fun hempty => hword.1 ?_, fun c hc => ?_⟩
  · have hlist := congrArg String.toList hempty
    rw [String.toList_append, String.toList_empty, List.append_eq_nil_iff] at hlist
    exact String.toList_eq_nil_iff.mp hlist.2
  · rw [String.toList_append, List.mem_append] at hc
    rcases hc with hc | hc
    · exact isWord_of_mem_marks mark hmark c hc
    · exact hword.2 c hc

theorem regular_of_mem_soughtFeatures (hf : f ∈ soughtFeatures) : f.Regular :=
  regular_of_mem_builtIn f (List.mem_filter.mp hf).1

/-- Marked names are words. -/
theorem isWord_of_mem_valueNames (hf : f ∈ soughtFeatures) (hmark : mark ∈ Browser.marks)
    (h : name ∈ f.spelling.valueNames mark f.searched) : IsWord name := by
  obtain ⟨stem, hstem, rfl⟩ :=
    exists_stem_of_mem_valueNames (regular_of_mem_soughtFeatures hf) h
  exact isWord_append hmark (isWord_of_mem_stems f hf stem hstem)

/-- A marked name tells its feature and its mark. -/
theorem eq_of_mem_valueNames (hf : f ∈ soughtFeatures) (hg : g ∈ soughtFeatures)
    (hmark : mark ∈ Browser.marks) (hother : other ∈ Browser.marks)
    (h : name ∈ f.spelling.valueNames mark f.searched)
    (h' : name ∈ g.spelling.valueNames other g.searched) : f = g ∧ mark = other := by
  have hmarks := eq_of_isPrefix_mark hmark hother (Spelling.isPrefix_of_mem_valueNames h)
    (Spelling.isPrefix_of_mem_valueNames h')
  obtain ⟨stem, hstem, rfl⟩ := exists_stem_of_mem_valueNames (regular_of_mem_soughtFeatures hf) h
  obtain ⟨stem', hstem', heq⟩ :=
    exists_stem_of_mem_valueNames (regular_of_mem_soughtFeatures hg) h'
  rw [← hmarks] at heq
  have hstems : stem = stem' := by
    have hlist := congrArg String.toList heq
    rw [String.toList_append, String.toList_append] at hlist
    exact String.toList_injective (List.append_cancel_left hlist)
  rw [← hstems] at hstem'
  exact ⟨eq_of_mem_stems hf hg hstem hstem', hmarks⟩

end Feature
end VendorPrefixing
