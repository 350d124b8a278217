import VendorPrefixing.Proofs.Feature.Stem
import VendorPrefixing.Proofs.Spelling.Bare

/-!
# Bare names and what marking writes

Marking writes marked names and directions into values.  The bare names that
features are looked for by stand in neither, so marking one feature never brings
another one into a value.

Main results:

- Theorem `Feature.not_stands_of_turns`: no bare name stands in a direction.
- Theorem `Feature.ne_of_mem_valueNames`: no bare name is a marked one.
- Theorem `Feature.lacks_of_mem_valueNames`: a marked name lacks all marks but its own.
-/

namespace VendorPrefixing

/-! ## Directions -/

namespace Gradient

/-- What holds no blank stands in a list of sides only inside of one of them. -/
theorem exists_infix_of_infix_join {word : List Char} {found : List String} (hblank : ' ' ∉ word)
    (hne : word ≠ []) (h : word <:+: (Text.join " " found).toList) :
    ∃ side ∈ found, word <:+: side.toList := by
  induction found with
  | nil => exact absurd (List.infix_nil.mp h) hne
  | cons side rest ih =>
    cases rest with
    | nil => exact ⟨side, List.mem_cons_self, h⟩
    | cons next rest =>
      have hjoin : (Text.join " " (side :: next :: rest)).toList =
          side.toList ++ ' ' :: (Text.join " " (next :: rest)).toList := by
        rw [Text.join, String.toList_append, String.toList_append, List.append_assoc]
        · rfl
        · exact List.cons_ne_nil next rest
      rw [hjoin] at h
      rcases infix_or_of_not_mem hblank h with h | h
      · exact ⟨side, List.mem_cons_self, h⟩
      · obtain ⟨other, hother, hpart⟩ := ih h
        exact ⟨other, List.mem_cons_of_mem side hother, hpart⟩

end Gradient

namespace Feature

variable {f : Feature} {name mark vendor : String}

/-! ## Bare names -/

theorem not_infix_sides : ∀ f ∈ soughtFeatures, ∀ name ∈ f.searched, ∀ side ∈ Gradient.sides,
    ¬ name.toList <:+: side.toList := by
  decide +kernel

/-- Every bare name has a character that no angle has. -/
theorem exists_not_mem_angle : ∀ f ∈ soughtFeatures, ∀ name ∈ f.searched, ∃ c ∈ name.toList,
    c.isDigit = false ∧ c ∉ ['-', '.', 'i', 'n', 'f', 'N', 'a', 'd', 'e', 'g'] := by
  decide +kernel

theorem head?_of_mem_searched : ∀ f ∈ soughtFeatures, ∀ name ∈ f.searched,
    name.toList.head? ≠ some '-' := by
  decide +kernel

theorem isWord_of_mem_searched (hf : f ∈ soughtFeatures) (hname : name ∈ f.searched) : IsWord name :=
  isWord_of_mem_stems f hf name (mem_stems_of_mem_searched hname)

/-- No bare name stands in a direction. -/
theorem not_stands_of_turns {old new : List Char} (hf : f ∈ soughtFeatures)
    (hname : name ∈ f.searched) (h : Gradient.Turns vendor old new) :
    ¬ Stands true name.toList new := by
  intro hstands
  rcases h with h | ⟨_, h⟩
  · obtain ⟨found, _, hsides, rfl⟩ := Gradient.exists_sides_of_fromSide? h
    have hword := (isWord_of_mem_searched hf hname).areWord
    have hblank : ' ' ∉ name.toList := fun hmem => by
      have := hword.isNameChar ' ' hmem
      exact absurd this (by decide)
    obtain ⟨side, hside, hpart⟩ :=
      Gradient.exists_infix_of_infix_join hblank hword.ne_nil hstands.isInfix
    exact not_infix_sides f hf name hname side (hsides hside) hpart
  · obtain ⟨c, hc, hdigit, hother⟩ := exists_not_mem_angle f hf name hname
    rcases Gradient.mem_of_oldAngle? h (hstands.isInfix.subset hc) with hangle | hangle
    · rw [hdigit] at hangle
      cases hangle
    · exact hother hangle

/-- No bare name is a marked one. -/
theorem ne_of_mem_valueNames {g : Feature} {marked : String} (hf : f ∈ soughtFeatures)
    (hname : name ∈ f.searched) (hmark : mark ∈ Browser.marks)
    (hmarked : marked ∈ g.spelling.valueNames mark g.searched) : name ≠ marked := by
  rintro rfl
  obtain ⟨rest, hrest⟩ := Spelling.isPrefix_of_mem_valueNames hmarked
  apply head?_of_mem_searched f hf name hname
  rw [← hrest, List.head?_append, head?_of_mem_marks mark hmark]
  rfl

/-! ## Marked names -/

theorem eq_of_infix_append_stem : ∀ f ∈ soughtFeatures, ∀ stem ∈ f.stems,
    ∀ mark ∈ Browser.marks, ∀ other ∈ Browser.marks,
      other.toList <:+: mark.toList ++ stem.toList → other = mark := by
  decide +kernel

/-- A marked name lacks all marks but its own. -/
theorem lacks_of_mem_valueNames {other marked : String} (hf : f ∈ soughtFeatures)
    (hmark : mark ∈ Browser.marks) (hother : other ∈ Browser.marks) (hne : other ≠ mark)
    (hmarked : marked ∈ f.spelling.valueNames mark f.searched) : Lacks other marked := by
  obtain ⟨stem, hstem, rfl⟩ :=
    exists_stem_of_mem_valueNames (regular_of_mem_soughtFeatures hf) hmarked
  refine lacks_iff.mpr fun hpart => hne ?_
  rw [String.toList_append] at hpart
  exact eq_of_infix_append_stem f hf stem hstem mark hmark other hother hpart

end Feature
end VendorPrefixing
