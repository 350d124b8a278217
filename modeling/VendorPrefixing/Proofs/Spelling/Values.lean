import VendorPrefixing.Proofs.Spelling.Gradient
import VendorPrefixing.Spelling.Basic

/-!
# What marking writes into values

Whatever the spelling of a feature, marking it in a value writes names that begin
with the mark, at the places where its bare names stand alone.

Main results:

- Theorem `Spelling.isPrefix_of_mem_valueNames`: every name that is written begins
  with its mark.
- Theorem `Spelling.edited_values`: a marked value is the value itself or an edited
  one in which at least one such name has been written.
- Theorem `Spelling.contains_of_mem_values`: a marked value that differs from the
  value holds the mark.
-/

namespace VendorPrefixing
namespace Spelling

variable {s : Spelling} {m : Matcher} {mark value name : String}

/-- What marking a feature writes into a value: its marked names for its bare ones
and, for gradients, turned directions. -/
def Edits (s : Spelling) (m : Matcher) (mark : String) (old new : List Char) : Prop :=
  (∃ name ∈ m.names, old = name.toList ∧
    ∃ marked ∈ s.valueNames mark m.names, new = marked.toList) ∨
      s = gradient ∧ Gradient.Turns mark old new

/-! ## Marked names -/

theorem isPrefix_toList_append (mark name : String) :
    mark.toList <+: (mark ++ name).toList := by
  rw [String.toList_append]
  exact List.prefix_append _ _

theorem isPrefix_cornerRadius_marked (mark property : String) :
    mark.toList <+: (CornerRadius.marked mark property).toList := by
  rw [CornerRadius.marked]
  split
  · split <;> exact isPrefix_toList_append _ _
  · exact isPrefix_toList_append _ _

theorem isPrefix_keyword (era : FlexEra) (mark name : String) :
    mark.toList <+: (Flexbox.keyword era mark name).toList := by
  cases era <;> exact isPrefix_toList_append _ _

/-- Every marked name inside values begins with its mark. -/
theorem isPrefix_of_mem_valueNames {names : List String} (h : name ∈ s.valueNames mark names) :
    mark.toList <+: name.toList := by
  have hplain : name ∈ names.map (mark ++ ·) → mark.toList <+: name.toList := by
    intro h
    obtain ⟨bare, _, rfl⟩ := List.mem_map.mp h
    exact isPrefix_toList_append _ _
  cases s with
  | plain => exact hplain h
  | flex property => exact hplain h
  | filter => exact hplain h
  | gradient => exact hplain h
  | cornerRadius =>
    obtain ⟨bare, _, rfl⟩ := List.mem_map.mp h
    exact isPrefix_cornerRadius_marked _ _
  | display =>
    obtain ⟨era, _, h⟩ := List.mem_flatMap.mp h
    obtain ⟨bare, _, rfl⟩ := List.mem_map.mp h
    exact isPrefix_keyword _ _ _

/-- More bare names lead to more marked ones. -/
theorem valueNames_subset {names others : List String} (h : names ⊆ others) :
    s.valueNames mark names ⊆ s.valueNames mark others := by
  cases s with
  | display => exact List.Subset.refl _
  | plain => exact List.map_subset _ h
  | flex property => exact List.map_subset _ h
  | cornerRadius => exact List.map_subset _ h
  | filter => exact List.map_subset _ h
  | gradient => exact List.map_subset _ h

/-! ## Marked values -/

/-- Replacing the names of a feature by marked ones edits a value. -/
theorem edited_replace {replacement : String → String} (h : m.finds value = true)
    (hmarked : ∀ name ∈ m.names, replacement name ∈ s.valueNames mark m.names) :
    ∃ news, Edited (s.Edits m mark) true value.toList (m.replace replacement value).toList news ∧
      ∃ marked ∈ s.valueNames mark m.names, marked.toList ∈ news := by
  have hne := Matcher.names_ne_nil_of_finds h
  refine ⟨_, (Matcher.edited_replace hne replacement value).mono ?_, ?_⟩
  · rintro old new ⟨name, hname, hold, hnew⟩
    exact .inl ⟨name, hname, hold, replacement name, hmarked name hname, hnew⟩
  · obtain ⟨o, ho⟩ := List.exists_mem_of_ne_nil _ (Matcher.occurrences_ne_nil_of_finds h)
    obtain ⟨⟨name, hname, heq⟩, -⟩ := Matcher.standsAt_of_mem_occurrences hne ho
    refine ⟨replacement name, hmarked name hname, List.mem_map.mpr ⟨o, ho, ?_⟩⟩
    rw [heq, String.ofList_toList]

/-- A marked value is the value itself or an edited one in which at least one marked
name has been written. -/
theorem edited_values {marked : String}
    (hdisplay : s = display → ∀ name ∈ m.names, name ∈ ["flex", "inline-flex"])
    (h : m.finds value = true) (hmarked : marked ∈ s.values m mark value) :
    marked = value ∨ ∃ news, Edited (s.Edits m mark) true value.toList marked.toList news ∧
      ∃ name ∈ s.valueNames mark m.names, name.toList ∈ news := by
  have hplain : ∀ name ∈ m.names, mark ++ name ∈ m.names.map (mark ++ ·) :=
    fun name hname => List.mem_map_of_mem hname
  cases s with
  | plain =>
    obtain rfl := List.mem_singleton.mp hmarked
    exact .inr (edited_replace h hplain)
  | flex property =>
    obtain rfl := List.mem_singleton.mp hmarked
    exact .inr (edited_replace h hplain)
  | display =>
    obtain ⟨era, hera, rfl⟩ := List.mem_map.mp hmarked
    refine .inr (edited_replace h fun name hname => ?_)
    exact List.mem_flatMap.mpr ⟨era, hera, List.mem_map_of_mem (hdisplay rfl name hname)⟩
  | cornerRadius =>
    obtain rfl := List.mem_singleton.mp hmarked
    exact .inr (edited_replace h fun name hname => List.mem_map_of_mem hname)
  | filter =>
    rw [values] at hmarked
    split at hmarked
    · exact .inl (List.mem_singleton.mp hmarked)
    · obtain rfl := List.mem_singleton.mp hmarked
      exact .inr (edited_replace h hplain)
  | gradient =>
    obtain rfl := List.mem_singleton.mp hmarked
    obtain ⟨news, hedited, name, hname, hmem⟩ := Gradient.edited_marked mark h
    refine .inr ⟨news, hedited.mono ?_, mark ++ name, hplain name hname, hmem⟩
    rintro old new (⟨name, hname, hold, hnew⟩ | hturns)
    · exact .inl ⟨name, hname, hold, mark ++ name, hplain name hname, hnew⟩
    · exact .inr ⟨rfl, hturns⟩

/-- A marked value that differs from the value holds the mark. -/
theorem contains_of_mem_values {marked : String}
    (hdisplay : s = display → ∀ name ∈ m.names, name ∈ ["flex", "inline-flex"])
    (h : m.finds value = true) (hmarked : marked ∈ s.values m mark value) :
    marked = value ∨ Text.contains marked mark = true := by
  rcases edited_values hdisplay h hmarked with heq | ⟨news, hedited, name, hname, hmem⟩
  · exact .inl heq
  · refine .inr (Text.contains_iff.mpr ?_)
    exact (isPrefix_of_mem_valueNames hname).isInfix.trans (hedited.stands hmem).isInfix

end Spelling
end VendorPrefixing
