import VendorPrefixing.Proofs.Value.Edit
import VendorPrefixing.Value.Matcher

/-!
# What matchers find and replace

Main results:

- Theorem `Matcher.edited_replace`: replacing names edits a value where they stand
  alone.
- Theorem `Matcher.exists_standsAt_of_finds`: where a matcher finds something, one
  of its names stands alone.
- Theorem `Matcher.finds_of_standsAt`: where a name stands alone, its matcher finds
  it.
-/

namespace VendorPrefixing

open Word (isSeparator endsHere StandsAt Searchable)

/-! ## Texts inside texts -/

namespace Chars

theorem contains_iff_isInfix {needle s : List Char} : contains needle s = true ↔ needle <:+: s := by
  rw [contains_iff]
  constructor
  · rintro ⟨before, after, rfl⟩
    exact ⟨before, after, rfl⟩
  · rintro ⟨before, after, rfl⟩
    exact ⟨before, after, rfl⟩

end Chars

namespace Text

theorem contains_iff {s needle : String} :
    contains s needle = true ↔ needle.toList <:+: s.toList :=
  Chars.contains_iff_isInfix

end Text

/-! ## Longer names first -/

/-- A text that another one starts with is not longer, and if it takes as many bytes
it is the same. -/
theorem eq_of_isPrefix_of_utf8ByteSize_le {a b : String} (h : a.toList <+: b.toList)
    (hsize : b.utf8ByteSize ≤ a.utf8ByteSize) : a = b := by
  obtain ⟨rest, hrest⟩ := h
  have hb : b = a ++ String.ofList rest := by
    rw [← String.toList_inj, String.toList_append, String.toList_ofList, hrest]
  rw [hb, String.utf8ByteSize_append] at hsize
  have hempty : String.ofList rest = "" := String.utf8ByteSize_eq_zero_iff.mp (by omega)
  rw [hb, hempty, String.append_empty]

theorem eq_of_longerFirst_of_isPrefix {a b : String} (h : longerFirst a b = true)
    (hlead : a.toList <+: b.toList) : a = b := by
  simp only [longerFirst, Bool.or_eq_true, Bool.and_eq_true, decide_eq_true_eq, beq_iff_eq] at h
  exact eq_of_isPrefix_of_utf8ByteSize_le hlead (by omega)

/-- Whether a text can be looked for as a word of its own: it is not empty and made
of characters that belong to words and names. -/
def IsWord (s : String) : Prop :=
  s ≠ "" ∧ ∀ c ∈ s.toList, isNameChar c = true ∧ isSeparator c = false

instance (s : String) : Decidable (IsWord s) :=
  inferInstanceAs (Decidable (s ≠ "" ∧ ∀ c ∈ s.toList, isNameChar c = true ∧
    isSeparator c = false))

namespace Matcher

variable {m : Matcher} {names : List String} {value name : String}
variable {replacement : String → String}

theorem patterns_eq (h : m.names ≠ []) : m.patterns = m.names.map String.toList := by
  rw [patterns, if_neg]
  rwa [List.isEmpty_iff]

theorem names_ne_nil_of_finds (h : m.finds value = true) : m.names ≠ [] := by
  rintro hnil
  rw [finds, hnil] at h
  cases h

theorem occurrences_ne_nil_of_finds (h : m.finds value = true) : m.occurrences value ≠ [] := by
  simp only [finds, Bool.and_eq_true, Bool.not_eq_true'] at h
  intro hnil
  rw [hnil] at h
  cases h.2

/-- Every occurrence is one of the names and stands alone. -/
theorem standsAt_of_mem_occurrences (hne : m.names ≠ []) {o : Occurrence}
    (h : o ∈ m.occurrences value) :
    (∃ name ∈ m.names, o.name = name.toList) ∧ StandsAt value.toList o.name o.start := by
  rw [occurrences, patterns_eq hne] at h
  obtain ⟨hmem, hstands⟩ := Word.standsAt_of_mem_occurrences h
  obtain ⟨name, hname, heq⟩ := List.mem_map.mp hmem
  exact ⟨⟨name, hname, heq.symm⟩, hstands⟩

/-- What replacing names writes for them. -/
def Replaces (m : Matcher) (replacement : String → String) (old new : List Char) : Prop :=
  ∃ name ∈ m.names, old = name.toList ∧ new = (replacement name).toList

/-- A name that stands alone is an edit away from its replacement. -/
theorem edit_of_standsAt {edits : List Char → List Char → Prop} {text old new t : List Char}
    {news : List (List Char)} {place : Nat} (h : StandsAt text old place) (hedit : edits old new)
    (hrest : Edited edits false (text.drop (place + old.length)) t news) :
    Edited edits true (text.drop place) (new ++ t) (new :: news) := by
  rw [← h.append_drop]
  exact .edit hedit h.ends hrest

/-- Replacing names edits a value where they stand alone. -/
theorem edited_replace (hne : m.names ≠ []) (replacement : String → String) (value : String) :
    Edited (m.Replaces replacement) true value.toList (m.replace replacement value).toList
      ((m.occurrences value).map fun o => (replacement (.ofList o.name)).toList) := by
  have hpairwise : (m.occurrences value).Pairwise fun o p => o.stop < p.start :=
    Word.pairwise_occurrences
  obtain ⟨ys, -, hall, hedited⟩ := @edited_applyEdits (m.Replaces replacement) value.toList _
    (fun o => ⟨o.start, o.stop, (replacement (.ofList o.name)).toList⟩)
    (fun o => [(replacement (.ofList o.name)).toList]) false (m.occurrences value)
    (fun o ho => (standsAt_of_mem_occurrences hne ho).2.starts)
    (fun o _ => Nat.le_add_right _ _)
    (fun o ho t news ht => by
      obtain ⟨⟨name, hname, heq⟩, hstands⟩ := standsAt_of_mem_occurrences hne ho
      refine edit_of_standsAt hstands ⟨name, hname, heq, ?_⟩ ht
      rw [heq, String.ofList_toList])
    (.inr hpairwise) 0 true (.inl rfl)
  rw [hall (fun _ _ => Nat.zero_le _) (hpairwise.imp Nat.le_of_lt), ← List.map_eq_flatMap] at hedited
  rw [replace, String.toList_ofList]
  exact hedited

/-! ## Finding -/

/-- Where a matcher finds something, one of its names stands alone. -/
theorem exists_standsAt_of_finds (h : m.finds value = true) :
    ∃ name ∈ m.names, ∃ place, StandsAt value.toList name.toList place := by
  obtain ⟨o, ho⟩ := List.exists_mem_of_ne_nil _ (occurrences_ne_nil_of_finds h)
  obtain ⟨⟨name, hname, heq⟩, hstands⟩ := standsAt_of_mem_occurrences (names_ne_nil_of_finds h) ho
  exact ⟨name, hname, o.start, heq ▸ hstands⟩

/-- The names of a matcher can be searched for. -/
theorem searchable_names (h : ∀ name ∈ names, IsWord name) :
    Searchable ((ofNames names).names.map String.toList) where
  ne_nil := by
    intro chars hchars hnil
    obtain ⟨name, hname, rfl⟩ := List.mem_map.mp hchars
    exact (h name (mem_names.mp hname)).1 (String.toList_eq_nil_iff.mp hnil)
  isNameChar := by
    intro chars hchars c hc
    obtain ⟨name, hname, rfl⟩ := List.mem_map.mp hchars
    exact ((h name (mem_names.mp hname)).2 c hc).1
  not_isSeparator := by
    intro chars hchars c hc
    obtain ⟨name, hname, rfl⟩ := List.mem_map.mp hchars
    exact ((h name (mem_names.mp hname)).2 c hc).2
  longerFirst := by
    rw [List.pairwise_map]
    have hsorted := pairwise_sortDistinct longerFirst_strictOrder names
    refine hsorted.imp fun hab hlead => ?_
    rw [eq_of_longerFirst_of_isPrefix hab hlead]

/-- Where a name stands alone, its matcher finds it. -/
theorem finds_of_standsAt (hwords : ∀ name ∈ names, IsWord name) (hname : name ∈ names)
    {place : Nat} (h : StandsAt value.toList name.toList place) :
    (ofNames names).finds value = true := by
  have hmem : name ∈ (ofNames names).names := mem_names.mpr hname
  have hne : (ofNames names).names ≠ [] := List.ne_nil_of_mem hmem
  have hoccurs := Word.mem_occurrences_of_standsAt (searchable_names hwords)
    (List.mem_map_of_mem hmem) h
  rw [← patterns_eq hne] at hoccurs
  rw [finds, Bool.and_eq_true]
  constructor
  · rw [List.any_eq_true]
    obtain ⟨rest, hrest⟩ := h.isPrefix
    refine ⟨name, hmem, Text.contains_iff.mpr ⟨value.toList.take place, rest, ?_⟩⟩
    rw [List.append_assoc, hrest, List.take_append_drop]
  · rw [Bool.not_eq_true', List.isEmpty_eq_false_iff]
    exact List.ne_nil_of_mem hoccurs

end Matcher
end VendorPrefixing
