import VendorPrefixing.Browser.Selection
import VendorPrefixing.Browser.Table

/-!
# The marks of the built-in browsers

Main results:

- Theorem `BrowserTable.mem_vendorsOf`: the marks of some versions are the ones
  that their browsers use.
- Theorem `Browser.mem_marks_of_mem_vendorsOf`: the built-in browsers use four
  marks.
-/

namespace VendorPrefixing

/-- The marks of some versions are the ones that their browsers use. -/
theorem BrowserTable.mem_vendorsOf {table : BrowserTable} {ts : List Target} {mark : String} :
    mark ∈ table.vendorsOf ts ↔ ∃ t ∈ ts, table.vendorFor? t = some mark := by
  rw [vendorsOf, mem_sortDistinct longerFirst_strictOrder, List.mem_filterMap]

/-- Fewer versions use no further marks. -/
theorem BrowserTable.vendorsOf_subset {table : BrowserTable} {ts us : List Target}
    (h : ts ⊆ us) : table.vendorsOf ts ⊆ table.vendorsOf us := by
  intro mark hmark
  obtain ⟨t, ht, hvendor⟩ := mem_vendorsOf.mp hmark
  exact mem_vendorsOf.mpr ⟨t, h ht, hvendor⟩

namespace Browser

/-- The vendor marks of the built-in browsers. -/
def marks : List String :=
  ["-webkit-", "-moz-", "-ms-", "-o-"]

/-- A browser uses its mark or one that it has changed to. -/
theorem vendorAt_cases (b : Browser) (v : Version) :
    b.vendorAt v = b.vendor ∨ ∃ change ∈ b.changes, b.vendorAt v = change.2 := by
  rw [vendorAt]
  split
  · rename_i change hchange
    exact .inr ⟨change, List.mem_reverse.mp (List.mem_of_find?_eq_some hchange), rfl⟩
  · exact .inl rfl

theorem mem_marks_of_mem_builtIn :
    ∀ b ∈ builtIn, b.vendor ∈ marks ∧ ∀ change ∈ b.changes, change.2 ∈ marks := by
  decide

/-- The built-in browsers use four marks. -/
theorem mem_marks_of_mem_vendorsOf {ts : List Target} {mark : String}
    (h : mark ∈ builtIn.vendorsOf ts) : mark ∈ marks := by
  obtain ⟨t, _, hvendor⟩ := BrowserTable.mem_vendorsOf.mp h
  obtain ⟨b, hb, rfl⟩ := Option.map_eq_some_iff.mp hvendor
  obtain ⟨hown, hchanges⟩ := mem_marks_of_mem_builtIn b (List.mem_of_find?_eq_some hb)
  rcases b.vendorAt_cases t.version with heq | ⟨change, hchange, heq⟩
  · rw [heq]
    exact hown
  · rw [heq]
    exact hchanges change hchange

end Browser
end VendorPrefixing
