import Mathlib.Data.List.Pairwise
import VendorPrefixing.Browser.Selection
import VendorPrefixing.Browser.Table

/-!
# Looking browsers up

A browser can be asked for by its name or by an alias, in capitals or small letters.
Where every name of a table is written in small letters and belongs to one browser
only, looking a name up finds exactly the browser that goes by it.

Main results:

- Theorem `BrowserTable.find?_eq_some_iff`: what looking a name up finds.
- Theorem `BrowserTable.vendorFor?_of_mem`: a version of a browser in the table uses the
  mark of that browser.
- Theorem `Browser.unambiguous_builtIn`: the built-in table is unambiguous.
-/

namespace VendorPrefixing

namespace Browser

/-- Everything a browser can be asked for by. -/
def names (b : Browser) : List String :=
  b.name :: b.aliases

/-- Whether a text is a name of the browser, in capitals or small letters. -/
def IsNamed (b : Browser) (text : String) : Prop :=
  ∃ name ∈ b.names, Text.lower name = Text.lower text

theorem goesBy_iff {b : Browser} {name : String} : b.goesBy name = true ↔ name ∈ b.names := by
  rw [goesBy, names, Bool.or_eq_true, beq_iff_eq, List.contains_eq_mem, decide_eq_true_eq,
    List.mem_cons, eq_comm]

end Browser

namespace BrowserTable

/-- Whether all names in a table are written in small letters and no two browsers share
one. -/
structure Unambiguous (table : BrowserTable) : Prop where
  lower : ∀ b ∈ table, ∀ name ∈ b.names, Text.lower name = name
  unique : ∀ b ∈ table, ∀ c ∈ table, ∀ name ∈ b.names, name ∈ c.names → b = c

variable {table : BrowserTable} {b : Browser} {text : String}

/-- A browser of an unambiguous table goes by the small letters of exactly the texts that
name it. -/
theorem Unambiguous.goesBy_lower_iff (h : table.Unambiguous) (hb : b ∈ table) :
    b.goesBy (Text.lower text) = true ↔ b.IsNamed text := by
  rw [Browser.goesBy_iff]
  constructor
  · intro hname
    exact ⟨_, hname, h.lower b hb _ hname⟩
  · rintro ⟨name, hname, heq⟩
    rwa [← heq, h.lower b hb name hname]

/-- What is found is in the table and goes by the small letters of the text. -/
theorem goesBy_of_find? (h : table.find? text = some b) :
    b ∈ table ∧ b.goesBy (Text.lower text) = true := by
  rw [find?] at h
  have hgoes := List.find?_some h
  exact ⟨List.mem_of_find?_eq_some h, hgoes⟩

/-- Looking a name up finds exactly the browser that goes by it. -/
theorem find?_eq_some_iff (h : table.Unambiguous) :
    table.find? text = some b ↔ b ∈ table ∧ b.IsNamed text := by
  constructor
  · intro hfind
    obtain ⟨hb, hgoes⟩ := goesBy_of_find? hfind
    exact ⟨hb, (h.goesBy_lower_iff hb).mp hgoes⟩
  · rintro ⟨hb, hnamed⟩
    have hgoes := (h.goesBy_lower_iff hb).mpr hnamed
    cases hfind : table.find? text with
    | none => exact absurd hgoes (List.find?_eq_none.mp hfind b hb)
    | some c =>
      obtain ⟨hc, hfound⟩ := goesBy_of_find? hfind
      rw [Browser.goesBy_iff] at hfound hgoes
      rw [h.unique c hc b hb _ hfound hgoes]

/-- A version of a browser in the table uses the mark of that browser. -/
theorem vendorFor?_of_mem (h : table.Unambiguous) (hb : b ∈ table) (v : Version) :
    table.vendorFor? ⟨b.name, v⟩ = some (b.vendorAt v) := by
  have hfind : table.find? b.name = some b :=
    (find?_eq_some_iff h).mpr ⟨hb, b.name, List.mem_cons_self, rfl⟩
  rw [vendorFor?, hfind, Option.map_some]

end BrowserTable

/-- The names of different built-in browsers are different. -/
theorem Browser.pairwise_names_builtIn :
    builtIn.Pairwise fun b c => ∀ name ∈ b.names, name ∉ c.names := by
  decide

/-- The built-in table is unambiguous. -/
theorem Browser.unambiguous_builtIn : builtIn.Unambiguous where
  lower := by decide
  unique := by
    refine List.Pairwise.forall_of_forall_of_flip (fun _ _ _ _ _ => rfl) ?_ ?_
    · exact pairwise_names_builtIn.imp fun h name hb hc => absurd hc (h name hb)
    · exact pairwise_names_builtIn.imp fun h name hc hb => absurd hc (h name hb)

end VendorPrefixing
