import VendorPrefixing.Proofs.Feature.Table
import VendorPrefixing.Proofs.Spelling.Bare

/-!
# Importance

A value that ends in `!important` takes precedence over values that do not.  The spellings
rebuild values in ways of their own: they translate keywords, take a word out, or put the
value between quotes.  The sign stays at the end of everything they write, but for values of
filters in the old syntax: these are put between quotes together with the sign.

Main results:

- Theorem `Flexbox.isImportant_of_mem_forms`: flexible boxes keep the sign.
- Theorem `LegacyFilter.forall_isImportant_iff`: filters keep it unless the value is put
  between quotes.
- Theorem `Feature.isImportant_forms_iff`: every feature keeps it but for these values, and
  none adds it.
-/

namespace VendorPrefixing

theorem Text.endsWith_iff {s ending : String} :
    endsWith s ending = true ↔ ending.toList <:+ s.toList := by
  rw [endsWith, List.isSuffixOf_iff_suffix]

/-- Whether a value ends in the sign of importance. -/
def IsImportant (value : String) : Prop :=
  Text.endsWith value "!important" = true

instance (value : String) : Decidable (IsImportant value) :=
  inferInstanceAs (Decidable (_ = true))

theorem isImportant_iff {value : String} :
    IsImportant value ↔ "!important".toList <:+ value.toList :=
  Text.endsWith_iff

theorem IsImportant.contains {value : String} (h : IsImportant value) :
    Text.contains value "!important" = true :=
  Text.contains_iff.mpr (isImportant_iff.mp h).isInfix

/-- Trimming keeps the sign at the end. -/
theorem IsImportant.trim {value : String} (h : IsImportant value) :
    IsImportant (Text.trim value) := by
  have htrim : (Text.trim value).toList = Chars.trim value.toList := String.toList_ofList
  have hhead : "!important".toList.head? = some '!' := by decide
  have hlast : "!important".toList.getLast? = some 't' := by decide
  rw [isImportant_iff, htrim]
  exact Chars.isSuffix_trim (isImportant_iff.mp h) hhead (by decide) hlast (by decide)

variable {mark value : String} {form : String × String}

/-! ## Flexible boxes -/

namespace Flexbox

variable {p : FlexProperty}

/-- Every form of a value with the sign ends in the sign. -/
theorem isImportant_of_mem_forms (hvalue : Text.contains value "!important" = true)
    (h : form ∈ forms p mark value) : IsImportant form.2 := by
  obtain ⟨front, hform, -⟩ := exists_front_of_mem_forms h
  obtain ⟨position, hposition⟩ := Option.isSome_iff_exists.mp (Chars.isSome_find?.trans hvalue)
  have hsign : "!important".toList <:+ " !important".toList := by decide
  rw [hform, splitImportant_of_some hposition, isImportant_iff, String.toList_append]
  exact hsign.trans (List.suffix_append _ _)

/-- No form of a value without the sign has the sign. -/
theorem lacks_important_of_mem_forms (hvalue : Lacks "!important" value)
    (h : form ∈ forms p mark value) : Lacks "!important" form.2 := by
  obtain ⟨front, hform, hfront⟩ := exists_front_of_mem_forms h
  have hnone : Chars.find? "!important".toList value.toList = none := by
    rw [← Option.not_isSome_iff_eq_none, Chars.isSome_find?, Bool.not_eq_true]
    exact hvalue
  rw [hform, splitImportant_of_none hnone, String.append_empty]
  rcases hfront with hown | hpart
  · have hmem : '!' ∈ "!important".toList := by decide
    exact lacks_iff.mpr fun hsign => hown.sign_not_mem (hsign.subset hmem)
  · exact lacks_of_isInfix hvalue hpart

end Flexbox

/-! ## Filters -/

namespace LegacyFilter

/-- Whether a value is written in the old syntax and without quotes of its own. -/
structure NeedsQuotes (value : String) : Prop where
  isLegacy : LegacyFilter.isLegacy value = true
  not_double : Text.startsWith (Text.trim value) "\"" = false
  not_single : Text.startsWith (Text.trim value) "'" = false

/-- A value that starts with a quote is not put between others. -/
theorem quoted_eq_self (h : Text.startsWith value "\"" = false →
    Text.startsWith value "'" ≠ false) : quoted value = value := by
  rw [quoted, if_pos]
  rw [Bool.or_eq_true, or_iff_not_imp_left, Bool.not_eq_true, ← Bool.not_eq_false]
  exact h

/-- What is put between quotes does not end in the sign. -/
theorem not_isImportant_quoted (hdouble : Text.startsWith value "\"" = false)
    (hsingle : Text.startsWith value "'" = false) : ¬ IsImportant (quoted value) := by
  rw [quoted, hdouble, hsingle, Bool.false_or, if_neg Bool.false_ne_true, isImportant_iff,
    String.toList_append]
  intro hsign
  have hlast := List.IsSuffix.getLast hsign (by decide)
  rw [List.getLast_append_of_ne_nil _ (by decide)] at hlast
  exact absurd hlast (by decide)

/-- Filters keep the sign unless the value is put between quotes. -/
theorem forall_isImportant_iff (hvalue : IsImportant value) :
    (∀ form ∈ forms mark value, IsImportant form.2) ↔ ¬ (mark = vendor ∧ NeedsQuotes value) := by
  rw [forms]
  split
  · rename_i hlegacy
    split
    · rename_i hmark
      rw [List.forall_mem_singleton]
      dsimp only
      constructor
      · rintro hquoted ⟨-, hneeds⟩
        exact not_isImportant_quoted hneeds.not_double hneeds.not_single hquoted
      · intro hnot
        rw [quoted_eq_self fun hdouble hsingle => hnot ⟨hmark, hlegacy, hdouble, hsingle⟩]
        exact hvalue.trim
    · rename_i hmark
      exact iff_of_true (List.forall_mem_nil _) fun h => hmark h.1
  · rename_i hlegacy
    refine iff_of_true ?_ fun h => hlegacy h.2.isLegacy
    split
    · exact List.forall_mem_nil _
    · exact List.forall_mem_singleton.mpr hvalue

end LegacyFilter

/-! ## All spellings -/

namespace Spelling

variable {s : Spelling} {property : String}

/-- Every spelling keeps the sign but for filters that are put between quotes. -/
theorem forall_isImportant_iff (hvalue : IsImportant value) :
    (∀ form ∈ s.forms mark property value, IsImportant form.2) ↔
      ¬ (s = .filter ∧ mark = LegacyFilter.vendor ∧ LegacyFilter.NeedsQuotes value) := by
  by_cases hfilter : s = .filter
  · rw [hfilter, forms, LegacyFilter.forall_isImportant_iff hvalue, eq_self, true_and]
  · refine iff_of_true (fun form hform => ?_) fun h => hfilter h.1
    rcases forms_cases hform with hkept | ⟨p, -, hform⟩ | ⟨hs, -⟩
    · rwa [hkept]
    · exact Flexbox.isImportant_of_mem_forms hvalue.contains hform
    · exact absurd hs hfilter

/-- No spelling adds the sign. -/
theorem lacks_important_of_mem_forms (hvalue : Lacks "!important" value)
    (h : form ∈ s.forms mark property value) : Lacks "!important" form.2 := by
  rcases forms_cases h with hkept | ⟨p, -, h⟩ | ⟨-, h⟩
  · rwa [hkept]
  · exact Flexbox.lacks_important_of_mem_forms hvalue h
  · exact LegacyFilter.lacks_of_mem_forms (by decide) (by decide) hvalue h

end Spelling

namespace Feature

theorem spelling_eq_filter_iff {f : Feature} : f.spelling = .filter ↔ f.name = "filter" := by
  constructor
  · exact name_eq_of_spelling_filter
  · intro hname
    rw [spelling, hname]
    rfl

/-- What is written for a value that ends in `!important` ends in it too, unless the feature
is `filter`, the mark is `-ms-` and the value is one of the old syntax that is put between
quotes.  What is written for a value without `!important` has none. -/
theorem isImportant_forms_iff (f : Feature) (mark value : String) :
    (IsImportant value → ((∀ form ∈ f.spelling.forms mark f.name value, IsImportant form.2) ↔
      ¬ (f.name = "filter" ∧ mark = LegacyFilter.vendor ∧ LegacyFilter.NeedsQuotes value))) ∧
        (Lacks "!important" value →
          ∀ form ∈ f.spelling.forms mark f.name value, Lacks "!important" form.2) := by
  constructor
  · intro hvalue
    rw [Spelling.forall_isImportant_iff hvalue, spelling_eq_filter_iff]
  · intro hvalue form hform
    exact Spelling.lacks_important_of_mem_forms hvalue hform

/-- The order of a flexible box is written as another number, with the sign and without it. -/
theorem isImportant_forms_order :
    IsImportant "1 !important" ∧ Lacks "!important" "1" ∧
      IsImportant "2 !important" ∧ Lacks "!important" "2" := by
  have hsign : IsImportant "1 !important" := by decide
  have hbare : Lacks "!important" "1" := by
    rw [Lacks]
    decide
  obtain ⟨hkeeps, -⟩ :=
    isImportant_forms_iff (property "order" flexboxNeeds) "-moz-" "1 !important"
  obtain ⟨-, hlacks⟩ := isImportant_forms_iff (property "order" flexboxNeeds) "-moz-" "1"
  refine ⟨hsign, hbare, ?_, hlacks hbare ("-moz-box-ordinal-group", "2") (by decide)⟩
  exact (hkeeps hsign).mpr (fun hfilter => absurd hfilter.1 (by decide))
    ("-moz-box-ordinal-group", "2 !important") (by decide)

/-- Not every built-in property keeps the sign: the one of an old filter is taken into the
quotes. -/
theorem not_forall_isImportant_forms :
    ¬ ∀ f ∈ builtIn, f.kind = .property → ∀ mark ∈ Browser.marks, ∀ front : String,
      Lacks "!important" front →
        ∀ form ∈ f.spelling.forms mark f.name (front ++ " !important"), IsImportant form.2 := by
  intro hall
  have hfront : Lacks "!important" "alpha(opacity=50)" := by
    rw [Lacks]
    decide
  have himportant := hall (transitional "filter" filterNeeds) (by decide) rfl "-ms-" (by decide)
    "alpha(opacity=50)" hfront ("-ms-filter", "\"alpha(opacity=50) !important\"") (by decide)
  exact absurd himportant (by decide)

end Feature
end VendorPrefixing
