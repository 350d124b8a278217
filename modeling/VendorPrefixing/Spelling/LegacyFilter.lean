import VendorPrefixing.Text.Find
import VendorPrefixing.Text.WhiteSpace

/-!
# Filters

The property `filter` was used before its standard, with values of another
syntax such as `alpha(opacity=50)`.  These values are only written as
`-ms-filter`, between quotes, and standard values never take the mark `-ms-`.

Main results:

- Theorem `LegacyFilter.forms_standard_ms`: a standard value has no form under
  `-ms-`.
- Theorem `LegacyFilter.forms_legacy`: an old value has no form under any other
  mark.
-/

namespace VendorPrefixing
namespace LegacyFilter

/-- The mark under which the old syntax is written. -/
def vendor : String :=
  "-ms-"

/-- The property that holds values of the old syntax. -/
def property : String :=
  "-ms-filter"

/-- Whether a value is written in the old syntax. -/
def isLegacy (value : String) : Bool :=
  let text := Text.lower (Text.trim value)
  Text.startsWith text "progid:" || Text.startsWith text "alpha(" ||
    Text.contains text "dximagetransform.microsoft"

/-- The value between double quotes, with the double quotes inside it made
single, unless it starts with a quote already. -/
def quoted (value : String) : String :=
  if Text.startsWith value "\"" || Text.startsWith value "'" then value
  else "\"" ++ String.ofList (value.toList.map fun c => if c = '"' then '\'' else c) ++ "\""

/-- The declarations that stand for `filter: value` under a vendor mark. -/
def forms (mark value : String) : List (String × String) :=
  if isLegacy value then
    if mark = vendor then [(property, quoted (Text.trim value))] else []
  else if mark = vendor then [] else [(mark ++ "filter", value)]

/-- A standard value has no form under `-ms-`. -/
theorem forms_standard_ms {value : String} (h : isLegacy value = false) :
    forms vendor value = [] := by
  simp [forms, h]

/-- A value of the old syntax has no form under any mark but `-ms-`. -/
theorem forms_legacy {mark value : String} (h : isLegacy value = true) (hm : mark ≠ vendor) :
    forms mark value = [] := by
  simp [forms, h, hm]

end LegacyFilter
end VendorPrefixing
