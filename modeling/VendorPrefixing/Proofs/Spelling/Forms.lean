import Mathlib.Data.List.Flatten
import Mathlib.Data.List.Infix
import Mathlib.Data.List.Nodup
import VendorPrefixing.Proofs.Browser.Vendor
import VendorPrefixing.Proofs.Decimal.Reading
import VendorPrefixing.Proofs.Spelling.Values
import VendorPrefixing.Proofs.Value.Insertion

/-!
# Which properties a mark leads to

The properties that are written for a value depend on the value: on its words, on
numbers in it and on the syntax it is written in.  They do not depend on whether
`calc` carries a mark in the value.

Main results:

- Theorem `Spelling.map_fst_forms_sublist`: the properties that are written are names that
  their mark can lead to, each at most once.
- Theorem `Spelling.nodup_names`: no mark leads to the same name twice.
- Theorem `Spelling.isPrefix_of_mem_names`: each of these names begins with the mark.
- Theorem `Spelling.map_fst_forms_of_inserted`: a mark in front of `calc` changes no
  property that is written.
-/

namespace VendorPrefixing

/-- The name of the function for computed lengths. -/
def calcName : List Char :=
  ['c', 'a', 'l', 'c']

/-- Whether one value is another with a mark in front of `calc` at some places. -/
def CalcMarked (mark value marked : String) : Prop :=
  Inserted mark.toList calcName value.toList marked.toList

/-! ## Marks and what is looked for -/

theorem areSolid_of_mem_marks {mark : String} (h : mark ∈ Browser.marks) :
    AreSolid mark.toList calcName := by
  have hchars : ∀ mark ∈ Browser.marks, mark.toList ≠ [] ∧
      ∀ c ∈ mark.toList ++ calcName, isBlank c = false := by
    decide
  obtain ⟨hne, hblank⟩ := hchars mark h
  exact ⟨hne, by decide, hblank⟩

theorem map_toLower_of_mem_marks :
    ∀ mark ∈ Browser.marks, mark.toList.map Char.toLower = mark.toList := by
  decide

/-- No end of a text looked for starts with `calc` or inside it. -/
theorem not_isPrefix_of_suffix {needle : List Char}
    (h : needle.tails.all (fun x => x.isEmpty || !(x.isPrefixOf calcName || calcName.isPrefixOf x)) =
      true) (x : List Char) (hx : x ≠ []) (hsuffix : x <:+ needle) :
    ¬ x <+: calcName ∧ ¬ calcName <+: x := by
  have hclear := List.all_eq_true.mp h x ((List.mem_tails x needle).mpr hsuffix)
  rw [Bool.or_eq_true, List.isEmpty_iff, or_iff_right hx, Bool.not_eq_true',
    Bool.or_eq_false_iff] at hclear
  rw [← List.isPrefixOf_iff_prefix, ← List.isPrefixOf_iff_prefix, hclear.1, hclear.2]
  exact ⟨Bool.false_ne_true, Bool.false_ne_true⟩

theorem head?_of_mem_marks : ∀ mark ∈ Browser.marks, mark.toList.head? = some '-' := by
  decide

/-- A text without a hyphen holds no first character of a mark. -/
theorem head_not_mem_of_mem_marks {mark : String} (h : mark ∈ Browser.marks) {needle : List Char}
    (hneedle : '-' ∉ needle) (c : Char) (hc : mark.toList.head? = some c) : c ∉ needle := by
  rw [head?_of_mem_marks mark h] at hc
  cases hc
  exact hneedle

theorem isClear_important {mark : String} (h : mark ∈ Browser.marks) :
    IsClear mark.toList calcName "!important".toList where
  not_mem := by
    have hmarks : ∀ mark ∈ Browser.marks, '!' ∉ mark.toList ++ calcName := by decide
    intro c hc
    cases hc
    exact hmarks mark h
  head_not_mem := head_not_mem_of_mem_marks h (by decide)
  suffix := not_isPrefix_of_suffix (by decide)

theorem isClear_microsoft {mark : String} (h : mark ∈ Browser.marks) :
    IsClear mark.toList calcName "dximagetransform.microsoft".toList where
  not_mem := by
    have hmarks : ∀ mark ∈ Browser.marks, 'd' ∉ mark.toList ++ calcName := by decide
    intro c hc
    cases hc
    exact hmarks mark h
  head_not_mem := head_not_mem_of_mem_marks h (by decide)
  suffix := not_isPrefix_of_suffix (by decide)

/-! ## Filters -/

namespace LegacyFilter

/-- A mark in front of `calc` does not change whether a value is written in the old
syntax. -/
theorem isLegacy_of_calcMarked {mark value marked : String} (hmark : mark ∈ Browser.marks)
    (h : CalcMarked mark value marked) : isLegacy marked = isLegacy value := by
  have hsolid := areSolid_of_mem_marks hmark
  have htext : Inserted mark.toList calcName (Text.lower (Text.trim value)).toList
      (Text.lower (Text.trim marked)).toList := by
    simp only [Text.lower, Text.trim, String.toList_ofList]
    exact (h.trim hsolid).map (map_toLower_of_mem_marks mark hmark) (by decide)
  have hstarts : ∀ needle : String, '-' ∉ needle.toList →
      needle.toList.tails.all
        (fun x => x.isEmpty || !(x.isPrefixOf calcName || calcName.isPrefixOf x)) = true →
      Text.startsWith (Text.lower (Text.trim marked)) needle =
        Text.startsWith (Text.lower (Text.trim value)) needle := by
    intro needle hhyphen hsuffix
    rw [Bool.eq_iff_iff, Text.startsWith, Text.startsWith, List.isPrefixOf_iff_prefix,
      List.isPrefixOf_iff_prefix]
    exact (Inserted.isPrefix_iff hsolid.mark_ne_nil (head_not_mem_of_mem_marks hmark hhyphen)
      (not_isPrefix_of_suffix hsuffix) htext).symm
  have hcontains : Text.contains (Text.lower (Text.trim marked)) "dximagetransform.microsoft" =
      Text.contains (Text.lower (Text.trim value)) "dximagetransform.microsoft" :=
    (Inserted.contains_eq hsolid (by decide) (isClear_microsoft hmark) htext).symm
  rw [isLegacy, isLegacy]
  rw [hstarts "progid:" (by decide) (by decide +kernel),
    hstarts "alpha(" (by decide) (by decide +kernel), hcontains]

end LegacyFilter

/-! ## Flexible boxes -/

namespace Flexbox

variable {mark : String}

/-- A word that holds `calc` is no keyword for a direction. -/
theorem direction2009_of_isInfix {word : String} (h : calcName <:+: word.toList) :
    direction2009 word = [] := by
  have hwords : ∀ word ∈ ["row", "row-reverse", "column", "column-reverse"],
      ¬ calcName <:+: word.toList := by
    decide
  unfold direction2009
  split
  · exact absurd h (hwords _ (by simp))
  · exact absurd h (hwords _ (by simp))
  · exact absurd h (hwords _ (by simp))
  · exact absurd h (hwords _ (by simp))
  · rfl

theorem direction2009_of_calcMarked {value marked : String} (h : CalcMarked mark value marked) :
    direction2009 marked = direction2009 value := by
  rcases Inserted.eq_or_isInfix h with heq | ⟨hvalue, hmarked⟩
  · rw [String.toList_inj.mp heq]
  · rw [direction2009_of_isInfix hvalue, direction2009_of_isInfix hmarked]

theorem isLetter_c : Chars.IsLetter 'c' where
  not_isDigit := by decide
  ne_minus := by decide
  ne_plus := by decide

theorem mem_of_calcName_isInfix {s : List Char} (h : calcName <:+: s) : 'c' ∈ s :=
  h.subset List.mem_cons_self

/-- A text that holds `calc` is no integer. -/
theorem integer?_of_isInfix {s : List Char} (h : calcName <:+: s) : Chars.integer? s = none := by
  cases hn : Chars.integer? s with
  | none => rfl
  | some n => exact absurd (mem_of_calcName_isInfix h) (Chars.not_mem_of_integer? isLetter_c hn)

/-- A text that holds `calc` is no real number. -/
theorem real?_of_isInfix {s : List Char} (h : calcName <:+: s) : Chars.real? s = none := by
  cases hx : Chars.real? s with
  | none => rfl
  | some x =>
    exact absurd (mem_of_calcName_isInfix h)
      (Chars.not_mem_of_real? isLetter_c (by decide) (by decide) hx)

/-- The share of free space that a single word stands for. -/
theorem growth?_of_isInfix {value word : String} (hhead : (Text.words value).head? = some word)
    (h : calcName <:+: word.toList) : growth? value = none := by
  have hwords : ∀ word ∈ ["none", "initial", "auto"], ¬ calcName <:+: word.toList := by
    decide
  rw [growth?, hhead]
  split
  · rename_i heq
    cases heq
    exact absurd h (hwords _ (by simp))
  · rename_i heq
    cases heq
    exact absurd h (hwords _ (by simp))
  · rename_i heq
    cases heq
    exact absurd h (hwords _ (by simp))
  · rename_i heq
    cases heq
    rw [real?_of_isInfix h]
    rfl
  · rename_i heq
    cases heq

theorem words_of_calcMarked (hmark : mark ∈ Browser.marks) {value marked : String}
    (h : CalcMarked mark value marked) :
    List.Forall₂ (CalcMarked mark) (Text.words value) (Text.words marked) := by
  rw [Text.words, Text.words, List.forall₂_map_left_iff, List.forall₂_map_right_iff]
  refine (h.words (areSolid_of_mem_marks hmark)).imp fun v w hvw => ?_
  rw [CalcMarked, String.toList_ofList, String.toList_ofList]
  exact hvw

theorem trim_of_calcMarked (hmark : mark ∈ Browser.marks) {value marked : String}
    (h : CalcMarked mark value marked) : CalcMarked mark (Text.trim value) (Text.trim marked) := by
  rw [CalcMarked, Text.trim, Text.trim, String.toList_ofList, String.toList_ofList]
  exact h.trim (areSolid_of_mem_marks hmark)

/-- The growth of a marked value is given when the growth of the value is. -/
theorem growth?_of_calcMarked (hmark : mark ∈ Browser.marks) {value marked : String}
    (h : CalcMarked mark value marked) : growth? marked = growth? value := by
  have hwords := words_of_calcMarked hmark h
  cases hvalue : Text.words value with
  | nil =>
    rw [hvalue, List.forall₂_nil_left_iff] at hwords
    rw [growth?, growth?, hvalue, hwords]
  | cons v vs =>
    rw [hvalue] at hwords
    obtain ⟨w, ws, hvw, -, hmarked⟩ := List.forall₂_cons_left_iff.mp hwords
    rcases Inserted.eq_or_isInfix hvw with heq | ⟨hv, hw⟩
    · rw [growth?, growth?, hvalue, hmarked, List.head?_cons, List.head?_cons,
        String.toList_inj.mp heq]
    · rw [growth?_of_isInfix (by rw [hmarked, List.head?_cons]) hw,
        growth?_of_isInfix (by rw [hvalue, List.head?_cons]) hv]

/-- The first word for a direction is the same. -/
theorem find?_direction_of_forall₂ {vs ws : List String}
    (h : List.Forall₂ (CalcMarked mark) vs ws) :
    ws.find? (fun word => !(direction2009 word).isEmpty) =
      vs.find? (fun word => !(direction2009 word).isEmpty) := by
  induction h with
  | nil => rfl
  | @cons v w vs ws hvw _ ih =>
    rcases Inserted.eq_or_isInfix hvw with heq | ⟨hv, hw⟩
    · rw [String.toList_inj.mp heq, List.find?_cons, List.find?_cons, ih]
    · rw [List.find?_cons, List.find?_cons, direction2009_of_isInfix hv, direction2009_of_isInfix hw]
      exact ih

theorem group?_of_calcMarked (hmark : mark ∈ Browser.marks) {value marked : String}
    (h : CalcMarked mark value marked) : group? marked = group? value := by
  rcases Inserted.eq_or_isInfix (trim_of_calcMarked hmark h) with heq | ⟨hvalue, hmarked⟩
  · rw [group?, group?, heq]
  · rw [group?, group?, integer?_of_isInfix hvalue, integer?_of_isInfix hmarked]

theorem trim_eq_iff_of_calcMarked (hmark : mark ∈ Browser.marks) {value marked word : String}
    (hword : ¬ calcName <:+: word.toList) (h : CalcMarked mark value marked) :
    Text.trim marked = word ↔ Text.trim value = word := by
  rcases Inserted.eq_or_isInfix (trim_of_calcMarked hmark h) with heq | ⟨hvalue, hmarked⟩
  · rw [String.toList_inj.mp heq]
  · constructor
    · rintro rfl
      exact absurd hmarked hword
    · rintro rfl
      exact absurd hvalue hword

/-- The properties of 2009 that stand for a value are the same. -/
theorem map_fst_forms2009 (hmark : mark ∈ Browser.marks) {value marked : String}
    (h : CalcMarked mark value marked) (p : FlexProperty) :
    (forms2009 p marked).map Prod.fst = (forms2009 p value).map Prod.fst := by
  cases p with
  | flex => rw [forms2009, forms2009, growth?_of_calcMarked hmark h]
  | direction =>
    rw [forms2009, forms2009, direction2009_of_calcMarked (trim_of_calcMarked hmark h)]
  | flow =>
    rw [forms2009, forms2009, find?_direction_of_forall₂ (words_of_calcMarked hmark h)]
  | order => rw [forms2009, forms2009, group?_of_calcMarked hmark h]
  | justifyContent =>
    have hiff : Text.trim marked = "space-around" ↔ Text.trim value = "space-around" :=
      trim_eq_iff_of_calcMarked hmark (by decide) h
    rw [forms2009, forms2009]
    by_cases hvalue : Text.trim value = "space-around"
    · rw [if_pos hvalue, if_pos (hiff.mpr hvalue)]
    · rw [if_neg hvalue, if_neg (mt hiff.mp hvalue), List.map_singleton, List.map_singleton]
  | grow => rw [forms2009, forms2009, List.map_singleton, List.map_singleton]
  | alignItems => rw [forms2009, forms2009, List.map_singleton, List.map_singleton]
  | wrap => rfl
  | shrink => rfl
  | basis => rfl
  | alignSelf => rfl
  | alignContent => rfl

theorem splitImportant_of_none {value : String}
    (h : Chars.find? "!important".toList value.toList = none) :
    splitImportant value = (value, "") := by
  rw [splitImportant, h]

theorem splitImportant_of_some {value : String} {position : Nat}
    (h : Chars.find? "!important".toList value.toList = some position) :
    splitImportant value =
      (Text.trimEnd (.ofList (value.toList.take position)), " !important") := by
  rw [splitImportant, h]

/-- What stands before `!important` corresponds. -/
theorem splitImportant_of_calcMarked (hmark : mark ∈ Browser.marks) {value marked : String}
    (h : CalcMarked mark value marked) :
    CalcMarked mark (splitImportant value).1 (splitImportant marked).1 := by
  have hsolid := areSolid_of_mem_marks hmark
  rcases Inserted.find?_cases hsolid (by decide) (isClear_important hmark) h with
    ⟨hvalue, hmarked⟩ | ⟨i, j, hvalue, hmarked, hfront⟩
  · rw [splitImportant_of_none hvalue, splitImportant_of_none hmarked]
    exact h
  · rw [splitImportant_of_some hvalue, splitImportant_of_some hmarked, CalcMarked, Text.trimEnd,
      Text.trimEnd, String.toList_ofList, String.toList_ofList, String.toList_ofList,
      String.toList_ofList]
    exact hfront.trimEnd hsolid

/-- The properties that stand for a value under a mark are the same. -/
theorem map_fst_forms (hmark : mark ∈ Browser.marks) {value marked : String}
    (h : CalcMarked mark value marked) (p : FlexProperty) :
    (forms p mark marked).map Prod.fst = (forms p mark value).map Prod.fst := by
  have hfront := splitImportant_of_calcMarked hmark h
  rw [forms, forms]
  dsimp only
  rw [List.map_flatMap, List.map_flatMap]
  congr 1
  funext era
  have hera : (formsOf era p (splitImportant marked).1).map Prod.fst =
      (formsOf era p (splitImportant value).1).map Prod.fst := by
    cases era with
    | of2009 => exact map_fst_forms2009 hmark hfront p
    | of2012 => rw [formsOf, formsOf, List.map_singleton, List.map_singleton]
    | final => rw [formsOf, formsOf, List.map_singleton, List.map_singleton]
  have hnames := congrArg (List.map (mark ++ ·)) hera
  simpa [List.map_map, Function.comp_def] using hnames

end Flexbox

/-! ## All spellings -/

namespace Flexbox

theorem map_fst_direction2009_sublist (direction : String) :
    ((direction2009 direction).map Prod.fst).Sublist ["box-orient", "box-direction"] := by
  unfold direction2009
  split
  case h_5 => exact List.nil_sublist _
  all_goals exact List.Sublist.refl _

/-- The properties of 2009 that are written are names of 2009, each at most once. -/
theorem map_fst_forms2009_sublist (p : FlexProperty) (value : String) :
    ((forms2009 p value).map Prod.fst).Sublist p.names2009 := by
  have hoption : ∀ (name : String) (o : Option String),
      ((o.toList.map fun v => (name, v)).map Prod.fst).Sublist [name] := by
    rintro name (_ | v)
    · exact List.nil_sublist _
    · exact List.Sublist.refl _
  cases p with
  | direction => exact map_fst_direction2009_sublist _
  | flow =>
    rw [forms2009]
    split
    · exact map_fst_direction2009_sublist _
    · exact List.nil_sublist _
  | flex => exact hoption _ _
  | order => exact hoption _ _
  | justifyContent =>
    rw [forms2009]
    split
    · exact List.nil_sublist _
    · exact List.Sublist.refl _
  | grow => exact List.Sublist.refl _
  | alignItems => exact List.Sublist.refl _
  | wrap => exact List.Sublist.refl _
  | shrink => exact List.Sublist.refl _
  | basis => exact List.Sublist.refl _
  | alignSelf => exact List.Sublist.refl _
  | alignContent => exact List.Sublist.refl _

/-- The properties that are written are names that the mark can lead to, each at most
once. -/
theorem map_fst_forms_sublist (p : FlexProperty) (mark value : String) :
    ((forms p mark value).map Prod.fst).Sublist (names p mark) := by
  rw [forms]
  dsimp only
  rw [List.map_flatMap]
  refine List.Sublist.flatMap_right _ fun era _ => ?_
  cases era with
  | of2009 =>
    have hbare := (map_fst_forms2009_sublist p (splitImportant value).1).map (mark ++ ·)
    rw [List.map_map] at hbare ⊢
    exact hbare
  | of2012 => exact List.Sublist.refl _
  | final => exact List.Sublist.refl _

/-- No mark leads to the same name twice. -/
theorem nodup_names (p : FlexProperty) (mark : String) : (names p mark).Nodup := by
  rw [names, FlexEra.ofVendor]
  split
  · rename_i h
    rw [h]
    cases p <;> decide
  · split
    · rename_i h
      rw [h]
      cases p <;> decide
    · split
      · exact List.nodup_singleton _
      · exact List.nodup_nil

theorem isPrefix_of_mem_names {p : FlexProperty} {mark name : String} (h : name ∈ names p mark) :
    mark.toList <+: name.toList := by
  obtain ⟨era, _, h⟩ := List.mem_flatMap.mp h
  cases era with
  | of2009 =>
    obtain ⟨bare, _, rfl⟩ := List.mem_map.mp h
    exact Spelling.isPrefix_toList_append _ _
  | of2012 =>
    obtain rfl := List.mem_singleton.mp h
    exact Spelling.isPrefix_toList_append _ _
  | final =>
    obtain rfl := List.mem_singleton.mp h
    exact Spelling.isPrefix_toList_append _ _

end Flexbox

namespace Spelling

variable {s : Spelling} {mark property value name : String}

/-- The properties that are written are names that their mark can lead to, each at most
once. -/
theorem map_fst_forms_sublist (mark value : String)
    (hfilter : s = .filter → property = "filter") :
    ((s.forms mark property value).map Prod.fst).Sublist (s.names mark property) := by
  cases s with
  | plain => exact List.Sublist.refl _
  | cornerRadius => exact List.Sublist.refl _
  | display => exact List.Sublist.refl _
  | gradient => exact List.Sublist.refl _
  | flex p => exact Flexbox.map_fst_forms_sublist p mark value
  | filter =>
    rw [forms, LegacyFilter.forms, names, hfilter rfl]
    by_cases hms : mark = LegacyFilter.vendor
    · rw [if_pos hms, if_pos hms]
      split
      · exact List.Sublist.refl _
      · exact List.nil_sublist _
    · rw [if_neg hms, if_neg hms]
      split
      · exact List.nil_sublist _
      · exact List.Sublist.refl _

/-- Every property that is written is one of the names that its mark can lead to. -/
theorem mem_names_of_mem_forms {form : String × String}
    (hfilter : s = .filter → property = "filter") (h : form ∈ s.forms mark property value) :
    form.1 ∈ s.names mark property :=
  (map_fst_forms_sublist mark value hfilter).subset (List.mem_map_of_mem h)

/-- No mark leads to the same name twice. -/
theorem nodup_names (s : Spelling) (mark property : String) : (s.names mark property).Nodup := by
  cases s with
  | plain => exact List.nodup_singleton _
  | cornerRadius => exact List.nodup_singleton _
  | display => exact List.nodup_nil
  | gradient => exact List.nodup_nil
  | flex p => exact Flexbox.nodup_names p mark
  | filter =>
    rw [names]
    split <;> exact List.nodup_singleton _

/-- Every name that a mark can lead to begins with the mark. -/
theorem isPrefix_of_mem_names (h : name ∈ s.names mark property) :
    mark.toList <+: name.toList := by
  cases s with
  | plain => exact List.mem_singleton.mp h ▸ isPrefix_toList_append _ _
  | cornerRadius => exact List.mem_singleton.mp h ▸ isPrefix_cornerRadius_marked _ _
  | display => exact absurd h List.not_mem_nil
  | gradient => exact absurd h List.not_mem_nil
  | flex p => exact Flexbox.isPrefix_of_mem_names h
  | filter =>
    rw [names] at h
    split at h
    · rename_i hms
      rw [List.mem_singleton.mp h, hms]
      exact isPrefix_toList_append LegacyFilter.vendor "filter"
    · exact List.mem_singleton.mp h ▸ isPrefix_toList_append _ _

/-- A mark in front of `calc` changes no property that is written. -/
theorem map_fst_forms_of_inserted {marked : String} (hmark : mark ∈ Browser.marks)
    (h : (∃ p, s = .flex p) ∨ s = .filter → CalcMarked mark value marked) :
    (s.forms mark property marked).map Prod.fst = (s.forms mark property value).map Prod.fst := by
  cases s with
  | plain => rfl
  | display => rfl
  | cornerRadius => rfl
  | gradient => rfl
  | flex p => exact Flexbox.map_fst_forms hmark (h (.inl ⟨p, rfl⟩)) p
  | filter =>
    rw [forms, forms, LegacyFilter.forms, LegacyFilter.forms,
      LegacyFilter.isLegacy_of_calcMarked hmark (h (.inr rfl))]
    split
    · split
      · rw [List.map_singleton, List.map_singleton]
      · rfl
    · split
      · rfl
      · rw [List.map_singleton, List.map_singleton]

end Spelling
end VendorPrefixing
