import Mathlib.Data.List.TakeWhile
import VendorPrefixing.Sheet.Item

/-!
# Keywords that are read again

Whatever the keyword of an at-rule looks like, the tree keeps as much of it as it
takes to print a keyword that announces the same.

Main results:

- Theorem `AtKeyword.ofName_word`: the printed keyword announces what the keyword
  announced that was read.
- Theorem `AtKeyword.isName_word`: the printed keyword is a name.
-/

namespace VendorPrefixing

/-- Names, as they stand behind an at sign. -/
def IsName (s : List Char) : Prop :=
  s ≠ [] ∧ ∀ c ∈ s, isNameChar c = true

/-- Vendor marks, as they stand in front of a keyword in small letters. -/
def IsVendorMark (v : String) : Prop :=
  ∃ letters, letters ≠ [] ∧ (∀ c ∈ letters, isFoldedLetter c = true ∧ c.toLower = c) ∧
    v = String.ofList ('-' :: letters ++ ['-'])

/-- Small letters stay as they are. -/
theorem toLower_toLower (c : Char) : c.toLower.toLower = c.toLower := by
  by_cases hcapital : c.val ≥ 'A'.val ∧ c.val ≤ 'Z'.val
  · have hlower : c.toLower.val = c.val + ('a'.val - 'A'.val) :=
      congrArg Char.val (dif_pos hcapital)
    refine dif_neg fun h => ?_
    rw [hlower] at h
    simp only [ge_iff_le, UInt32.le_iff_toNat_le, UInt32.toNat_add, UInt32.toNat_sub] at hcapital h
    have h65 : 'A'.val.toNat = 65 := rfl
    have h90 : 'Z'.val.toNat = 90 := rfl
    have h97 : 'a'.val.toNat = 97 := rfl
    omega
  · have hsame : c.toLower = c := dif_neg hcapital
    rw [hsame, hsame]

theorem isAlpha_of_isAlpha_toLower {c : Char} (h : c.toLower.isAlpha = true) :
    c.isAlpha = true := by
  by_cases hcapital : c.val ≥ 'A'.val ∧ c.val ≤ 'Z'.val
  · have hupper : c.isUpper = true := by
      delta Char.isUpper
      simpa using hcapital
    exact (Bool.or_eq_true _ _).mpr (.inl hupper)
  · have hsame : c.toLower = c := dif_neg hcapital
    rwa [hsame] at h

theorem isNameChar_of_isFoldedLetter {c : Char} (h : isFoldedLetter c = true) :
    isNameChar c = true := by
  rw [isFoldedLetter, foldCase] at h
  split at h
  · rename_i hc
    rw [hc]
    decide +kernel
  · split at h
    · rename_i hc
      rw [hc]
      decide +kernel
    · have hletter : c.isAlphanum = true := by
        rw [Char.isAlphanum, isAlpha_of_isAlpha_toLower h, Bool.true_or]
      exact isNameChar_iff.mpr (.inl (isAlphanumeric_of_isAlphanum hletter))

theorem IsVendorMark.isNameChar {v : String} (h : IsVendorMark v) :
    ∀ c ∈ v.toList, isNameChar c = true := by
  obtain ⟨letters, -, hletters, rfl⟩ := h
  intro c hc
  rw [String.toList_ofList, List.cons_append, List.mem_cons, List.mem_append,
    List.mem_singleton] at hc
  rcases hc with rfl | hc | rfl
  · rfl
  · exact isNameChar_of_isFoldedLetter (hletters c hc).1
  · rfl

namespace AtKeyword

variable {v : String} {plain name : List Char}

/-! ## Vendor marks -/

theorem isFolded_keyframes_hyphen (s : List Char) :
    Chars.isFolded "keyframes".toList ('-' :: s) = false :=
  rfl

theorem isFolded_document_hyphen (s : List Char) :
    Chars.isFolded "document".toList ('-' :: s) = false :=
  rfl

/-- A mark that is found in a text of small letters can be printed. -/
theorem isVendorMark_of_vendorMark? (hname : ∀ c ∈ name, c.toLower = c)
    (h : vendorMark? word name = some (some v)) : IsVendorMark v := by
  unfold vendorMark? at h
  split at h
  · cases h
  · split at h
    · rename_i rest _
      dsimp only at h
      split at h
      · split at h
        · rename_i hletters
          cases h
          rw [Bool.and_eq_true, Bool.not_eq_true', List.isEmpty_eq_false_iff] at hletters
          refine ⟨_, hletters.1, fun c hc => ⟨List.mem_takeWhile_imp hc, ?_⟩, rfl⟩
          exact hname c (List.mem_cons_of_mem _ ((List.takeWhile_prefix _).subset hc))
        · cases h
      · cases h
    · cases h

/-- A mark is found again in front of the keyword it was found with. -/
theorem vendorMark?_append (hv : IsVendorMark v)
    (hplain : ∀ s, Chars.isFolded plain ('-' :: s) = false) (bare : List Char) :
    vendorMark? plain (v.toList ++ bare) =
      if Chars.isFolded plain bare then some (some v) else none := by
  obtain ⟨letters, hne, hletters, rfl⟩ := hv
  have hhyphen : ¬ isFoldedLetter '-' = true := by decide
  have htake : (letters ++ '-' :: bare).takeWhile isFoldedLetter = letters := by
    rw [List.takeWhile_append_of_pos fun c hc => (hletters c hc).1,
      List.takeWhile_cons_of_neg hhyphen, List.append_nil]
  have htext : (String.ofList ('-' :: letters ++ ['-'])).toList ++ bare =
      '-' :: (letters ++ '-' :: bare) := by
    rw [String.toList_ofList]
    simp
  rw [htext]
  unfold vendorMark?
  rw [hplain, if_neg Bool.false_ne_true]
  simp [htake, hne]

/-! ## Keywords -/

/-- The keyword as it is printed. -/
def word : AtKeyword → String
  | statement s => s.keyword
  | keyframes vendor => vendor.getD "" ++ "keyframes"
  | document vendor => vendor.getD "" ++ "document"
  | media => "media"
  | supports => "supports"
  | page => "page"
  | other name => name

/-- Marked keywords are printed with a mark that is found again. -/
def IsMarked : AtKeyword → Prop
  | keyframes vendor | document vendor => ∀ v ∈ vendor, IsVendorMark v
  | _ => True

theorem isMarked_ofName (name : String) : (ofName name).IsMarked := by
  have hlower : ∀ c ∈ (Text.lower name).toList, c.toLower = c := by
    intro c hc
    rw [Text.lower, String.toList_ofList] at hc
    obtain ⟨d, -, rfl⟩ := List.mem_map.mp hc
    exact toLower_toLower d
  unfold ofName
  dsimp only
  split
  · rename_i hmark
    rintro v rfl
    exact isVendorMark_of_vendorMark? hlower hmark
  · split
    · rename_i hmark
      rintro v rfl
      exact isVendorMark_of_vendorMark? hlower hmark
    · split <;> trivial

theorem toList_lower_append (hv : IsVendorMark v) {bare : String}
    (hbare : bare.toList.map Char.toLower = bare.toList) :
    (Text.lower (v ++ bare)).toList = v.toList ++ bare.toList := by
  obtain ⟨letters, -, hletters, rfl⟩ := hv
  have hmap : letters.map Char.toLower = letters :=
    (List.map_congr_left fun c hc => (hletters c hc).2).trans letters.map_id
  rw [Text.lower, String.toList_ofList, String.toList_append, List.map_append, hbare,
    String.toList_ofList, List.map_append, List.map_cons, hmap]
  rfl

theorem ofName_append_keyframes (hv : IsVendorMark v) :
    ofName (v ++ "keyframes") = .keyframes (some v) := by
  have hmark := vendorMark?_append hv isFolded_keyframes_hyphen "keyframes".toList
  rw [← toList_lower_append hv (by decide)] at hmark
  unfold ofName
  dsimp only
  rw [hmark]
  rfl

theorem ofName_append_document (hv : IsVendorMark v) :
    ofName (v ++ "document") = .document (some v) := by
  have hother := vendorMark?_append hv isFolded_keyframes_hyphen "document".toList
  have hmark := vendorMark?_append hv isFolded_document_hyphen "document".toList
  rw [← toList_lower_append hv (by decide)] at hmark hother
  unfold ofName
  dsimp only
  rw [hother, hmark]
  rfl

theorem ofName_word_of_isMarked {k : AtKeyword} (hmarked : k.IsMarked)
    (hother : ∀ name, k = .other name → ofName name = k) : ofName k.word = k := by
  cases k with
  | statement s => cases s <;> decide
  | keyframes vendor =>
    cases vendor with
    | none => decide
    | some v => exact ofName_append_keyframes (hmarked v rfl)
  | document vendor =>
    cases vendor with
    | none => decide
    | some v => exact ofName_append_document (hmarked v rfl)
  | other name => exact hother name rfl
  | _ => decide

theorem eq_of_ofName_eq_other {name name' : String} (h : ofName name = .other name') :
    name' = name := by
  unfold ofName at h
  dsimp only at h
  split at h
  · cases h
  · split at h
    · cases h
    · split at h <;> cases h
      rfl

/-- The printed keyword announces what the keyword announced that was read. -/
theorem ofName_word (name : String) : ofName (ofName name).word = ofName name := by
  refine ofName_word_of_isMarked (isMarked_ofName name) fun name' h => ?_
  rw [eq_of_ofName_eq_other h]

theorem isName_word_of_isMarked {k : AtKeyword} (hmarked : k.IsMarked)
    (hother : ∀ name, k = .other name → IsName name.toList) : IsName k.word.toList := by
  have hmark : ∀ {v : String} {bare : String}, IsVendorMark v → IsName bare.toList →
      IsName (v ++ bare).toList := by
    intro v bare hv hbare
    rw [String.toList_append]
    refine ⟨List.append_ne_nil_of_right_ne_nil _ hbare.1, fun c hc => ?_⟩
    rcases List.mem_append.mp hc with hc | hc
    · exact hv.isNameChar c hc
    · exact hbare.2 c hc
  have hplain : ∀ bare ∈ ["keyframes", "document", "media", "supports", "page", "import",
      "charset", "namespace"], IsName bare.toList := by
    simp only [IsName, ← List.all_eq_true]
    decide +kernel
  cases k with
  | statement s => cases s <;> exact hplain _ (by simp [word, Statement.keyword])
  | keyframes vendor =>
    cases vendor with
    | none => exact hplain "keyframes" (by simp)
    | some v => exact hmark (hmarked v rfl) (hplain "keyframes" (by simp))
  | document vendor =>
    cases vendor with
    | none => exact hplain "document" (by simp)
    | some v => exact hmark (hmarked v rfl) (hplain "document" (by simp))
  | other name => exact hother name rfl
  | _ => exact hplain _ (by simp [word])

/-- The printed keyword is a name. -/
theorem isName_word {name : String} (h : IsName name.toList) :
    IsName (ofName name).word.toList := by
  refine isName_word_of_isMarked (isMarked_ofName name) fun name' hname => ?_
  rw [eq_of_ofName_eq_other hname]
  exact h

end AtKeyword
end VendorPrefixing
