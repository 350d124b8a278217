import VendorPrefixing.Proofs.Browser.Vendor
import VendorPrefixing.Proofs.Decimal.Shortest
import VendorPrefixing.Proofs.Spelling.Gradient
import VendorPrefixing.Proofs.Text.Join
import VendorPrefixing.Proofs.Text.WhiteSpace
import VendorPrefixing.Spelling.Basic

/-!
# Texts without marks

A text lacks a vendor mark when the mark stands nowhere in it, and is bare when it
lacks all four marks.  What a spelling makes of a value, apart from the marked names,
lacks the marks that the value lacks.

Main results:

- Theorem `lacks_of_isInfix`: a part of a text lacks what the text lacks.
- Theorem `Flexbox.exists_front_of_mem_forms`: what is written for flexible boxes is made of
  words of their specification or of a part of the value, with the sign of importance behind.
- Theorem `Spelling.lacks_of_mem_forms`: the forms of a value lack the marks that the
  value lacks.
- Theorem `Spelling.isBare_of_mem_forms`: the forms of a bare value have bare values.
- Theorem `Gradient.isDirection_of_turns`: the old directions of gradients are bare.
-/

namespace VendorPrefixing

/-- Whether a mark stands nowhere in a text. -/
def Lacks (mark s : String) : Prop :=
  Text.contains s mark = false

variable {mark s t : String}

theorem lacks_iff : Lacks mark s ↔ ¬ mark.toList <:+: s.toList := by
  rw [Lacks, ← Bool.not_eq_true, Text.contains_iff]

/-- Whether no vendor mark stands in a text. -/
def IsBare (s : String) : Prop :=
  ∀ mark ∈ Browser.marks, Text.contains s mark = false

instance (s : String) : Decidable (IsBare s) :=
  inferInstanceAs (Decidable (∀ mark ∈ Browser.marks, Text.contains s mark = false))

theorem isBare_iff {s : String} :
    IsBare s ↔ ∀ mark ∈ Browser.marks, ¬ mark.toList <:+: s.toList :=
  forall₂_congr fun _ _ => lacks_iff

/-- A part of a text lacks what the text lacks. -/
theorem lacks_of_isInfix (hs : Lacks mark s) (h : t.toList <:+: s.toList) : Lacks mark t :=
  lacks_iff.mpr fun hpart => lacks_iff.mp hs (hpart.trans h)

theorem hyphen_mem_of_mem_marks : ∀ mark ∈ Browser.marks, '-' ∈ mark.toList := by
  decide

/-- A text without hyphens is bare. -/
theorem isBare_of_hyphen_not_mem {s : String} (h : '-' ∉ s.toList) : IsBare s :=
  isBare_iff.mpr fun mark hmark hpart => h (hpart.subset (hyphen_mem_of_mem_marks mark hmark))

/-- A text without `c` that stands in another one stands on one of the sides of every `c`. -/
theorem infix_or_of_not_mem {p a b : List Char} {c : Char} (hc : c ∉ p)
    (h : p <:+: a ++ c :: b) : p <:+: a ∨ p <:+: b := by
  rcases List.infix_append_iff_ne_nil.mp h with h | h | ⟨front, back, _, hback, rfl, _, hlead⟩
  · exact .inl h
  · rcases List.infix_cons_iff.mp h with hlead | h
    · rcases List.prefix_cons_iff.mp hlead with rfl | ⟨rest, rfl, -⟩
      · exact .inl List.nil_infix
      · exact absurd List.mem_cons_self hc
    · exact .inr h
  · rcases List.prefix_cons_iff.mp hlead with rfl | ⟨rest, rfl, -⟩
    · exact absurd rfl hback
    · exact absurd (List.mem_append_right front List.mem_cons_self) hc

/-- Marks hold no white space and no punctuation but hyphens. -/
theorem not_mem_of_mem_marks : ∀ mark ∈ Browser.marks, ∀ c ∈ [' ', '"', '\''], c ∉ mark.toList := by
  decide

/-- Texts on both sides of a character that a text does not hold lack it when both of them
do. -/
theorem lacks_append {a b : String} {c : Char} (hc : c ∉ mark.toList) (ha : Lacks mark a)
    (hb : Lacks mark b) : Lacks mark (a ++ String.singleton c ++ b) := by
  refine lacks_iff.mpr fun hpart => ?_
  rw [String.toList_append, String.toList_append, String.toList_singleton, List.append_assoc,
    List.singleton_append] at hpart
  rcases infix_or_of_not_mem hc hpart with h | h
  · exact lacks_iff.mp ha h
  · exact lacks_iff.mp hb h

/-- The marks hold letters. -/
theorem exists_letter_of_mem_marks : ∀ mark ∈ Browser.marks, ∃ c ∈ ['w', 'm', 'o'],
    c ∈ mark.toList := by
  decide

theorem isDigit_eq_false_of_letter : ∀ c ∈ ['w', 'm', 'o'], c.isDigit = false := by
  decide

/-- A text without these letters is bare. -/
theorem isBare_of_letters_not_mem {s : String} (h : ∀ c ∈ ['w', 'm', 'o'], c ∉ s.toList) :
    IsBare s := by
  refine isBare_iff.mpr fun mark hmark hpart => ?_
  obtain ⟨c, hc, hmem⟩ := exists_letter_of_mem_marks mark hmark
  exact h c hc (hpart.subset hmem)

theorem Text.trim_isInfix (s : String) : (Text.trim s).toList <:+: s.toList := by
  rw [Text.trim, String.toList_ofList]
  exact Chars.trim_isInfix s.toList

theorem Text.infix_of_mem_words {word : String} (h : word ∈ Text.words s) :
    word.toList <:+: s.toList := by
  obtain ⟨w, hw, rfl⟩ := List.mem_map.mp h
  rw [String.toList_ofList]
  exact Chars.infix_of_mem_wordsFrom hw

/-! ## Values of flexible boxes -/

/-- What older specifications write in their own words: a text without marks and without the
sign of importance. -/
structure IsOwn (s : String) : Prop where
  isBare : IsBare s
  sign_not_mem : '!' ∉ s.toList

namespace Flexbox

variable {value : String} {form : String × String}

/-- The keywords that older specifications have. -/
theorem isOwn_keyword : ∀ s ∈ ["start", "end", "justify", "distribute", "horizontal", "vertical",
    "normal", "reverse", "0", "1"], IsOwn s := by
  intro s hs
  refine ⟨isBare_of_hyphen_not_mem ?_, ?_⟩ <;> revert s <;> decide

theorem isOwn_direction2009 {direction : String} (h : form ∈ direction2009 direction) :
    IsOwn form.2 := by
  unfold direction2009 at h
  split at h
  case h_5 => exact absurd h List.not_mem_nil
  all_goals
    rw [List.mem_cons, List.mem_singleton] at h
    rcases h with rfl | rfl <;> exact isOwn_keyword _ (by decide)

theorem isOwn_group? {group : String} (h : group? value = some group) : IsOwn group := by
  unfold group? at h
  split at h
  · split at h
    · cases h
      constructor
      · refine isBare_of_letters_not_mem fun c hc hmem => ?_
        rcases Decimal.mem_toString_int hmem with hdigit | rfl
        · rw [isDigit_eq_false_of_letter c hc] at hdigit
          cases hdigit
        · revert hc
          decide
      · intro hmem
        rcases Decimal.mem_toString_int hmem with hdigit | hminus
        · exact absurd hdigit (by decide)
        · exact absurd hminus (by decide)
    · cases h
  · cases h

theorem alignment_cases (value : String) :
    IsOwn (alignment value) ∨ (alignment value).toList <:+: value.toList := by
  rw [alignment]
  split
  · exact .inl (isOwn_keyword _ (by decide))
  · exact .inl (isOwn_keyword _ (by decide))
  · exact .inr (Text.trim_isInfix value)

theorem distribution_cases (value : String) :
    IsOwn (distribution value) ∨ (distribution value).toList <:+: value.toList := by
  rw [distribution]
  split
  · exact .inl (isOwn_keyword _ (by decide))
  · exact .inl (isOwn_keyword _ (by decide))
  · exact .inl (isOwn_keyword _ (by decide))
  · exact .inl (isOwn_keyword _ (by decide))
  · exact .inr (Text.trim_isInfix value)

theorem growth?_cases {share : String} (h : growth? value = some share) :
    IsOwn share ∨ share.toList <:+: value.toList := by
  rw [growth?] at h
  split at h
  · cases h
    exact .inl (isOwn_keyword _ (by decide))
  · cases h
    exact .inl (isOwn_keyword _ (by decide))
  · cases h
    exact .inl (isOwn_keyword _ (by decide))
  · rename_i word _ _ _ hword
    split at h
    · cases h
      exact .inr (Text.infix_of_mem_words (List.mem_of_head? hword))
    · cases h
  · cases h

theorem forms2009_cases {p : FlexProperty} (h : form ∈ forms2009 p value) :
    IsOwn form.2 ∨ form.2.toList <:+: value.toList := by
  cases p with
  | direction => exact .inl (isOwn_direction2009 h)
  | flow =>
    rw [forms2009] at h
    split at h
    · exact .inl (isOwn_direction2009 h)
    · exact absurd h List.not_mem_nil
  | grow =>
    obtain rfl := List.mem_singleton.mp h
    exact .inr (List.infix_refl _)
  | flex =>
    obtain ⟨share, hshare, rfl⟩ := List.mem_map.mp h
    dsimp only
    exact growth?_cases (Option.mem_toList.mp hshare)
  | order =>
    obtain ⟨group, hgroup, rfl⟩ := List.mem_map.mp h
    dsimp only
    exact .inl (isOwn_group? (Option.mem_toList.mp hgroup))
  | alignItems =>
    obtain rfl := List.mem_singleton.mp h
    dsimp only
    exact alignment_cases value
  | justifyContent =>
    rw [forms2009] at h
    split at h
    · exact absurd h List.not_mem_nil
    · obtain rfl := List.mem_singleton.mp h
      dsimp only
      exact distribution_cases value
  | wrap => exact absurd h List.not_mem_nil
  | shrink => exact absurd h List.not_mem_nil
  | basis => exact absurd h List.not_mem_nil
  | alignSelf => exact absurd h List.not_mem_nil
  | alignContent => exact absurd h List.not_mem_nil

/-- In one specification a value is written in its own words or taken from the value. -/
theorem formsOf_cases {era : FlexEra} {p : FlexProperty} (h : form ∈ formsOf era p value) :
    IsOwn form.2 ∨ form.2.toList <:+: value.toList := by
  cases era with
  | of2009 => exact forms2009_cases h
  | of2012 =>
    obtain rfl := List.mem_singleton.mp h
    dsimp only
    unfold value2012
    split
    · exact alignment_cases value
    · exact alignment_cases value
    · exact distribution_cases value
    · exact distribution_cases value
    · exact .inr (List.infix_refl _)
  | final =>
    obtain rfl := List.mem_singleton.mp h
    exact .inr (List.infix_refl _)

theorem splitImportant_isInfix (value : String) :
    (splitImportant value).1.toList <:+: value.toList := by
  rw [splitImportant]
  split
  · rw [Text.trimEnd, String.toList_ofList, String.toList_ofList]
    exact ((Chars.trimEnd_isPrefix _).trans (List.take_prefix _ _)).isInfix
  · exact List.infix_refl _

/-- The value of a form, in front of what marks it as important. -/
theorem exists_front_of_mem_forms {p : FlexProperty} {vendor : String}
    (h : form ∈ forms p vendor value) : ∃ front, form.2 = front ++ (splitImportant value).2 ∧
      (IsOwn front ∨ front.toList <:+: value.toList) := by
  obtain ⟨era, _, h⟩ := List.mem_flatMap.mp h
  obtain ⟨bare, hbare, rfl⟩ := List.mem_map.mp h
  refine ⟨bare.2, rfl, (formsOf_cases hbare).imp_right fun hpart => ?_⟩
  exact hpart.trans (splitImportant_isInfix value)

/-- What marks a value as important is bare. -/
theorem isBare_important : IsBare "!important" :=
  isBare_of_hyphen_not_mem (by decide)

theorem lacks_append_important (hmark : mark ∈ Browser.marks) (hs : Lacks mark s)
    (value : String) : Lacks mark (s ++ (splitImportant value).2) := by
  rw [splitImportant]
  split
  · have himportant : " !important" = String.singleton ' ' ++ "!important" := by decide
    dsimp only
    rw [himportant, ← String.append_assoc]
    exact lacks_append (not_mem_of_mem_marks mark hmark ' ' (by decide)) hs
      (isBare_important mark hmark)
  · dsimp only
    rwa [String.append_empty]

/-- The forms of a value lack the marks that the value lacks. -/
theorem lacks_of_mem_forms {p : FlexProperty} {vendor : String} (hmark : mark ∈ Browser.marks)
    (hvalue : Lacks mark value) (h : form ∈ forms p vendor value) : Lacks mark form.2 := by
  obtain ⟨front, hform, hfront⟩ := exists_front_of_mem_forms h
  rw [hform]
  refine lacks_append_important hmark ?_ value
  rcases hfront with hown | hpart
  · exact hown.isBare mark hmark
  · exact lacks_of_isInfix hvalue hpart

end Flexbox

/-! ## Values of filters -/

/-- A text in which one character is put for another holds what has neither. -/
theorem infix_of_infix_map {p s : List Char} {c d : Char} (hd : d ∉ p)
    (h : p <:+: s.map fun x => if x = c then d else x) : p <:+: s := by
  obtain ⟨front, back, heq⟩ := h
  obtain ⟨l, r, rfl, hl, -⟩ := List.map_eq_append_iff.mp heq.symm
  obtain ⟨a, b, rfl, -, hb⟩ := List.map_eq_append_iff.mp hl
  have hself : ∀ x ∈ b, (if x = c then d else x) = x := by
    intro x hx
    split
    · rename_i hxc
      refine absurd ?_ hd
      rw [← hb]
      exact List.mem_map.mpr ⟨x, hx, if_pos hxc⟩
    · rfl
  have hbp : b = p := by
    rw [← hb]
    exact ((List.map_congr_left hself).trans (List.map_id' b)).symm
  exact ⟨a, r, by rw [hbp]⟩

theorem LegacyFilter.lacks_quoted {value : String} (hne : mark ≠ "")
    (hquotes : ∀ c ∈ ['"', '\''], c ∉ mark.toList) (h : Lacks mark value) :
    Lacks mark (quoted value) := by
  rw [quoted]
  split
  · exact h
  · have hempty : Lacks mark "" := lacks_iff.mpr fun hpart =>
      hne (String.toList_eq_nil_iff.mp (List.infix_nil.mp hpart))
    have hdouble := hquotes '"' List.mem_cons_self
    have hsingle := hquotes '\'' (List.mem_cons_of_mem _ List.mem_cons_self)
    have hquote : ("\"" : String) = String.singleton '"' := by decide
    have hinner : Lacks mark (.ofList (value.toList.map fun c => if c = '"' then '\'' else c)) := by
      refine lacks_iff.mpr fun hpart => lacks_iff.mp h ?_
      rw [String.toList_ofList] at hpart
      exact infix_of_infix_map hsingle hpart
    have hopen := lacks_append hdouble hempty hinner
    have hclosed := lacks_append hdouble hopen hempty
    rw [hquote]
    rwa [String.append_empty, String.empty_append] at hclosed

/-- The forms of a value lack what the value lacks and holds no quotes. -/
theorem LegacyFilter.lacks_of_mem_forms {vendor value : String} {form : String × String}
    (hne : mark ≠ "") (hquotes : ∀ c ∈ ['"', '\''], c ∉ mark.toList) (hvalue : Lacks mark value)
    (h : form ∈ forms vendor value) : Lacks mark form.2 := by
  rw [forms] at h
  split at h
  · split at h
    · obtain rfl := List.mem_singleton.mp h
      dsimp only
      exact lacks_quoted hne hquotes (lacks_of_isInfix hvalue (Text.trim_isInfix value))
    · exact absurd h List.not_mem_nil
  · split at h
    · exact absurd h List.not_mem_nil
    · obtain rfl := List.mem_singleton.mp h
      exact hvalue

/-! ## Values of all spellings -/

namespace Spelling

variable {spelling : Spelling} {vendor property value : String} {form : String × String}

/-- A form has the value itself, unless flexible boxes or filters are spelled. -/
theorem forms_cases (h : form ∈ spelling.forms vendor property value) :
    form.2 = value ∨ (∃ p, spelling = .flex p ∧ form ∈ Flexbox.forms p vendor value) ∨
      spelling = .filter ∧ form ∈ LegacyFilter.forms vendor value := by
  cases spelling with
  | plain => exact .inl (congrArg Prod.snd (List.mem_singleton.mp h))
  | cornerRadius => exact .inl (congrArg Prod.snd (List.mem_singleton.mp h))
  | display => exact absurd h List.not_mem_nil
  | gradient => exact absurd h List.not_mem_nil
  | flex p => exact .inr (.inl ⟨p, rfl, h⟩)
  | filter => exact .inr (.inr ⟨rfl, h⟩)

/-- The forms of a value lack the marks that the value lacks. -/
theorem lacks_of_mem_forms (hmark : mark ∈ Browser.marks) (hvalue : Lacks mark value)
    (h : form ∈ spelling.forms vendor property value) : Lacks mark form.2 := by
  rcases forms_cases h with hkept | ⟨p, -, h⟩ | ⟨-, h⟩
  · rwa [hkept]
  · exact Flexbox.lacks_of_mem_forms hmark hvalue h
  · refine LegacyFilter.lacks_of_mem_forms (fun hempty => ?_) (fun c hc => ?_) hvalue h
    · exact absurd (hempty ▸ hmark) (by decide)
    · exact not_mem_of_mem_marks mark hmark c (List.mem_cons_of_mem ' ' hc)

/-- The forms of a bare value have bare values. -/
theorem isBare_of_mem_forms (hvalue : IsBare value)
    (h : form ∈ spelling.forms vendor property value) : IsBare form.2 :=
  fun mark hmark => lacks_of_mem_forms hmark (hvalue mark hmark) h

end Spelling

/-! ## Directions of gradients -/

namespace Gradient

/-- The sides of a box. -/
def sides : List String :=
  ["top", "bottom", "left", "right"]

/-- How some sides are written. -/
structure IsDirection (direction : List Char) : Prop where
  isBare : IsBare (.ofList direction)
  getLast? : ∃ c, direction.getLast? = some c ∧ Word.isSeparator c = false

theorem getLast?_of_mem_sides : ∀ side ∈ sides,
    ∃ c ∈ ['p', 'm', 't'], side.toList.getLast? = some c := by
  decide

theorem getLast?_join_sides {found : List String} (hne : found ≠ []) (h : found ⊆ sides) :
    ∃ c ∈ ['p', 'm', 't'], (Text.join " " found).toList.getLast? = some c := by
  induction found with
  | nil => exact absurd rfl hne
  | cons side rest ih =>
    cases rest with
    | nil => exact getLast?_of_mem_sides side (h List.mem_cons_self)
    | cons next rest =>
      obtain ⟨c, hc, hlast⟩ := ih (List.cons_ne_nil next rest)
        fun x hx => h (List.mem_cons_of_mem side hx)
      refine ⟨c, hc, ?_⟩
      rw [Text.join, String.toList_append, List.getLast?_append, hlast]
      · rfl
      · exact List.cons_ne_nil next rest

theorem not_mem_join_sides {c : Char} (hblank : c ≠ ' ') (hsides : ∀ side ∈ sides, c ∉ side.toList)
    {found : List String} (h : found ⊆ sides) : c ∉ (Text.join " " found).toList := by
  intro hmem
  rcases Text.mem_join hmem with hspace | ⟨side, hside, hc⟩
  · exact hblank (List.mem_singleton.mp hspace)
  · exact hsides side (h hside) hc

theorem subset_sides_of_forall₂ {old found : List String}
    (h : List.Forall₂ (fun a b => (a, b) ∈ oppositeSides) old found) :
    old ⊆ sides ∧ found ⊆ sides := by
  have hsides : ∀ pair ∈ oppositeSides, pair.1 ∈ sides ∧ pair.2 ∈ sides := by decide
  induction h with
  | nil => exact ⟨List.nil_subset _, List.nil_subset _⟩
  | cons hpair _ ih =>
    obtain ⟨hside, hother⟩ := hsides _ hpair
    exact ⟨List.cons_subset.mpr ⟨hside, ih.1⟩, List.cons_subset.mpr ⟨hother, ih.2⟩⟩

/-- What a side turns into is at least one side. -/
theorem exists_sides_of_fromSide? {direction new : List Char} (h : fromSide? direction = some new) :
    ∃ found, found ≠ [] ∧ found ⊆ sides ∧ new = (Text.join " " found).toList := by
  obtain ⟨old, found, hne, hopposite, -, hnew⟩ := fromSide?_eq_some_iff.mp h
  refine ⟨found, ?_, (subset_sides_of_forall₂ hopposite).2, hnew⟩
  rintro rfl
  exact hne (List.forall₂_nil_right_iff.mp hopposite)

/-- Turned sides are a direction. -/
theorem isDirection_of_fromSide? {direction new : List Char} (h : fromSide? direction = some new) :
    IsDirection new := by
  obtain ⟨found, hne, hsides, rfl⟩ := exists_sides_of_fromSide? h
  obtain ⟨c, hc, hlast⟩ := getLast?_join_sides hne hsides
  refine ⟨isBare_of_hyphen_not_mem ?_, c, hlast, ?_⟩
  · rw [String.toList_ofList]
    exact not_mem_join_sides (by decide) (by decide) hsides
  · have hletters : ∀ c ∈ ['p', 'm', 't'], Word.isSeparator c = false := by decide
    exact hletters c hc

/-- The characters of turned angles. -/
theorem mem_of_oldAngle? {direction new : List Char} {c : Char} (h : oldAngle? direction = some new)
    (hc : c ∈ new) :
    c.isDigit = true ∨ c ∈ ['-', '.', 'i', 'n', 'f', 'N', 'a', 'd', 'e', 'g'] := by
  rw [oldAngle?] at h
  split at h
  · split at h
    · split at h
      · obtain rfl := Option.some.inj h
        rw [List.mem_append] at hc
        rcases hc with hc | hc
        · split at hc
          · obtain rfl := List.mem_singleton.mp hc
            exact .inl rfl
          · exact (Decimal.mem_render hc).imp_right fun h => List.mem_append_left ['d', 'e', 'g'] h
        · exact .inr (List.mem_append_right ['-', '.', 'i', 'n', 'f', 'N', 'a'] hc)
      · cases h
    · cases h
  · cases h

theorem getLast?_of_oldAngle? {direction new : List Char} (h : oldAngle? direction = some new) :
    new.getLast? = some 'g' := by
  rw [oldAngle?] at h
  split at h
  · split at h
    · split at h
      · obtain rfl := Option.some.inj h
        rw [List.getLast?_append]
        rfl
      · cases h
    · cases h
  · cases h

/-- A turned angle is a direction. -/
theorem isDirection_of_oldAngle? {direction new : List Char} (h : oldAngle? direction = some new) :
    IsDirection new := by
  refine ⟨isBare_of_letters_not_mem fun c hc hmem => ?_, 'g', getLast?_of_oldAngle? h, by decide⟩
  rw [String.toList_ofList] at hmem
  rcases mem_of_oldAngle? h hmem with hdigit | hword
  · rw [isDigit_eq_false_of_letter c hc] at hdigit
    cases hdigit
  · have hnone : ∀ c ∈ ['w', 'm', 'o'], c ∉ ['-', '.', 'i', 'n', 'f', 'N', 'a', 'd', 'e', 'g'] := by
      decide
    exact hnone c hc hword

/-- The old directions of gradients are bare. -/
theorem isDirection_of_turns {vendor : String} {old new : List Char} (h : Turns vendor old new) :
    IsDirection new := by
  rcases h with h | ⟨_, h⟩
  · exact isDirection_of_fromSide? h
  · exact isDirection_of_oldAngle? h

end Gradient

end VendorPrefixing
