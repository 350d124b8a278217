import VendorPrefixing.Proofs.Value.Exchange
import VendorPrefixing.Proofs.Value.Range
import VendorPrefixing.Spelling.Flexbox

/-!
# Marked values

A mark is put in front of every name that stands alone in a value.  Afterwards none of the names
stands alone any more, neither where one stood before nor across the seam between a mark and the
text around it, and nothing but the marks has come into the value.

Main results:

- Theorem `Matcher.holdsNone_replace`: a value holds none of the names any more when each one was
  replaced by another word.
- Theorems `Exchanged.utf8Size_eq` and `Exchanged.applyEdits_markStretches`: marks make a value
  longer by their size, and without them it is what it was.
- Theorem `Matcher.mark_exact`: both, for any marks and names, and for the keywords of `display`.
-/

namespace VendorPrefixing

open Word (isSeparator endsHere StandsAt StartsAt)

/-! ## Marks -/

/-- Whether the character is alphabetic in some script. -/
def isAlphabetic (c : Char) : Bool :=
  if c.toNat < 0x80 then c.isAlpha else Text.inRanges Text.alphabeticRanges c.toNat

/-- Whether a text is made of letters between two hyphens, as vendor marks are. -/
def IsHyphenated (s : String) : Prop :=
  ∃ letters, s.toList = '-' :: letters ++ ['-'] ∧ ∀ c ∈ letters, isAlphabetic c = true

/-- Letters belong to names and to words. -/
theorem isNameChar_of_isAlphabetic {c : Char} (h : isAlphabetic c = true) :
    isNameChar c = true ∧ isSeparator c = false := by
  rw [isAlphabetic] at h
  split at h
  · have halphanum : c.isAlphanum = true := by rw [Char.isAlphanum, h, Bool.true_or]
    refine ⟨isNameChar_iff.mpr (.inl (isAlphanumeric_of_isAlphanum halphanum)), ?_⟩
    simp [isSeparator, isWordChar_of_isAlphanum halphanum]
  · rename_i hascii
    refine ⟨isNameChar_iff.mpr (.inl ?_), ?_⟩
    · simp [isAlphanumeric, hascii, h]
    · simp [isSeparator, isWordChar, hascii, h]

/-- A mark in front of a word makes a longer word. -/
theorem IsHyphenated.isWord_append {mark name : String} (hmark : IsHyphenated mark)
    (hname : IsWord name) : IsWord (mark ++ name) := by
  obtain ⟨letters, hletters, halphabetic⟩ := hmark
  constructor
  · intro hempty
    have hchars := congrArg String.toList hempty
    rw [String.toList_append, hletters] at hchars
    cases hchars
  · intro c hc
    rw [String.toList_append, List.mem_append, hletters, List.cons_append, List.mem_cons,
      List.mem_append, List.mem_singleton] at hc
    rcases hc with (rfl | hc | rfl) | hc
    · decide
    · exact isNameChar_of_isAlphabetic (halphabetic c hc)
    · decide
    · exact hname.2 c hc

/-- A marked name starts with a hyphen. -/
theorem IsHyphenated.head? {mark : String} (hmark : IsHyphenated mark) (name : String) :
    (mark ++ name).toList.head? = some '-' := by
  obtain ⟨letters, hletters, -⟩ := hmark
  rw [String.toList_append, hletters]
  rfl

/-! ## Replacing names -/

/-- Whether a value holds none of some names: the search for them finds nothing, and none of
them is a whole word of the value. -/
structure HoldsNone (names : List String) (value : String) : Prop where
  occurrences_eq_nil : (Matcher.ofNames names).occurrences value = []
  not_isWhole : ∀ r : WordRange, r.text ∈ names → ¬ r.IsWhole value

/-- Whether none of some names ends a word that begins where a text begins. -/
def LeadsNone (names : List String) (s : List Char) : Prop :=
  ∀ name ∈ names, ∀ back, s = name.toList ++ back → endsHere back = false

namespace Matcher

variable {names : List String} {replacement : String → String} {value : String}

theorem areWord_of_mem_occurrences (hne : names ≠ []) (hwords : ∀ name ∈ names, IsWord name)
    {o : Occurrence} (ho : o ∈ (ofNames names).occurrences value) : AreWord o.name := by
  obtain ⟨⟨name, hname, heq⟩, -⟩ := standsAt_of_mem_occurrences (searched_ne_nil hne) ho
  rw [heq]
  exact (hwords name (mem_names.mp hname)).areWord

/-- Replacing names exchanges their occurrences. -/
theorem exchanged_replace (hne : names ≠ []) (hwords : ∀ name ∈ names, IsWord name)
    (replacement : String → String) (value : String) :
    Exchanged Occurrence.start Occurrence.name (fun o => (replacement (.ofList o.name)).toList) 0
      ((ofNames names).occurrences value) value.toList
      ((ofNames names).replace replacement value).toList := by
  have hpairwise : ((ofNames names).occurrences value).Pairwise fun o p => o.stop < p.start :=
    Word.pairwise_occurrences
  rw [replace, String.toList_ofList]
  exact @exchanged_applyEdits _ Occurrence.start Occurrence.name _ _ value.toList 0
    (fun o ho => (areWord_of_mem_occurrences hne hwords ho).ne_nil)
    (fun o ho => (standsAt_of_mem_occurrences (searched_ne_nil hne) ho).2.isPrefix)
    (hpairwise.imp Nat.le_of_lt) (fun o _ => Nat.zero_le _)

/-- What the search does not find stands nowhere. -/
theorem leadsNone_of_forall_start_ne (hne : names ≠ []) (hwords : ∀ name ∈ names, IsWord name)
    {place : Nat} (hstart : StartsAt value.toList place)
    (hothers : ∀ o ∈ (ofNames names).occurrences value, o.start ≠ place) :
    LeadsNone names (value.toList.drop place) := by
  intro name hname back hback
  rw [← Bool.not_eq_true]
  intro hends
  have hstands : StandsAt value.toList name.toList place := by
    refine ⟨hstart, ⟨back, hback.symm⟩, ?_⟩
    rw [Word.drop_of_append hback]
    exact hends
  have hoccurs := Word.mem_occurrences_of_standsAt (searchable_names hwords)
    (List.mem_map_of_mem (mem_names.mpr hname)) hstands
  rw [← patterns_eq (searched_ne_nil hne)] at hoccurs
  exact hothers _ hoccurs rfl

/-- Replacing names leaves none of them. -/
theorem swept_replace (hne : names ≠ []) (hwords : ∀ name ∈ names, IsWord name)
    (replacement : String → String) (value : String) :
    Swept ((ofNames names).Replaces replacement) (LeadsNone names) true value.toList
      ((ofNames names).replace replacement value).toList
      (((ofNames names).occurrences value).flatMap
        fun o => [(replacement (.ofList o.name)).toList]) := by
  have hfound := fun o (ho : o ∈ (ofNames names).occurrences value) =>
    standsAt_of_mem_occurrences (searched_ne_nil hne) ho
  have hword := fun o (ho : o ∈ (ofNames names).occurrences value) =>
    areWord_of_mem_occurrences hne hwords ho
  have htext : value.toList.drop 0 = value.toList := rfl
  refine (exchanged_replace hne hwords replacement value).swept false htext
    (iff_of_true rfl (.inl rfl)) (fun o ho => (hword o ho).ne_nil)
    (fun o ho => (hfound o ho).2.starts) (fun o ho => ?_)
    (fun place _ hstart hothers => leadsNone_of_forall_start_ne hne hwords hstart hothers)
    (fun o ho rest t later hdrop hrest => ?_)
  · -- No name may start behind the last character of another one.
    exact freeAfter_eq_false (hword o ho).getLast? true
  · obtain ⟨⟨name, hname, heq⟩, hstands⟩ := hfound o ho
    have hends := hstands.ends
    rw [Word.drop_of_append hdrop] at hends
    exact .edit ⟨name, hname, heq, by rw [heq, String.ofList_toList]⟩ hends hrest

/-- A value holds none of the names any more when each one was replaced by another word. -/
theorem holdsNone_replace (hne : names ≠ []) (hwords : ∀ name ∈ names, IsWord name)
    (hnews : ∀ name ∈ names, IsWord (replacement name) ∧ replacement name ∉ names)
    (value : String) : HoldsNone names ((ofNames names).replace replacement value) := by
  have hwritten : ∀ new ∈ ((ofNames names).occurrences value).flatMap
      (fun o => [(replacement (.ofList o.name)).toList]),
      ∃ name ∈ names, new = (replacement name).toList := by
    intro new hnew
    obtain ⟨o, ho, hnew⟩ := List.mem_flatMap.mp hnew
    obtain ⟨⟨name, hname, heq⟩, -⟩ := standsAt_of_mem_occurrences (searched_ne_nil hne) ho
    refine ⟨name, mem_names.mp hname, ?_⟩
    rw [List.mem_singleton.mp hnew, heq, String.ofList_toList]
  have hnone : ∀ r, r ∉ (ofNames names).ranges ((ofNames names).replace replacement value) := by
    intro r hr
    obtain ⟨hname, hwhole⟩ := (mem_ranges_iff hne hwords).mp hr
    obtain ⟨place, hstands, -⟩ := WordRange.isWhole_iff.mp hwhole
    obtain ⟨before, after, htext, hfree, hends⟩ := exists_standsAt_iff.mp ⟨place, hstands⟩
    have hcases := (swept_replace hne hwords replacement value).stands_cases
      (hwords r.text hname).areWord
      (fun new hnew => by
        obtain ⟨name, hname, rfl⟩ := hwritten new hnew
        exact (hnews name hname).1.areWord.getLast?)
      htext hfree hends
    rcases hcases with ⟨front, back, -, later, -, -, -, hleads, hback⟩ | ⟨new, hnew, hinside⟩
    · have hfalse := hleads r.text hname back rfl
      rw [← hback.endsHere_eq, hends] at hfalse
      cases hfalse
    · obtain ⟨name, hother, rfl⟩ := hwritten new hnew
      have heq := String.toList_inj.mp (hinside.eq_of_areWord (hnews name hother).1.areWord)
      exact (hnews name hother).2 (heq ▸ hname)
  constructor
  · have hnil := List.eq_nil_iff_forall_not_mem.mpr hnone
    rwa [ranges, List.map_eq_nil_iff] at hnil
  · intro r hname hwhole
    exact hnone r ((mem_ranges_iff hne hwords).mpr ⟨hname, hwhole⟩)

end Matcher

/-! ## What marks add -/

/-- The stretches that marks of one size take where they are put in front of occurrences, from
left to right.  The text has moved by `shift` characters before the first of them. -/
def markStretches (size : Nat) : Nat → List Occurrence → List Edit
  | _, [] => []
  | shift, o :: os =>
    ⟨o.start + shift, o.start + shift + size, []⟩ :: markStretches size (shift + size) os

theorem mem_markStretches {size shift : Nat} {os : List Occurrence} {e : Edit}
    (h : e ∈ markStretches size shift os) :
    e.stop = e.start + size ∧ ∃ o ∈ os, o.start + shift ≤ e.start := by
  induction os generalizing shift with
  | nil => exact absurd h List.not_mem_nil
  | cons o os ih =>
    rcases List.mem_cons.mp h with rfl | h
    · exact ⟨rfl, o, List.mem_cons_self, Nat.le_refl _⟩
    · obtain ⟨hstop, p, hp, hle⟩ := ih h
      exact ⟨hstop, p, List.mem_cons_of_mem o hp, by omega⟩

/-- What stands in front of all edits stays as it is. -/
theorem applyEdits_append {passed : Nat} {front rest : List Char} {edits : List Edit}
    (h : ∀ e ∈ edits, passed + front.length ≤ e.start ∧ e.start ≤ e.stop) :
    applyEdits passed (front ++ rest) edits =
      front ++ applyEdits (passed + front.length) rest edits := by
  cases edits with
  | nil => rfl
  | cons e edits =>
    obtain ⟨hstart, hstop⟩ := h e List.mem_cons_self
    have htake : e.start - passed = front.length + (e.start - (passed + front.length)) := by omega
    have hdrop : e.stop - passed = front.length + (e.stop - (passed + front.length)) := by omega
    rw [applyEdits, applyEdits, if_neg (by omega), if_neg (by omega), htake, hdrop,
      List.take_length_add_append, List.drop_length_add_append, List.append_assoc,
      List.append_assoc, List.append_assoc]

namespace Exchanged

variable {mark s t : List Char} {position shift : Nat} {os : List Occurrence}

/-- Stretches that grow by one size each make a text longer by that size for each. -/
theorem utf8Size_eq {α : Type} {start : α → Nat} {old new : α → List Char} {xs : List α}
    {size : Nat} (hsize : ∀ x, Chars.utf8Size (new x) = size + Chars.utf8Size (old x))
    (h : Exchanged start old new position xs s t) :
    Chars.utf8Size t = Chars.utf8Size s + xs.length * size := by
  induction h with
  | rest s => simp
  | @next position x xs s t gap hstart hrest ih =>
    simp only [Chars.utf8Size_append, hsize, ih, List.length_cons, Nat.succ_mul]
    omega

/-- Without the marks that were put in front of names a text is what it was. -/
theorem applyEdits_markStretches
    (h : Exchanged Occurrence.start Occurrence.name (fun o => mark ++ o.name) position os s t) :
    applyEdits (position + shift) t (markStretches mark.length shift os) = s := by
  induction h generalizing shift with
  | rest s => rfl
  | @next position o os s t gap hstart hrest ih =>
    have htake : o.start + shift - (position + shift) = gap.length := by omega
    have hdrop : o.start + shift + mark.length - (position + shift) =
        gap.length + mark.length := by omega
    have hlater : ∀ e ∈ markStretches mark.length (shift + mark.length) os,
        o.start + shift + mark.length + o.name.length ≤ e.start ∧ e.start ≤ e.stop := by
      intro e he
      obtain ⟨hstop, p, hp, hle⟩ := mem_markStretches he
      have := hrest.le_start p hp
      omega
    have hposition : o.start + shift + mark.length + o.name.length =
        o.start + o.name.length + (shift + mark.length) := by omega
    have hahead : ¬ o.start + shift < position + shift := by omega
    rw [markStretches, applyEdits, if_neg hahead, htake, hdrop, List.take_left,
      List.drop_length_add_append, List.append_nil, List.append_assoc, List.drop_left,
      applyEdits_append hlater, hposition, ih]

/-- The stretches that marks take read as the mark. -/
theorem isPrefix_of_mem_markStretches {text : List Char}
    (h : Exchanged Occurrence.start Occurrence.name (fun o => mark ++ o.name) position os s t)
    (htext : text.drop (position + shift) = t) :
    ∀ e ∈ markStretches mark.length shift os,
      e.stop = e.start + mark.length ∧ mark <+: text.drop e.start := by
  induction h generalizing shift with
  | rest s => exact fun e he => absurd he List.not_mem_nil
  | @next position o os s t gap hstart hrest ih =>
    have hfront : text.drop (o.start + shift) = mark ++ (o.name ++ t) := by
      have hplace : o.start + shift = position + shift + gap.length := by omega
      rw [hplace, Word.drop_of_append htext, List.append_assoc]
    have hlater : text.drop (o.start + o.name.length + (shift + mark.length)) = t := by
      have hplace : o.start + o.name.length + (shift + mark.length) =
          o.start + shift + (mark.length + o.name.length) := by omega
      rw [hplace, ← List.drop_drop, hfront, ← List.drop_drop, List.drop_left, List.drop_left]
    exact List.forall_mem_cons.mpr ⟨⟨rfl, hfront ▸ List.prefix_append _ _⟩, ih hlater⟩

end Exchanged

/-! ## Marking -/

namespace Matcher

variable {names : List String} {vendor : String}

/-- What a value with a mark in front of every name has to do with the value itself. -/
structure IsMarking (names : List String) (vendor value marked : String) : Prop where
  holdsNone : HoldsNone names marked
  /-- Marking once is enough. -/
  mark_eq_self : (ofNames names).mark vendor marked = marked
  size_eq : marked.utf8ByteSize =
    value.utf8ByteSize + ((ofNames names).occurrences value).length * vendor.utf8ByteSize
  /-- The mark stands where it was put. -/
  reads : ∀ e ∈ markStretches vendor.toList.length 0 ((ofNames names).occurrences value),
    e.stop = e.start + vendor.toList.length ∧ vendor.toList <+: marked.toList.drop e.start
  /-- Without the marks the value is back. -/
  unmarked_eq : .ofList (applyEdits 0 marked.toList
    (markStretches vendor.toList.length 0 ((ofNames names).occurrences value))) = value

/-- Every keyword of flexible boxes under a mark is a word of its own. -/
theorem isWord_keyword : ∀ vendor ∈ ["-webkit-", "-moz-", "-ms-"],
    ∀ era ∈ FlexEra.ofVendor vendor, ∀ name ∈ ["flex", "inline-flex"],
      IsWord (Flexbox.keyword era vendor name) ∧
        Flexbox.keyword era vendor name ∉ ["flex", "inline-flex"] := by
  decide

/-- Marking puts marks in front of the names that stand alone and does nothing else, and none
of the names stands alone afterwards, whatever stands around them.  The keywords of `display`
that stand for flexible boxes leave none of the standard ones either. -/
theorem mark_exact (hne : names ≠ [])
    (hnames : ∀ name ∈ names, IsPlainName name ∧
      ∃ c, name.toList.head? = some c ∧ c.isAlpha = true)
    (hmark : IsHyphenated vendor) (value : String) :
    IsMarking names vendor value ((ofNames names).mark vendor value) ∧
      ∀ mark ∈ ["-webkit-", "-moz-", "-ms-"],
        ∀ result ∈ Flexbox.displays (ofNames ["flex", "inline-flex"]) mark value,
          HoldsNone ["flex", "inline-flex"] result := by
  have hwords : ∀ name ∈ names, IsWord name := fun name hname => (hnames name hname).1.isWord
  have hnews : ∀ name ∈ names, IsWord (vendor ++ name) ∧ vendor ++ name ∉ names := by
    refine fun name hname => ⟨hmark.isWord_append (hwords name hname), fun hmem => ?_⟩
    obtain ⟨-, c, hhead, hletter⟩ := hnames _ hmem
    rw [hmark.head?] at hhead
    cases hhead
    exact absurd hletter (by decide)
  have hnone : HoldsNone names ((ofNames names).mark vendor value) :=
    holdsNone_replace hne hwords hnews value
  have hexchanged : Exchanged Occurrence.start Occurrence.name
      (fun o => vendor.toList ++ o.name) 0 ((ofNames names).occurrences value) value.toList
      ((ofNames names).mark vendor value).toList := by
    have h := exchanged_replace hne hwords (vendor ++ ·) value
    simp only [String.toList_append, String.toList_ofList] at h
    exact h
  refine ⟨?_, fun mark hmark result hresult => ?_⟩
  · exact {
      holdsNone := hnone
      mark_eq_self := replace_of_occurrences_eq_nil hnone.occurrences_eq_nil
      size_eq := by
        have hsize := hexchanged.utf8Size_eq
          fun o : Occurrence => Chars.utf8Size_append vendor.toList o.name
        simp only [Chars.utf8Size_eq, String.ofList_toList] at hsize
        exact hsize
      reads := hexchanged.isPrefix_of_mem_markStretches rfl
      unmarked_eq := by
        have h := @Exchanged.applyEdits_markStretches _ _ _ 0 0 _ hexchanged
        rw [Nat.add_zero] at h
        rw [h, String.ofList_toList] }
  · obtain ⟨era, hera, rfl⟩ := List.mem_map.mp hresult
    exact holdsNone_replace (by decide) (by decide) (isWord_keyword mark hmark era hera) value

/-- Both keywords of flexible boxes are marked, and a longer keyword is left alone. -/
theorem mark_exact_displayKeywords :
    ["flex", "inline-flex"] ≠ [] ∧
      (∀ name ∈ ["flex", "inline-flex"], IsPlainName name ∧
        ∃ c, name.toList.head? = some c ∧ c.isAlpha = true) ∧
      IsHyphenated "-webkit-" ∧
      (ofNames ["flex", "inline-flex"]).mark "-webkit-" "flex,inline-flex flex-end" =
        "-webkit-flex,-webkit-inline-flex flex-end" ∧
      IsMarking ["flex", "inline-flex"] "-webkit-" "flex,inline-flex flex-end"
        "-webkit-flex,-webkit-inline-flex flex-end" := by
  have hne : ["flex", "inline-flex"] ≠ [] := by decide
  have hnames : ∀ name ∈ ["flex", "inline-flex"], IsPlainName name ∧
      ∃ c, name.toList.head? = some c ∧ c.isAlpha = true :=
    List.forall_mem_cons.mpr ⟨⟨by decide, 'f', by decide, by decide⟩,
      List.forall_mem_singleton.mpr ⟨by decide, 'i', by decide, by decide⟩⟩
  have hmark : IsHyphenated "-webkit-" := ⟨"webkit".toList, by decide, by decide⟩
  have hvalue : (ofNames ["flex", "inline-flex"]).mark "-webkit-" "flex,inline-flex flex-end" =
      "-webkit-flex,-webkit-inline-flex flex-end" := by decide +kernel
  obtain ⟨hmarking, -⟩ := mark_exact hne hnames hmark "flex,inline-flex flex-end"
  rw [hvalue] at hmarking
  exact ⟨hne, hnames, hmark, hvalue, hmarking⟩

end Matcher
end VendorPrefixing
