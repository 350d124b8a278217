import VendorPrefixing.Proofs.Value.Standing

/-!
# The words of a value as ranges of bytes

A matcher of plain names lists the ranges of bytes where one of them is a whole word.  The
search consumes what it tries and drops what does not end a word, and it tells the places
before a name by another class of characters than the places behind it; what it lists is
still told by the value alone.

Main results:

- Theorem `WordRange.isWhole_iff`: a whole word by its bytes is one by its characters.
- Theorem `Matcher.mem_ranges_iff`: the ranges that are listed are the whole words.
- Theorem `Matcher.pairwise_ranges`: they are listed from left to right without overlap.
- Theorem `Matcher.ranges_ofNames`: both, with what it means to find something.
-/

namespace VendorPrefixing

open Word (isSeparator endsHere StandsAt)

/-! ## Plain names -/

/-- Whether a text is made of ASCII letters, digits, hyphens and underscores and not
empty. -/
def IsPlainName (s : String) : Prop :=
  s ≠ "" ∧ ∀ c ∈ s.toList, c.isAlphanum = true ∨ c = '-' ∨ c = '_'

instance (s : String) : Decidable (IsPlainName s) :=
  inferInstanceAs (Decidable (s ≠ "" ∧ ∀ c ∈ s.toList, c.isAlphanum = true ∨ c = '-' ∨ c = '_'))

theorem Word.isSeparator_iff {c : Char} :
    isSeparator c = true ↔ c ≠ '-' ∧ isWordChar c = false := by
  simp [isSeparator]

theorem isNameChar_eq_false_iff {c : Char} :
    isNameChar c = false ↔ isAlphanumeric c = false ∧ c ≠ '_' ∧ c ≠ '-' := by
  rw [← Bool.not_eq_true, isNameChar_iff, not_or, not_or, Bool.not_eq_true]
  exact and_congr_right fun _ => and_comm

theorem IsPlainName.isWord {s : String} (h : IsPlainName s) : IsWord s := by
  refine ⟨h.1, fun c hc => ?_⟩
  rcases h.2 c hc with halphanum | rfl | rfl
  · refine ⟨isNameChar_iff.mpr (.inl (isAlphanumeric_of_isAlphanum halphanum)), ?_⟩
    rw [← Bool.not_eq_true, Word.isSeparator_iff, isWordChar_of_isAlphanum halphanum]
    exact fun hboth => Bool.noConfusion hboth.2
  · decide
  · decide

/-! ## Bytes -/

namespace Chars

variable {s : List Char} {m n : Nat}

/-- The size of a text is the one that strings have. -/
theorem utf8Size_eq (s : List Char) : utf8Size s = (String.ofList s).utf8ByteSize := by
  induction s with
  | nil => rfl
  | cons c s ih =>
    have hcons : String.ofList (c :: s) = String.singleton c ++ String.ofList s := by
      rw [← String.toList_inj, String.toList_append, String.toList_singleton,
        String.toList_ofList, String.toList_ofList, List.singleton_append]
    rw [hcons, String.utf8ByteSize_append, String.utf8ByteSize_singleton, ← ih]
    rfl

theorem utf8Size_append (s t : List Char) : utf8Size (s ++ t) = utf8Size s + utf8Size t := by
  rw [utf8Size_eq, utf8Size_eq, utf8Size_eq, String.ofList_append, String.utf8ByteSize_append]

/-- A longer stretch of a text takes no fewer bytes. -/
theorem utf8Size_take_le (h : m ≤ n) : utf8Size (s.take m) ≤ utf8Size (s.take n) := by
  obtain ⟨t, ht⟩ := List.take_prefix_take_left (l := s) h
  rw [← ht, utf8Size_append]
  exact Nat.le_add_right _ _

end Chars

/-! ## Ranges -/

/-- A text with the bytes of a value that it takes: from `start` on and before `stop`. -/
structure WordRange where
  text : String
  start : Nat
  stop : Nat
deriving DecidableEq, Repr

/-- The bytes of a value that an occurrence takes. -/
def Occurrence.range (value : String) (o : Occurrence) : WordRange where
  text := .ofList o.name
  start := Chars.utf8Size (value.toList.take o.start)
  stop := Chars.utf8Size (value.toList.take o.stop)

/-- Whether the text stands at these bytes of a value and is a whole word there. -/
def WordRange.IsWhole (r : WordRange) (value : String) : Prop :=
  ∃ before after : String, value = before ++ r.text ++ after ∧
    r.start = before.utf8ByteSize ∧ r.stop = (before ++ r.text).utf8ByteSize ∧
      (∀ c, before.toList.getLast? = some c → c ≠ '-' ∧ isWordChar c = false) ∧
        ∀ c, after.toList.head? = some c → isAlphanumeric c = false ∧ c ≠ '_' ∧ c ≠ '-'

theorem freeAfter_true_iff {s : List Char} :
    freeAfter true s = true ↔ ∀ c, s.getLast? = some c → isSeparator c = true := by
  rw [freeAfter]
  cases s.getLast? <;> simp

theorem Word.endsHere_iff {s : List Char} :
    endsHere s = true ↔ ∀ c, s.head? = some c → isNameChar c = false := by
  cases s <;> simp [endsHere]

namespace WordRange

variable {r : WordRange} {value : String}

/-- A whole word takes at least one byte. -/
theorem IsWhole.start_lt_stop (h : r.IsWhole value) (hne : r.text ≠ "") : r.start < r.stop := by
  obtain ⟨before, after, -, hstart, hstop, -⟩ := h
  have hpos : r.text.utf8ByteSize ≠ 0 := fun hzero => hne (String.utf8ByteSize_eq_zero_iff.mp hzero)
  rw [hstart, hstop, String.utf8ByteSize_append]
  omega

/-- A text is a whole word at some bytes when it stands alone at the place where the
characters in front of it take as many bytes. -/
theorem isWhole_iff : r.IsWhole value ↔ ∃ place, StandsAt value.toList r.text.toList place ∧
    r.start = Chars.utf8Size (value.toList.take place) ∧
      r.stop = Chars.utf8Size (value.toList.take (place + r.text.toList.length)) := by
  constructor
  · rintro ⟨before, after, hvalue, hstart, hstop, hfree, hends⟩
    have htext : value.toList = before.toList ++ r.text.toList ++ after.toList := by
      rw [hvalue, String.toList_append, String.toList_append]
    refine ⟨before.toList.length, ?_, ?_, ?_⟩
    · rw [htext]
      refine standsAt_append (freeAfter_true_iff.mpr fun c hc => ?_)
        (Word.endsHere_iff.mpr fun c hc => ?_)
      · exact Word.isSeparator_iff.mpr (hfree c hc)
      · exact isNameChar_eq_false_iff.mpr (hends c hc)
    · rw [hstart, htext, List.append_assoc, List.take_left, Chars.utf8Size_eq,
        String.ofList_toList]
    · rw [hstop, htext, ← List.length_append, List.take_left, ← String.toList_append,
        Chars.utf8Size_eq, String.ofList_toList]
  · rintro ⟨place, hstands, hstart, hstop⟩
    obtain ⟨after, htext, hfree, hends⟩ := exists_append_of_standsAt hstands
    have hbehind : value.toList.take (place + r.text.toList.length) =
        value.toList.take place ++ r.text.toList := by
      rw [List.take_add, ← List.prefix_iff_eq_take.mp hstands.isPrefix]
    refine ⟨.ofList (value.toList.take place), .ofList after, ?_, ?_, ?_, ?_, ?_⟩
    · rw [← String.toList_inj, String.toList_append, String.toList_append, String.toList_ofList,
        String.toList_ofList]
      exact htext
    · rw [hstart, Chars.utf8Size_eq]
    · rw [hstop, hbehind, Chars.utf8Size_eq, String.ofList_append, String.ofList_toList]
    · intro c hc
      rw [String.toList_ofList] at hc
      exact Word.isSeparator_iff.mp (freeAfter_true_iff.mp hfree c hc)
    · intro c hc
      rw [String.toList_ofList] at hc
      exact isNameChar_eq_false_iff.mp (Word.endsHere_iff.mp hends c hc)

end WordRange

namespace Matcher

variable {m : Matcher} {names : List String} {value : String} {r : WordRange}

/-- The ranges of bytes where a matcher finds a name. -/
def ranges (m : Matcher) (value : String) : List WordRange :=
  (m.occurrences value).map (·.range value)

theorem searched_ne_nil (hne : names ≠ []) : (ofNames names).names ≠ [] := by
  obtain ⟨name, hname⟩ := List.exists_mem_of_ne_nil names hne
  exact List.ne_nil_of_mem (mem_names.mpr hname)

/-- The ranges that are listed are the whole words. -/
theorem mem_ranges_iff (hne : names ≠ []) (hnames : ∀ name ∈ names, IsWord name) :
    r ∈ (ofNames names).ranges value ↔ r.text ∈ names ∧ r.IsWhole value := by
  constructor
  · intro h
    obtain ⟨o, ho, rfl⟩ := List.mem_map.mp h
    obtain ⟨⟨name, hname, heq⟩, hstands⟩ := standsAt_of_mem_occurrences (searched_ne_nil hne) ho
    have htext : (o.range value).text = name := by
      rw [Occurrence.range, heq, String.ofList_toList]
    refine ⟨htext ▸ mem_names.mp hname, WordRange.isWhole_iff.mpr ⟨o.start, ?_, rfl, ?_⟩⟩
    · rw [htext, ← heq]
      exact hstands
    · rw [htext, ← heq]
      rfl
  · rintro ⟨hname, hwhole⟩
    obtain ⟨place, hstands, hstart, hstop⟩ := WordRange.isWhole_iff.mp hwhole
    have hoccurs := Word.mem_occurrences_of_standsAt (searchable_names hnames)
      (List.mem_map_of_mem (mem_names.mpr hname)) hstands
    rw [← patterns_eq (searched_ne_nil hne)] at hoccurs
    refine List.mem_map.mpr ⟨_, hoccurs, ?_⟩
    rw [Occurrence.range, Occurrence.stop, String.ofList_toList, ← hstart, ← hstop]

/-- The ranges are listed from left to right without overlap. -/
theorem pairwise_ranges (hne : names ≠ []) (hnames : ∀ name ∈ names, IsWord name) :
    ((ofNames names).ranges value).Pairwise fun r q => r.start < q.start ∧ r.stop ≤ q.start := by
  have hoccurs : ((ofNames names).occurrences value).Pairwise fun o p => o.stop < p.start :=
    Word.pairwise_occurrences
  have hstops : ((ofNames names).ranges value).Pairwise fun r q => r.stop ≤ q.start :=
    List.pairwise_map.mpr (hoccurs.imp fun hlt => Chars.utf8Size_take_le (Nat.le_of_lt hlt))
  refine hstops.imp_of_mem fun hr _ hle => ⟨Nat.lt_of_lt_of_le ?_ hle, hle⟩
  obtain ⟨hname, hwhole⟩ := (mem_ranges_iff hne hnames).mp hr
  exact hwhole.start_lt_stop (hnames _ hname).1

/-- Something is found when there is a range. -/
theorem finds_iff_ranges_ne_nil (hne : names ≠ []) (hnames : ∀ name ∈ names, IsWord name) :
    (ofNames names).finds value = true ↔ (ofNames names).ranges value ≠ [] := by
  rw [ranges, ne_eq, List.map_eq_nil_iff]
  constructor
  · exact occurrences_ne_nil_of_finds
  · intro h
    obtain ⟨o, ho⟩ := List.exists_mem_of_ne_nil _ h
    obtain ⟨⟨name, hname, heq⟩, hstands⟩ := standsAt_of_mem_occurrences (searched_ne_nil hne) ho
    exact finds_of_standsAt hnames (mem_names.mp hname) (heq ▸ hstands)

/-- A matcher lists the ranges of bytes where one of its names is a whole word, every one
once and from left to right, and finds something when there is one. -/
theorem ranges_ofNames (hne : names ≠ []) (hnames : ∀ name ∈ names, IsPlainName name)
    (value : String) :
    ((ofNames names).ranges value).Pairwise (fun r q => r.start < q.start ∧ r.stop ≤ q.start) ∧
      (∀ r, r ∈ (ofNames names).ranges value ↔ r.text ∈ names ∧ r.IsWhole value) ∧
        ((ofNames names).finds value = true ↔ (ofNames names).ranges value ≠ []) := by
  have hwords : ∀ name ∈ names, IsWord name := fun name hname => (hnames name hname).isWord
  exact ⟨pairwise_ranges hne hwords, fun r => mem_ranges_iff hne hwords,
    finds_iff_ranges_ne_nil hne hwords⟩

/-- The keyword `flex` is a whole word between a letter of two bytes with a blank and a
keyword that it begins. -/
theorem ranges_displayKeywords :
    ["flex", "inline-flex"] ≠ [] ∧ (∀ name ∈ ["flex", "inline-flex"], IsPlainName name) ∧
      ⟨"flex", 3, 7⟩ ∈ (ofNames ["flex", "inline-flex"]).ranges "é flex flex-end" ∧
        (ofNames ["flex", "inline-flex"]).finds "é flex flex-end" = true := by
  have hne : ["flex", "inline-flex"] ≠ [] := by decide
  have hnames : ∀ name ∈ ["flex", "inline-flex"], IsPlainName name := by decide
  have hwhole : (⟨"flex", 3, 7⟩ : WordRange).IsWhole "é flex flex-end" := by
    refine ⟨"é ", " flex-end", by decide, by decide, by decide, fun c hc => ?_, fun c hc => ?_⟩
    · obtain rfl : ' ' = c := Option.some.inj hc
      decide
    · obtain rfl : ' ' = c := Option.some.inj hc
      decide
  obtain ⟨-, hmem, hfinds⟩ := ranges_ofNames hne hnames "é flex flex-end"
  have hfound := (hmem _).mpr ⟨List.mem_cons_self, hwhole⟩
  exact ⟨hne, hnames, hfound, hfinds.mpr (List.ne_nil_of_mem hfound)⟩

end Matcher
end VendorPrefixing
