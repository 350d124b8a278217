import Mathlib.Data.List.Infix
import Mathlib.Data.List.TakeWhile
import VendorPrefixing.Text.WhiteSpace

/-!
# Trimming and words, character by character

Main results:

- Theorem `Chars.trimEnd_cons`: trimming the end of a text, read from its start.
- Theorem `Chars.trimEnd_append_of_ne_nil`: what is left of the second of two
  stretches keeps the first one.
- Theorem `Chars.wordsFrom_append`: letters in a row belong to one word.
- Theorem `Chars.trim_trim`: trimming once is enough.
- Theorem `Chars.isSuffix_trim`: an ending between characters that are kept is kept.
-/

namespace VendorPrefixing

/-- What holds of all characters of a text is decided along the text, not over all the
characters there are. -/
instance (priority := 2000) decidableForallMem (p : Char → Prop) [DecidablePred p]
    (s : List Char) : Decidable (∀ c ∈ s, p c) :=
  List.decidableBAll p s

/-- What holds of some character of a text is decided along the text. -/
instance (priority := 2000) decidableExistsMem (p : Char → Prop) [DecidablePred p]
    (s : List Char) : Decidable (∃ c ∈ s, p c) :=
  List.decidableBEx p s

/-- The text consists of white space. -/
def AllBlank (s : List Char) : Prop :=
  ∀ c ∈ s, isBlank c = true

instance (s : List Char) : Decidable (AllBlank s) :=
  inferInstanceAs (Decidable (∀ c ∈ s, isBlank c = true))

theorem AllBlank.nil : AllBlank [] := by
  decide

theorem AllBlank.append {s t : List Char} (hs : AllBlank s) (ht : AllBlank t) :
    AllBlank (s ++ t) :=
  fun c hc => (List.mem_append.mp hc).elim (hs c) (ht c)

theorem AllBlank.slash_not_mem {s : List Char} (h : AllBlank s) : '/' ∉ s :=
  fun hmem => nomatch h _ hmem

namespace Chars

@[simp]
theorem trimEnd_nil : trimEnd [] = [] :=
  rfl

/-- A character goes with the white space behind it if it is white space too. -/
theorem trimEnd_cons (c : Char) (s : List Char) :
    trimEnd (c :: s) = if trimEnd s = [] then (if isBlank c then [] else [c])
      else c :: trimEnd s := by
  rw [trimEnd, trimEnd, List.reverse_cons, List.dropWhile_append]
  cases hrest : s.reverse.dropWhile isBlank with
  | nil =>
    rw [if_pos List.isEmpty_nil, List.reverse_nil, if_pos rfl, List.dropWhile_cons]
    split <;> rfl
  | cons d rest =>
    rw [if_neg (by simp), if_neg (by simp), List.reverse_append]
    rfl

theorem trimEnd_cons_of_not_isBlank {c : Char} (h : isBlank c = false) (s : List Char) :
    trimEnd (c :: s) = c :: trimEnd s := by
  rw [trimEnd_cons, h]
  split
  · rename_i hnil
    rw [hnil]
    rfl
  · rfl

/-- What is left of the second of two stretches keeps the first one. -/
theorem trimEnd_append_of_ne_nil {s : List Char} (h : trimEnd s ≠ []) (front : List Char) :
    trimEnd (front ++ s) = front ++ trimEnd s := by
  induction front with
  | nil => rfl
  | cons c front ih =>
    rw [List.cons_append, trimEnd_cons, ih, if_neg (by simp [h]), List.cons_append]

/-- A stretch without white space at its end is kept. -/
theorem trimEnd_append_of_getLast? {front : List Char} {c : Char}
    (h : front.getLast? = some c) (hc : isBlank c = false) (s : List Char) :
    trimEnd (front ++ s) = front ++ trimEnd s := by
  obtain ⟨rest, rfl⟩ := List.getLast?_eq_some_iff.mp h
  rw [List.append_assoc, List.singleton_append,
    trimEnd_append_of_ne_nil (by rw [trimEnd_cons_of_not_isBlank hc]; simp),
    trimEnd_cons_of_not_isBlank hc, List.append_assoc, List.singleton_append]

theorem trimStart_cons (c : Char) (s : List Char) :
    trimStart (c :: s) = if isBlank c then trimStart s else c :: s := by
  rw [trimStart, List.dropWhile_cons]
  rfl

/-! ## Words -/

theorem wordsFrom_cons_blank {c : Char} (h : isBlank c = true) (word s : List Char) :
    wordsFrom word (c :: s) =
      if word = [] then wordsFrom [] s else word.reverse :: wordsFrom [] s := by
  rw [wordsFrom, if_pos h]
  cases word <;> rfl

theorem wordsFrom_cons_letter {c : Char} (h : isBlank c = false) (word s : List Char) :
    wordsFrom word (c :: s) = wordsFrom (c :: word) s := by
  rw [wordsFrom, if_neg (Bool.eq_false_iff.mp h)]

/-- Letters in a row belong to one word. -/
theorem wordsFrom_append {front : List Char} (h : ∀ c ∈ front, isBlank c = false)
    (word s : List Char) : wordsFrom word (front ++ s) = wordsFrom (front.reverse ++ word) s := by
  induction front generalizing word with
  | nil => rfl
  | cons c front ih =>
    rw [List.cons_append, wordsFrom_cons_letter (h c List.mem_cons_self),
      ih fun d hd => h d (List.mem_cons_of_mem c hd), List.reverse_cons, List.append_assoc,
      List.singleton_append]

/-! ## Parts of a text -/

theorem trimStart_isSuffix (s : List Char) : trimStart s <:+ s :=
  List.dropWhile_suffix isBlank

theorem trimEnd_isPrefix (s : List Char) : trimEnd s <+: s := by
  rw [trimEnd, ← List.reverse_suffix, List.reverse_reverse]
  exact List.dropWhile_suffix isBlank

/-- Only white space goes from the front of a text. -/
theorem exists_append_trimStart (s : List Char) :
    ∃ front, AllBlank front ∧ s = front ++ trimStart s :=
  ⟨s.takeWhile isBlank, fun _ hc => List.mem_takeWhile_imp hc,
    List.takeWhile_append_dropWhile.symm⟩

/-- Only white space goes from the end of a text. -/
theorem exists_trimEnd_append (s : List Char) :
    ∃ back, AllBlank back ∧ s = trimEnd s ++ back := by
  obtain ⟨front, hfront, heq⟩ := exists_append_trimStart s.reverse
  refine ⟨front.reverse, fun c hc => hfront c (List.mem_reverse.mp hc), ?_⟩
  rw [trimEnd, ← List.reverse_append, ← trimStart, ← heq, List.reverse_reverse]

/-- What is left of a text without white space at its ends is a part of it. -/
theorem trim_isInfix (s : List Char) : trim s <:+: s :=
  (trimEnd_isPrefix _).isInfix.trans (trimStart_isSuffix s).isInfix

/-- The words of a text are parts of it. -/
theorem infix_of_mem_wordsFrom {w word s : List Char} (h : w ∈ wordsFrom word s) :
    w <:+: word.reverse ++ s := by
  induction s generalizing word with
  | nil =>
    rw [wordsFrom] at h
    split at h
    · exact absurd h List.not_mem_nil
    · rw [List.mem_singleton.mp h, List.append_nil]
  | cons c s ih =>
    cases hc : isBlank c with
    | false =>
      rw [wordsFrom_cons_letter hc] at h
      have hword := ih h
      rwa [List.reverse_cons, List.append_assoc] at hword
    | true =>
      rw [wordsFrom_cons_blank hc] at h
      have hlater : w ∈ wordsFrom [] s → w <:+: word.reverse ++ c :: s := fun hw =>
        (ih hw).trans ⟨word.reverse ++ [c], [], by simp⟩
      split at h
      · exact hlater h
      · rcases List.mem_cons.mp h with rfl | hw
        · exact (List.prefix_append _ _).isInfix
        · exact hlater hw

/-- Every letter of a text belongs to one of its words. -/
theorem exists_mem_wordsFrom {c : Char} (hc : isBlank c = false) {word s : List Char}
    (h : c ∈ word ∨ c ∈ s) : ∃ w ∈ wordsFrom word s, c ∈ w := by
  induction s generalizing word with
  | nil =>
    have hword : c ∈ word := h.resolve_right List.not_mem_nil
    have hne : word ≠ [] := List.ne_nil_of_mem hword
    refine ⟨word.reverse, ?_, List.mem_reverse.mpr hword⟩
    rw [wordsFrom, if_neg (by rwa [List.isEmpty_iff])]
    exact List.mem_singleton_self _
  | cons d s ih =>
    rw [List.mem_cons] at h
    cases hd : isBlank d with
    | false =>
      rw [wordsFrom_cons_letter hd]
      refine ih ?_
      rw [List.mem_cons]
      tauto
    | true =>
      have hne : c ≠ d := by
        rintro rfl
        rw [hc] at hd
        cases hd
      rw [wordsFrom_cons_blank hd]
      rcases h with hword | heq | hs
      · rw [if_neg (List.ne_nil_of_mem hword)]
        exact ⟨_, List.mem_cons_self, List.mem_reverse.mpr hword⟩
      · exact absurd heq hne
      · obtain ⟨w, hw, hcw⟩ := ih (.inr hs)
        refine ⟨w, ?_, hcw⟩
        split
        · exact hw
        · exact List.mem_cons_of_mem _ hw

/-! ## White space at the ends -/

variable {front back s : List Char}

theorem trimStart_append (h : AllBlank front) (s : List Char) :
    trimStart (front ++ s) = trimStart s :=
  List.dropWhile_append_of_pos h

theorem trimStart_eq_nil (h : AllBlank s) : trimStart s = [] := by
  have hs := trimStart_append h []
  rwa [List.append_nil] at hs

theorem isBlank_of_head?_trimStart {c : Char} (h : (trimStart s).head? = some c) :
    isBlank c = false := by
  have hhead := List.head?_dropWhile_not isBlank s
  rw [← trimStart, h] at hhead
  exact hhead

theorem trimEnd_append (h : AllBlank back) (s : List Char) :
    trimEnd (s ++ back) = trimEnd s := by
  rw [trimEnd, List.reverse_append, List.dropWhile_append_of_pos, trimEnd]
  exact fun c hc => h c (List.mem_reverse.mp hc)

theorem trim_append_left (h : AllBlank front) (s : List Char) :
    trim (front ++ s) = trim s := by
  rw [trim, trimStart_append h, trim]

theorem trim_append_right (h : AllBlank back) (s : List Char) :
    trim (s ++ back) = trim s := by
  rw [trim, trim, trimStart, trimStart, List.dropWhile_append]
  split
  · rename_i hs
    rw [List.isEmpty_iff.mp hs, ← trimStart, trimStart_eq_nil h]
  · exact trimEnd_append h _

/-- A text is what trimming leaves of it, with white space around. -/
theorem exists_append_trim_append (s : List Char) :
    ∃ front back, AllBlank front ∧ AllBlank back ∧ s = front ++ (trim s ++ back) := by
  obtain ⟨front, hfront, hs⟩ := exists_append_trimStart s
  obtain ⟨back, hback, hstart⟩ := exists_trimEnd_append (trimStart s)
  exact ⟨front, back, hfront, hback, by rw [trim, ← hstart, ← hs]⟩

/-- Trimming once is enough. -/
theorem trim_trim (s : List Char) : trim (trim s) = trim s := by
  obtain ⟨front, back, hfront, hback, hs⟩ := exists_append_trim_append s
  rw [← trim_append_right hback (trim s), ← trim_append_left hfront, ← hs]

/-- Trimming takes away white space only. -/
theorem mem_trim {c : Char} (hc : isBlank c = false) (h : c ∈ s) : c ∈ trim s := by
  have hkept : ∀ {blanks : List Char}, AllBlank blanks → c ∉ blanks := by
    intro blanks hblanks hmem
    rw [hblanks c hmem] at hc
    cases hc
  obtain ⟨front, back, hfront, hback, hs⟩ := exists_append_trim_append s
  rw [hs, List.mem_append, List.mem_append] at h
  exact (h.resolve_left (hkept hfront)).resolve_right (hkept hback)

/-- Trimming both ends leaves the first character that is not white space. -/
theorem head?_trim (s : List Char) : (trim s).head? = (trimStart s).head? := by
  rw [trim]
  cases hs : trimStart s with
  | nil => rfl
  | cons c t =>
    have hc : isBlank c = false := isBlank_of_head?_trimStart (s := s) (by rw [hs]; rfl)
    rw [trimEnd_cons_of_not_isBlank hc]
    rfl

theorem head?_trim_of_head? {c : Char} (h : s.head? = some c) (hc : isBlank c = false) :
    (trim s).head? = some c := by
  obtain ⟨t, rfl⟩ := List.head?_eq_some_iff.mp h
  rw [head?_trim, trimStart_eq_self hc]
  rfl

/-- An ending that begins and ends with other characters than white space is not trimmed. -/
theorem isSuffix_trim {c d : Char} (h : back <:+ s) (hhead : back.head? = some c)
    (hc : isBlank c = false) (hlast : back.getLast? = some d) (hd : isBlank d = false) :
    back <:+ trim s := by
  obtain ⟨front, rfl⟩ := h
  obtain ⟨t, rfl⟩ := List.head?_eq_some_iff.mp hhead
  have hstart : c :: t <:+ trimStart (front ++ c :: t) := by
    rw [trimStart, List.dropWhile_append]
    split
    · rw [← trimStart, trimStart_eq_self hc]
    · exact List.suffix_append _ _
  obtain ⟨kept, hkept⟩ := hstart
  have hend : (kept ++ c :: t).getLast? = some d := by
    rw [List.getLast?_append, hlast, Option.some_or]
  have htrim := trimEnd_append_of_getLast? hend hd []
  rw [trimEnd_nil, List.append_nil] at htrim
  rw [trim, ← hkept, htrim]
  exact List.suffix_append _ _

end Chars
end VendorPrefixing
