import VendorPrefixing.Proofs.Sheet.Stretch
import VendorPrefixing.Sheet.Item

/-!
# Selectors cut apart and joined again

A prelude is cut into selectors at its top-level commas.  Its stretch counts square
brackets as well, and so a cut may fall inside of a pair of them; joining the
selectors makes the pair whole again.

Main results:

- Theorem `Chars.splitArguments_append`: the first comma outside of everything makes a cut.
- Theorem `Chars.arguments_intercalate`: joined arguments are cut where they were
  joined.
- Theorem `Stretch.passes?_intercalate`: joined selectors are passed like the prelude
  they are from.
-/

namespace VendorPrefixing
namespace Chars

variable {n m : Nesting} {s t blanks : List Char}

/-- What stands between the top-level commas of a text, without white space around
it. -/
def arguments (s : List Char) : List (List Char) :=
  (splitArguments s).map trim

theorem arguments_ne_nil (s : List Char) : arguments s ≠ [] := by
  rw [arguments, ne_eq, List.map_eq_nil_iff]
  exact splitFrom_ne_nil .outside [] s

/-! ## Cuts -/

theorem splitFrom_append (h : Stretch.argument.passes? n s = some m) (piece t : List Char) :
    splitFrom n piece (s ++ t) = splitFrom m (s.reverse ++ piece) t := by
  induction s generalizing n piece with
  | nil =>
    obtain rfl := Option.some.inj h
    rfl
  | cons c s ih =>
    rw [Stretch.passes?, Stretch.step_argument] at h
    split at h
    · cases h
    · rename_i hc
      have hc' : ¬ (n.isTop && c == ',') = true := by
        simpa [Stretch.argument] using hc
      rw [List.cons_append, splitFrom, if_neg hc', ih h, List.reverse_cons, List.append_assoc]
      rfl

/-- The piece that is being read stands in front of the first one. -/
theorem splitFrom_eq_modifyHead (n : Nesting) (piece s : List Char) :
    splitFrom n piece s = (splitFrom n [] s).modifyHead (piece.reverse ++ ·) := by
  induction s generalizing n piece with
  | nil => simp [splitFrom]
  | cons c s ih =>
    rw [splitFrom, splitFrom]
    split
    · simp
    · rw [ih, ih _ [c], List.modifyHead_modifyHead, List.reverse_cons]
      simp [Function.comp_def]

/-- A text without top-level commas is one piece. -/
theorem splitArguments_of_passes? (h : Stretch.argument.passes? .outside s = some m) :
    splitArguments s = [s] := by
  have hsplit := splitFrom_append h [] []
  rw [List.append_nil, List.append_nil] at hsplit
  rw [splitArguments, hsplit, splitFrom, List.reverse_reverse]

/-- The first comma outside of everything makes a cut. -/
theorem splitArguments_append (h : Stretch.argument.passes? .outside s = some .outside)
    (t : List Char) : splitArguments (s ++ ',' :: t) = s :: splitArguments t := by
  have hcut : (Nesting.outside.isTop && ',' == ',') = true := rfl
  rw [splitArguments, splitFrom_append h, List.append_nil, splitFrom, if_pos hcut,
    List.reverse_reverse]
  rfl

/-- A text without top-level commas is one argument. -/
theorem arguments_of_passes? (h : Stretch.argument.passes? .outside s = some m) :
    arguments s = [trim s] := by
  rw [arguments, splitArguments_of_passes? h, List.map_singleton]

theorem arguments_append (h : Stretch.argument.passes? .outside s = some .outside)
    (t : List Char) : arguments (s ++ ',' :: t) = trim s :: arguments t := by
  rw [arguments, splitArguments_append h, List.map_cons, arguments]

/-- A text is one argument, or it has a first one. -/
theorem passes?_or_exists_append (n : Nesting) (s : List Char) :
    (∃ m, Stretch.argument.passes? n s = some m) ∨
      ∃ t u, s = t ++ ',' :: u ∧ Stretch.argument.passes? n t = some .outside := by
  induction s generalizing n with
  | nil => exact .inl ⟨n, rfl⟩
  | cons c s ih =>
    by_cases hc : (n.isTop && decide (c ∈ Stretch.argument.stops)) = true
    · rw [Bool.and_eq_true, decide_eq_true_eq] at hc
      obtain rfl := Nesting.isTop_iff.mp hc.1
      obtain rfl := List.mem_singleton.mp hc.2
      exact .inr ⟨[], s, rfl, rfl⟩
    · rcases ih (Stretch.argument.step n c) with ⟨m, hm⟩ | ⟨t, u, rfl, ht⟩
      · exact .inl ⟨m, by rw [Stretch.passes?, if_neg hc, hm]⟩
      · exact .inr ⟨c :: t, u, rfl, by rw [Stretch.passes?, if_neg hc, ht]⟩

/-- What holds of single arguments, and of a list with its first argument, holds of
every text. -/
theorem arguments_induction {p : List Char → Prop}
    (single : ∀ s m, Stretch.argument.passes? .outside s = some m → p s)
    (cons : ∀ s t, Stretch.argument.passes? .outside s = some .outside → p t →
      p (s ++ ',' :: t)) (s : List Char) : p s := by
  rcases passes?_or_exists_append .outside s with ⟨m, hm⟩ | ⟨t, u, hs, ht⟩
  · exact single s m hm
  · exact hs ▸ cons t u ht (arguments_induction single cons u)
termination_by s.length
decreasing_by
  rw [hs, List.length_append, List.length_cons]
  omega

/-! ## White space -/

/-- White space in front of the arguments goes when they are trimmed. -/
theorem arguments_append_left (h : AllBlank blanks) (s : List Char) :
    arguments (blanks ++ s) = arguments s := by
  have hpass : Stretch.argument.passes? .outside blanks = some .outside :=
    Stretch.passes?_of_isBlank Stretch.isProper_argument rfl
      (Stretch.quotesNoBlank_of_none rfl) h
  rw [arguments, splitArguments, splitFrom_append hpass, List.append_nil,
    splitFrom_eq_modifyHead, List.reverse_reverse, arguments, splitArguments]
  cases splitFrom .outside [] s with
  | nil => rfl
  | cons piece rest =>
    rw [List.modifyHead_cons, List.map_cons, trim_append_left h, List.map_cons]

theorem splitFrom_of_isBlank (h : AllBlank blanks) (n : Nesting)
    (piece : List Char) : splitFrom n piece blanks = [piece.reverse ++ blanks] := by
  induction blanks generalizing n piece with
  | nil => rw [splitFrom, List.append_nil]
  | cons c blanks ih =>
    have hc : c ≠ ',' := by
      rintro rfl
      cases h ',' List.mem_cons_self
    rw [splitFrom, if_neg (by simp [hc]), ih (fun d hd => h d (List.mem_cons_of_mem c hd)),
      List.reverse_cons, List.append_assoc]
    rfl

/-- White space behind the arguments goes when they are trimmed. -/
theorem map_trim_splitFrom_append (h : AllBlank blanks) (n : Nesting)
    (piece s : List Char) :
    (splitFrom n piece (s ++ blanks)).map trim = (splitFrom n piece s).map trim := by
  induction s generalizing n piece with
  | nil =>
    rw [List.nil_append, splitFrom_of_isBlank h, splitFrom, List.map_singleton,
      trim_append_right h, List.map_singleton]
  | cons c s ih =>
    rw [List.cons_append, splitFrom, splitFrom]
    split
    · rw [List.map_cons, List.map_cons, ih]
    · exact ih _ _

/-- Trimming a text does not change its arguments. -/
theorem arguments_trim (s : List Char) : arguments (trim s) = arguments s := by
  obtain ⟨front, hfront, hs⟩ := exists_append_trimStart s
  obtain ⟨back, hback, hstart⟩ := exists_trimEnd_append (trimStart s)
  calc arguments (trim s) = arguments (trim s ++ back) :=
        (map_trim_splitFrom_append hback .outside [] _).symm
    _ = arguments (front ++ trimStart s) := by
        rw [trim, ← hstart, arguments_append_left hfront]
    _ = arguments s := by rw [← hs]

/-! ## Joins -/

theorem intercalate_arguments_append
    (h : Stretch.argument.passes? .outside s = some .outside) (separator t : List Char) :
    separator.intercalate (arguments (s ++ ',' :: t)) =
      trim s ++ (separator ++ separator.intercalate (arguments t)) := by
  rw [arguments_append h, List.intercalate_cons_of_ne_nil (arguments_ne_nil t),
    List.append_assoc]

/-- Joined arguments are cut where they were joined. -/
theorem arguments_intercalate (hblanks : AllBlank blanks)
    (hs : EscapesNoBlank s) :
    arguments ((',' :: blanks).intercalate (arguments s)) = arguments s := by
  induction s using arguments_induction with
  | single s m hm =>
    rw [arguments_of_passes? hm, List.intercalate_singleton, arguments_trim,
      arguments_of_passes? hm]
  | cons s t hpass ih =>
    have hfront : Stretch.argument.passes? .outside (trim s) = some .outside :=
      Stretch.passes?_trim Stretch.isProper_argument rfl (Stretch.quotesNoBlank_of_none rfl)
        (hs.of_isInfix (List.prefix_append s _).isInfix) hpass
    rw [intercalate_arguments_append hpass, List.cons_append, arguments_append hfront,
      trim_trim, arguments_append_left hblanks,
      ih (hs.of_isInfix ((List.suffix_cons ',' t).trans (List.suffix_append s _)).isInfix),
      arguments_append hpass]

/-- Joined arguments begin like the text they are from. -/
theorem head?_intercalate_arguments (blanks s : List Char) :
    ((',' :: blanks).intercalate (arguments s)).head? = (trim s).head? := by
  induction s using arguments_induction with
  | single s m hm => rw [arguments_of_passes? hm, List.intercalate_singleton]
  | cons s t hpass ih =>
    rw [intercalate_arguments_append hpass, List.head?_append, head?_trim, head?_trim,
      trimStart, trimStart, List.dropWhile_append]
    split
    · rename_i hs
      rw [List.isEmpty_iff.mp hs]
      rfl
    · rename_i hs
      rw [List.head?_append]
      cases hdrop : s.dropWhile isBlank with
      | nil => exact absurd (List.isEmpty_iff.mpr hdrop) hs
      | cons c rest => rfl

/-- Joined arguments open no comment. -/
theorem isCommentFree_intercalate (hblanks : AllBlank blanks)
    (hs : IsCommentFree s) :
    IsCommentFree ((',' :: blanks).intercalate (arguments s)) := by
  induction s using arguments_induction with
  | single s m hm =>
    rw [arguments_of_passes? hm, List.intercalate_singleton]
    exact hs.of_isInfix (trim_isInfix s)
  | cons s t hpass ih =>
    have ht := ih (hs.of_isInfix ((List.suffix_cons ',' t).trans (List.suffix_append s _)).isInfix)
    have hslash : '/' ∉ ',' :: blanks := by
      intro hmem
      rcases List.mem_cons.mp hmem with h | h
      · cases h
      · cases hblanks _ h
    rw [intercalate_arguments_append hpass]
    refine IsCommentFree.append_cons ?_ (by decide) (ht.append_of_not_mem hslash)
    exact hs.of_isInfix ((trim_isInfix s).trans (List.prefix_append s _).isInfix)

end Chars

namespace Stretch

variable {n m : Nesting} {s blanks : List Char}

/-- Joined selectors are passed like the prelude they are from. -/
theorem passes?_intercalate (hblanks : AllBlank blanks)
    (hquote : n.quote = none) (hescaped : n.escaped = false) (hs : EscapesNoBlank s)
    (h : prelude.passes? n s = some m) :
    prelude.passes? n ((',' :: blanks).intercalate (Chars.arguments s)) = some m := by
  have hquotes : ∀ {n : Nesting}, n.quote = none → QuotesNoBlank n := by
    intro n hn q hq
    rw [hn] at hq
    cases hq
  induction s using Chars.arguments_induction generalizing n with
  | single s _ hpass =>
    rw [Chars.arguments_of_passes? hpass, List.intercalate_singleton]
    exact passes?_trim isProper_prelude hescaped (hquotes hquote) hs h
  | cons s t hpass ih =>
    rw [passes?_append, Option.bind_eq_some_iff] at h
    obtain ⟨middle, hfront, hback⟩ := h
    -- The cut falls outside of quotes, though maybe inside of square brackets.
    have hmiddle := quote_of_passes? hquote hescaped hfront hpass
    have hcomma : prelude.step middle ',' = middle := by
      cases middle with
      | mk quote escaped depth =>
        obtain ⟨rfl, rfl⟩ : quote = none ∧ escaped = false := hmiddle
        rfl
    have hstop : ¬ (middle.isTop && decide (',' ∈ prelude.stops)) = true := by
      rw [Bool.and_eq_true]
      exact fun h => absurd h.2 (by decide)
    rw [passes?, if_neg hstop, hcomma] at hback
    have hsInfix := hs.of_isInfix (List.prefix_append s _).isInfix
    have htInfix := hs.of_isInfix ((List.suffix_cons ',' t).trans (List.suffix_append s _)).isInfix
    rw [Chars.intercalate_arguments_append hpass, passes?_append,
      passes?_trim isProper_prelude hescaped (hquotes hquote) hsInfix hfront,
      Option.bind_some, List.cons_append, passes?, if_neg hstop, hcomma, passes?_append,
      passes?_of_isBlank isProper_prelude hmiddle.2 (hquotes hmiddle.1) hblanks,
      Option.bind_some]
    exact ih hmiddle.1 hmiddle.2 htInfix hback

end Stretch
end VendorPrefixing
