import Mathlib.Data.List.Forall2
import VendorPrefixing.Proofs.Sheet.Selectors
import VendorPrefixing.Proofs.Text.Join

/-!
# Cuts at commas are lossless and final

Every piece but the last ends outside of everything, so that the next one begins like
the text itself, whatever is left open at the end of the text.  White space at the ends
of a piece changes nothing, unless it comes to stand behind a backslash, or a comma does.

Main results:

- Theorem `Stretch.escaped_iff`: what a backslash at the end of a text protects.
- Theorem `Stretch.passes?_of_trim_eq`: texts that differ in the white space around them are
  passed alike.
- Theorem `Chars.splitArguments_intercalate`: joined pieces are cut where they were joined.
- Theorem `Text.splitArguments_lossless_final`: the same for texts.
-/

namespace VendorPrefixing

variable {n m : Nesting} {s t : List Char}

/-! ## Backslashes at the end -/

/-- Whether the last backslash of a text would protect a character behind the text: it is
not protected itself by one before it. -/
def EndsEscaping (s : List Char) : Prop :=
  (s.reverse.takeWhile (· = '\\')).length % 2 = 1

instance : DecidablePred EndsEscaping := fun s =>
  inferInstanceAs (Decidable ((s.reverse.takeWhile (· = '\\')).length % 2 = 1))

namespace Nesting

/-- The same place, without a backslash before it. -/
def unescaped (n : Nesting) : Nesting :=
  { n with escaped := false }

theorem unescaped_of_escaped_eq_false (h : n.escaped = false) : n.unescaped = n := by
  rw [unescaped, ← h]

end Nesting

namespace Stretch

variable {k : Stretch}

/-- A text that is passed from a place without a backslash leads behind one exactly when
it ends in one that is not protected. -/
theorem escaped_iff (hescaped : n.escaped = false) (h : k.passes? n s = some m) :
    m.escaped = true ↔ EndsEscaping s := by
  induction s using List.reverseRecOn generalizing m with
  | nil =>
    obtain rfl := Option.some.inj h
    simp [hescaped, EndsEscaping]
  | append_singleton s c ih =>
    rw [passes?_append, Option.bind_eq_some_iff] at h
    obtain ⟨middle, hfront, hback⟩ := h
    have hmiddle := ih hfront
    obtain rfl : k.step middle c = m := by
      rw [passes?] at hback
      split at hback
      · cases hback
      · exact Option.some.inj hback
    by_cases hc : c = '\\'
    · subst hc
      have hstep : (k.step middle '\\').escaped = !middle.escaped := by
        rw [step]
        cases middle.escaped <;> rfl
      have hcount : EndsEscaping (s ++ ['\\']) ↔ ¬ EndsEscaping s := by
        simp [EndsEscaping]
        omega
      rw [hstep, hcount, ← hmiddle]
      simp
    · refine iff_of_false (fun h => hc (eq_backslash_of_escaped h)) ?_
      simp [EndsEscaping, hc]

/-! ## White space at the ends -/

/-- White space behind a text only makes a difference to a backslash at its end. -/
theorem map_unescaped_of_isBlank (hk : k.IsProper) (hquotes : QuotesNoBlank n)
    (hs : AllBlank s) : (k.passes? n s).map Nesting.unescaped = some n.unescaped := by
  cases s with
  | nil => rfl
  | cons c s =>
    cases hescaped : n.escaped with
    | false => rw [passes?_of_isBlank hk hescaped hquotes hs, Option.map_some]
    | true =>
      have htop : n.isTop = false := by simp [Nesting.isTop, Nesting.isPlain, hescaped]
      have hstep : k.step n c = n.unescaped := by
        rw [step, if_pos hescaped]
        rfl
      have hrest : AllBlank s := fun d hd => hs d (List.mem_cons_of_mem c hd)
      rw [passes?, htop, Bool.false_and, if_neg Bool.false_ne_true, hstep,
        passes?_of_isBlank (n := n.unescaped) hk rfl hquotes hrest]
      rfl

/-- White space around a text only makes a difference to a backslash at its end. -/
theorem map_unescaped_trim (hk : k.IsProper) (s : List Char) :
    (k.passes? .outside (Chars.trim s)).map Nesting.unescaped =
      (k.passes? .outside s).map Nesting.unescaped := by
  obtain ⟨front, back, hfront, hback, hs⟩ := Chars.exists_append_trim_append s
  have houtside := quotesNoBlank_of_none (n := .outside) rfl
  conv_rhs => rw [hs]
  rw [passes?_append, passes?_of_isBlank hk rfl houtside hfront, Option.bind_some, passes?_append]
  cases hmiddle : k.passes? .outside (Chars.trim s) with
  | none => rfl
  | some middle =>
    have hquotes := quotesNoBlank_of_passes? houtside hmiddle
    rw [Option.bind_some, map_unescaped_of_isBlank hk hquotes hback, Option.map_some]

/-- Texts that differ in the white space around them are passed alike, as long as neither
leads behind a backslash. -/
theorem passes?_of_trim_eq (hk : k.IsProper) (h : k.passes? .outside s = some .outside)
    (htrim : Chars.trim t = Chars.trim s) (ht : ¬ EndsEscaping t) :
    k.passes? .outside t = some .outside := by
  have hmap := map_unescaped_trim hk t
  rw [htrim, map_unescaped_trim hk s, h, Option.map_some, eq_comm, Option.map_eq_some_iff] at hmap
  obtain ⟨m, hm, hunescaped⟩ := hmap
  have hescaped : m.escaped = false := by
    rw [← Bool.not_eq_true, escaped_iff rfl hm]
    exact ht
  rw [hm, ← Nesting.unescaped_of_escaped_eq_false hescaped, hunescaped]
  rfl

end Stretch

namespace Chars

/-! ## Cuts and joins -/

/-- Joining the pieces at commas gives the text back. -/
theorem intercalate_splitArguments (s : List Char) : [','].intercalate (splitArguments s) = s := by
  induction s using arguments_induction with
  | single s m hm => rw [splitArguments_of_passes? hm, List.intercalate_singleton]
  | cons s t hpass ih =>
    have hne : splitArguments t ≠ [] := splitFrom_ne_nil .outside [] t
    rw [splitArguments_append hpass, List.intercalate_cons_of_ne_nil hne, ih]
    simp

/-- A piece has no top-level commas. -/
theorem splitArguments_of_mem {piece : List Char} (h : piece ∈ splitArguments s) :
    splitArguments piece = [piece] := by
  induction s using arguments_induction with
  | single s m hm =>
    rw [splitArguments_of_passes? hm, List.mem_singleton] at h
    rw [h, splitArguments_of_passes? hm]
  | cons s t hpass ih =>
    rw [splitArguments_append hpass, List.mem_cons] at h
    rcases h with rfl | h
    · exact splitArguments_of_passes? hpass
    · exact ih h

/-- Pieces that are joined with other white space around them are cut where they were
joined, unless the comma comes to stand behind a backslash. -/
theorem splitArguments_intercalate {pieces : List (List Char)}
    (h : List.Forall₂ (fun old new => trim new = trim old) (splitArguments s) pieces)
    (hends : ∀ piece ∈ pieces, ¬ EndsEscaping piece) :
    splitArguments ([','].intercalate pieces) = pieces := by
  induction s using arguments_induction generalizing pieces with
  | single s m hm =>
    rw [splitArguments_of_passes? hm] at h
    cases h with
    | @cons _ piece _ _ hpiece hnil =>
      cases hnil
      have hmap := Stretch.map_unescaped_trim Stretch.isProper_argument piece
      rw [hpiece, Stretch.map_unescaped_trim Stretch.isProper_argument s, hm, eq_comm,
        Option.map_some, Option.map_eq_some_iff] at hmap
      obtain ⟨m', hm', -⟩ := hmap
      rw [List.intercalate_singleton, splitArguments_of_passes? hm']
  | cons s t hpass ih =>
    rw [splitArguments_append hpass] at h
    cases h with
    | @cons _ piece _ rest hpiece hrest =>
      have hne : rest ≠ [] := by
        rintro rfl
        exact splitFrom_ne_nil .outside [] t (List.forall₂_nil_right_iff.mp hrest)
      rw [List.forall_mem_cons] at hends
      have hpass' : Stretch.argument.passes? .outside piece = some .outside :=
        Stretch.passes?_of_trim_eq Stretch.isProper_argument hpass hpiece hends.1
      rw [List.intercalate_cons_of_ne_nil hne, List.append_assoc, List.singleton_append,
        splitArguments_append hpass', ih hrest hends.2]

end Chars

namespace Text

theorem toList_splitArguments (args : String) :
    (splitArguments args).map String.toList = Chars.splitArguments args.toList := by
  simp [splitArguments, Function.comp_def]

/-- Cutting at top-level commas is lossless and final: the pieces joined give the text back,
each of them is one piece, and when white space is put around the pieces or taken away, so
that none ends in a backslash that protects what follows, they are still cut where they are
joined. -/
theorem splitArguments_lossless_final (args : String) :
    splitArguments args ≠ [] ∧ join "," (splitArguments args) = args ∧
      (∀ piece ∈ splitArguments args, splitArguments piece = [piece]) ∧
      ∀ pieces, List.Forall₂ (fun old new => trim new = trim old) (splitArguments args) pieces →
        (∀ piece ∈ pieces, ¬ EndsEscaping piece.toList) →
          splitArguments (join "," pieces) = pieces := by
  refine ⟨?_, ?_, fun piece hpiece => ?_, fun pieces hpieces hends => ?_⟩
  · rw [splitArguments, Ne, List.map_eq_nil_iff]
    exact Chars.splitFrom_ne_nil .outside [] args.toList
  · rw [← String.toList_inj, toList_join, toList_splitArguments]
    exact Chars.intercalate_splitArguments args.toList
  · obtain ⟨s, hs, rfl⟩ := List.mem_map.mp hpiece
    rw [splitArguments, String.toList_ofList, Chars.splitArguments_of_mem hs, List.map_singleton]
  · have hchars : List.Forall₂ (fun old new => Chars.trim new = Chars.trim old)
        (Chars.splitArguments args.toList) (pieces.map String.toList) := by
      rw [← toList_splitArguments, List.forall₂_map_left_iff, List.forall₂_map_right_iff]
      exact hpieces.imp fun old new h => String.ofList_injective h
    have hsplit := Chars.splitArguments_intercalate hchars (List.forall_mem_map.mpr hends)
    have hseparator : ",".toList = [','] := rfl
    rw [splitArguments, toList_join, hseparator, hsplit]
    simp [Function.comp_def]

/-- White space around the arguments of a gradient does not change where they are cut. -/
theorem splitArguments_lossless_final_gradient :
    splitArguments "left,rgb(0, 0, 0) 10%,'a,b'" = ["left", "rgb(0, 0, 0) 10%", "'a,b'"] ∧
      splitArguments " left ,rgb(0, 0, 0) 10%,  'a,b'" =
        [" left ", "rgb(0, 0, 0) 10%", "  'a,b'"] := by
  have hsplit : splitArguments "left,rgb(0, 0, 0) 10%,'a,b'" =
      ["left", "rgb(0, 0, 0) 10%", "'a,b'"] := by decide
  refine ⟨hsplit, (splitArguments_lossless_final "left,rgb(0, 0, 0) 10%,'a,b'").2.2.2
    [" left ", "rgb(0, 0, 0) 10%", "  'a,b'"] ?_ (by decide)⟩
  rw [hsplit]
  exact .cons (by decide) (.cons (by decide) (.cons (by decide) .nil))

end Text
end VendorPrefixing
