import VendorPrefixing.Proofs.Decimal.Reading
import VendorPrefixing.Proofs.Spelling.Bare
import VendorPrefixing.Proofs.Value.Closing

/-!
# Calm texts

Where the parenthesis stands that closes a call depends on quotes, backslashes and parentheses
alone.  A text without them may be put in place of another one, and what was closed stays closed.
Marking gradients only exchanges such texts.

Main results:

- Theorem `Edited.isSome_closeParen?`: edits of calm texts neither open nor close a call.
- Theorem `Gradient.isCalm_of_turns`: directions are calm before and after they are turned.
-/

namespace VendorPrefixing

/-- The characters that decide the nesting inside a value. -/
def nestingChars : List Char :=
  ['\\', '"', '\'', '(', ')']

/-- Whether a text is not empty and holds nothing that decides the nesting. -/
structure IsCalm (s : List Char) : Prop where
  ne_nil : s ≠ []
  not_mem : ∀ c ∈ nestingChars, c ∉ s

/-- Words are calm. -/
theorem AreWord.isCalm {s : List Char} (h : AreWord s) : IsCalm s where
  ne_nil := h.ne_nil
  not_mem := by
    have hnone : ∀ c ∈ nestingChars, VendorPrefixing.isNameChar c = false := by decide
    intro c hc hmem
    have hname := h.isNameChar c hmem
    rw [hnone c hc] at hname
    cases hname

/-! ## Nesting -/

namespace Nesting

variable {n : Nesting} {c : Char}

/-- A character that does not decide the nesting only ends an escape. -/
theorem IsProper.step_of_not_mem (h : n.IsProper) (hc : c ∉ nestingChars) :
    n.step c = { n with escaped := false } := by
  simp only [nestingChars, List.mem_cons, List.not_mem_nil, or_false, not_or] at hc
  obtain ⟨hbackslash, hdouble, hsingle, hopen, hclose⟩ := hc
  obtain ⟨quote, escaped, depth⟩ := n
  cases escaped with
  | true => rfl
  | false =>
    cases quote with
    | none => simp [Nesting.step, hbackslash, hdouble, hsingle, hopen, hclose]
    | some q =>
      have hne : c ≠ q := by
        rintro rfl
        exact (h c rfl).elim hdouble hsingle
      simp [Nesting.step, hbackslash, hne]

end Nesting

namespace Chars

variable {n : Nesting} {c : Char} {s : List Char}

theorem isSome_closeParen?_cons (hn : n.IsProper) (hc : c ∉ nestingChars) :
    (closeParen? n (c :: s)).isSome = (closeParen? { n with escaped := false } s).isSome := by
  have hclose : c ≠ ')' := by
    rintro rfl
    exact hc (by decide)
  rw [closeParen?, if_neg (by simp [hclose]), Option.isSome_map, hn.step_of_not_mem hc]

/-- A calm text only ends an escape. -/
theorem isSome_closeParen?_append {front : List Char} (hfront : IsCalm front) (hn : n.IsProper) :
    (closeParen? n (front ++ s)).isSome =
      (closeParen? { n with escaped := false } s).isSome := by
  obtain ⟨hne, hnone⟩ := hfront
  induction front generalizing n with
  | nil => exact absurd rfl hne
  | cons c front ih =>
    have hc : c ∉ nestingChars := fun hmem => hnone c hmem List.mem_cons_self
    rw [List.cons_append, isSome_closeParen?_cons hn hc]
    cases front with
    | nil => rfl
    | cons d front =>
      have hproper : Nesting.IsProper { n with escaped := false } := hn
      exact ih hproper (List.cons_ne_nil d front)
        fun e he hmem => hnone e he (List.mem_cons_of_mem c hmem)

end Chars

/-- Edits of calm texts neither open nor close a call. -/
theorem Edited.isSome_closeParen? {edits : List Char → List Char → Prop} {free : Bool}
    {s t : List Char} {news : List (List Char)} {n : Nesting}
    (hcalm : ∀ old new, edits old new → IsCalm old ∧ IsCalm new)
    (h : Edited edits free s t news) (hn : n.IsProper) :
    (Chars.closeParen? n s).isSome = (Chars.closeParen? n t).isSome := by
  induction h generalizing n with
  | nil => rfl
  | keep c _ ih =>
    rw [Chars.closeParen?, Chars.closeParen?]
    split
    · rfl
    · rw [Option.isSome_map, Option.isSome_map, ih (hn.step c)]
  | edit hedit _ _ ih =>
    have hproper : Nesting.IsProper { n with escaped := false } := hn
    obtain ⟨hold, hnew⟩ := hcalm _ _ hedit
    rw [Chars.isSome_closeParen?_append hold hn, Chars.isSome_closeParen?_append hnew hn,
      ih hproper]

/-! ## Directions -/

namespace Gradient

variable {vendor : String} {old new : List Char}

theorem not_mem_sides : ∀ c ∈ nestingChars, c ≠ ' ' ∧ ∀ side ∈ sides, c ∉ side.toList := by
  decide

theorem not_isBlank_of_mem_nestingChars : ∀ c ∈ nestingChars, isBlank c = false := by
  decide

/-- Sides are calm before and after they are turned. -/
theorem isCalm_of_turnsSides (h : TurnsSides (Chars.trim old) new) : IsCalm old ∧ IsCalm new := by
  obtain ⟨olds, news, hne, hopposite, hwords, rfl⟩ := h
  obtain ⟨holds, hnews⟩ := subset_sides_of_forall₂ hopposite
  refine ⟨⟨?_, ?_⟩, ?_, ?_⟩
  · rintro rfl
    cases hwords
  · intro c hc hmem
    have hblank := not_isBlank_of_mem_nestingChars c hc
    have hkept := Chars.mem_trim hblank hmem
    obtain ⟨word, hword, hcw⟩ := Chars.exists_mem_wordsFrom hblank (.inr hkept)
    have hside : String.ofList word ∈ "to" :: olds := by
      rw [← hwords]
      exact List.mem_map_of_mem hword
    rw [← String.toList_ofList (l := word)] at hcw
    rcases List.mem_cons.mp hside with hto | hside
    · rw [hto] at hcw
      have hnone : ∀ c ∈ nestingChars, c ∉ "to".toList := by decide
      exact hnone c hc hcw
    · exact (not_mem_sides c hc).2 _ (holds hside) hcw
  · intro hnil
    have hlast := getLast?_join_sides (fun hempty => ?_) hnews
    · obtain ⟨c, -, hc⟩ := hlast
      rw [hnil] at hc
      cases hc
    · rw [hempty] at hopposite
      exact hne (List.forall₂_nil_right_iff.mp hopposite)
  · intro c hc
    exact not_mem_join_sides (not_mem_sides c hc).1 (not_mem_sides c hc).2 hnews

/-- Angles are calm before and after they are turned. -/
theorem isCalm_of_oldAngle? (h : oldAngle? (Chars.trim old) = some new) :
    IsCalm old ∧ IsCalm new := by
  obtain ⟨number, hold, hnumber, -⟩ := turnsAngle_of_oldAngle? h
  refine ⟨⟨?_, ?_⟩, ?_, ?_⟩
  · rintro rfl
    have hlength := congrArg List.length hold
    simp at hlength
  · intro c hc hmem
    have hkept := Chars.mem_trim (not_isBlank_of_mem_nestingChars c hc) hmem
    rw [hold, List.mem_append] at hkept
    rcases hkept with hdigits | hunit
    · obtain ⟨x, hx⟩ := Option.isSome_iff_exists.mp hnumber
      have hletters : ∀ c ∈ nestingChars, c.isDigit = false ∧ c ≠ '-' ∧ c ≠ '+' ∧ c.toLower = c ∧
          c ∉ ['e', 'E', '.', 'i', 'n', 'f', 't', 'y', 'a'] := by decide
      obtain ⟨hdigit, hminus, hplus, hlower, hother⟩ := hletters c hc
      exact Chars.not_mem_of_real? ⟨hdigit, hminus, hplus⟩ hlower hother hx hdigits
    · have hnone : ∀ c ∈ nestingChars, c ∉ "deg".toList := by decide
      exact hnone c hc hunit
  · rintro rfl
    cases getLast?_of_oldAngle? h
  · intro c hc hmem
    have hnone : ∀ c ∈ nestingChars, c.isDigit = false ∧
        c ∉ ['-', '.', 'i', 'n', 'f', 'N', 'a', 'd', 'e', 'g'] := by decide
    rcases mem_of_oldAngle? h hmem with hdigit | hletter
    · rw [(hnone c hc).1] at hdigit
      cases hdigit
    · exact (hnone c hc).2 hletter

/-- Directions are calm before and after they are turned. -/
theorem isCalm_of_turns (h : Turns vendor old new) : IsCalm old ∧ IsCalm new := by
  rcases h with hside | ⟨-, hangle⟩
  · exact isCalm_of_turnsSides (fromSide?_eq_some_iff.mp hside)
  · exact isCalm_of_oldAngle? hangle

/-- Marking gradients only exchanges calm texts. -/
theorem isCalm_of_edits {m : Matcher} (hnames : ∀ name ∈ m.names, IsWord name)
    (hmarked : ∀ name ∈ m.names, IsWord (vendor ++ name)) (h : Edits m vendor old new) :
    IsCalm old ∧ IsCalm new := by
  rcases h with ⟨name, hname, rfl, rfl⟩ | hturns
  · exact ⟨(hnames name hname).areWord.isCalm, (hmarked name hname).areWord.isCalm⟩
  · exact isCalm_of_turns hturns

end Gradient
end VendorPrefixing
