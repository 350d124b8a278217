import Mathlib.Data.List.Infix
import VendorPrefixing.Sheet.Comment

/-!
# Texts without comments

A text in which no opening mark of a comment stands is read as it is.

Main results:

- Theorem `IsCommentFree.append`: two such texts make one where they meet at another
  character.
- Theorem `Chars.settle_eq_self`: settling comments leaves such a text alone.
-/

namespace VendorPrefixing

/-- No comment is opened anywhere in a text. -/
def IsCommentFree (s : List Char) : Prop :=
  ¬ ['/', '*'] <:+: s

namespace IsCommentFree

variable {c : Char} {s t : List Char}

theorem of_isInfix (h : IsCommentFree t) (hst : s <:+: t) : IsCommentFree s :=
  fun hpart => h (hpart.trans hst)

theorem tail (h : IsCommentFree (c :: s)) : IsCommentFree s :=
  h.of_isInfix (List.suffix_cons c s).isInfix

theorem nil : IsCommentFree [] := by
  rw [IsCommentFree, List.infix_nil]
  exact nofun

theorem cons (hc : c = '/' → s.head? ≠ some '*') (h : IsCommentFree s) :
    IsCommentFree (c :: s) := by
  rw [IsCommentFree, List.infix_cons_iff, not_or]
  refine ⟨?_, h⟩
  rintro ⟨rest, heq⟩
  obtain ⟨rfl, rfl⟩ := List.cons.inj heq
  exact hc rfl rfl

theorem cons_of_ne (hc : c ≠ '/') (h : IsCommentFree s) : IsCommentFree (c :: s) :=
  h.cons fun heq => absurd heq hc

/-- No star follows a slash. -/
theorem head?_ne (h : IsCommentFree ('/' :: s)) : s.head? ≠ some '*' := by
  intro hhead
  cases s with
  | nil => cases hhead
  | cons d s =>
    obtain rfl := Option.some.inj hhead
    exact h (List.prefix_append ['/', '*'] s).isInfix

theorem isPrefixOf_eq_false (h : IsCommentFree s) : ['/', '*'].isPrefixOf s = false := by
  rw [← Bool.not_eq_true, List.isPrefixOf_iff_prefix]
  exact fun hlead => h hlead.isInfix

/-- Two texts without comments make one, where no slash meets a star. -/
theorem append (hs : IsCommentFree s) (ht : IsCommentFree t)
    (h : s.getLast? = some '/' → t.head? ≠ some '*') : IsCommentFree (s ++ t) := by
  induction s with
  | nil => exact ht
  | cons c s ih =>
    cases s with
    | nil =>
      refine cons (fun hc => ?_) ht
      exact h (by rw [hc]; rfl)
    | cons d s =>
      refine cons ?_ (ih hs.tail (by rwa [List.getLast?_cons_cons] at h))
      rintro rfl
      exact hs.head?_ne

/-- A text without slashes opens no comment, whatever follows. -/
theorem append_of_not_mem (hs : '/' ∉ s) (ht : IsCommentFree t) : IsCommentFree (s ++ t) := by
  refine append (fun hpart => hs (hpart.subset List.mem_cons_self)) ht fun hlast => ?_
  exact absurd (List.mem_of_getLast? hlast) hs

theorem of_not_mem (hs : '/' ∉ s) : IsCommentFree s := by
  rw [← List.append_nil s]
  exact append_of_not_mem hs nil

/-- A text without comments stays so in front of a text that begins with no star. -/
theorem append_cons (hs : IsCommentFree s) (hc : c ≠ '*') (ht : IsCommentFree (c :: t)) :
    IsCommentFree (s ++ c :: t) :=
  append hs ht fun _ hhead => hc (Option.some.inj hhead)

end IsCommentFree

namespace Chars

theorem settleFrom_eq_self_of_isCommentFree {place : CommentPlace} {before s : List Char}
    (hplace : ∀ t left, place ≠ .comment t left) (h : IsCommentFree s) :
    settleFrom place before s = s := by
  induction s generalizing place before with
  | nil => rfl
  | cons c rest ih =>
    have hrest := h.tail
    cases place with
    | comment t left => exact absurd rfl (hplace t left)
    | escaped q => rw [settleFrom, ih (by simp) hrest]
    | quoted q =>
      rw [settleFrom, ih _ hrest]
      split
      · simp
      · split <;> simp
    | plain =>
      have hopens : (c = '/' && startsWith (· == '*') rest) = false := by
        by_cases hc : c = '/'
        · subst hc
          have hhead := h.head?_ne
          cases rest with
          | nil => rfl
          | cons d rest => simpa [startsWith] using hhead
        · simp [hc]
      rw [settleFrom]
      split
      · rw [ih (by simp) hrest]
      · rw [hopens, if_neg Bool.false_ne_true, ih (by simp) hrest]

/-- Settling comments leaves a text without comments alone. -/
theorem settle_eq_self {s : List Char} (h : IsCommentFree s) : settle s = s :=
  settleFrom_eq_self_of_isCommentFree (by simp) h

end Chars
end VendorPrefixing
