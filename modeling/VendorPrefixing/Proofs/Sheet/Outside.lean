import Mathlib.Data.List.Infix
import VendorPrefixing.Sheet.Stretch

/-!
# Outside of strings and comments

What is a string and what is a comment in a text depends on where the ones before them
end.  A text is therefore taken apart from its beginning, in one of two ways: either a
backslash outside of strings and comments protects the character after it, or it is a
character like any other.  The parser reads running text in the first way; comments are
looked for in the second.

Main results:

- Theorem `InComment.escaping`: the two ways find the same comments in a text whose
  backslashes protect no quotes and no slashes in front of stars.
- Theorem `Outside.through_eq_plain`: running text is plain wherever the first way is
  outside of strings and comments.
-/

namespace VendorPrefixing

/-- The inside of a string that ends at the quote `q`. -/
inductive IsStringBody (q : Char) : List Char → Prop
  | nil : IsStringBody q []
  | snoc {body : List Char} {c : Char} (h : IsStringBody q body) (hquote : c ≠ q)
    (hescape : c ≠ '\\') : IsStringBody q (body ++ [c])
  | escape {body : List Char} {c : Char} (h : IsStringBody q body) :
    IsStringBody q (body ++ ['\\', c])

/-- A character that begins a string. -/
def IsQuote (c : Char) : Prop :=
  c = '"' ∨ c = '\''

/-- A whole string with its quotes. -/
def IsString (t : List Char) : Prop :=
  ∃ q body, IsQuote q ∧ IsStringBody q body ∧ t = q :: (body ++ [q])

/-- A whole comment, which ends at its first closing mark. -/
def IsComment (t : List Char) : Prop :=
  ∃ text, ¬ ['*', '/'] <:+: text ∧ t = '/' :: '*' :: (text ++ ['*', '/'])

/-- The place between two texts is outside of strings and comments.  If `escaping`, a
backslash there protects the character after it. -/
inductive Outside (escaping : Bool) : List Char → List Char → Prop
  | nil {rest : List Char} : Outside escaping [] rest
  | char {front rest : List Char} {c : Char} (h : Outside escaping front (c :: rest))
    (hquote : ¬ IsQuote c) (hescape : escaping = true → c ≠ '\\')
    (hslash : c = '/' → rest.head? ≠ some '*') : Outside escaping (front ++ [c]) rest
  | escape {front rest : List Char} {c : Char} (hescaping : escaping = true)
    (h : Outside escaping front ('\\' :: c :: rest)) : Outside escaping (front ++ ['\\', c]) rest
  | string {front t rest : List Char} (h : Outside escaping front (t ++ rest))
    (ht : IsString t) : Outside escaping (front ++ t) rest
  | comment {front t rest : List Char} (h : Outside escaping front (t ++ rest))
    (ht : IsComment t) : Outside escaping (front ++ t) rest

/-- The character behind `k` others stands in a comment. -/
def InComment (escaping : Bool) (s : List Char) (k : Nat) : Prop :=
  ∃ front t rest, s = front ++ (t ++ rest) ∧ Outside escaping front (t ++ rest) ∧ IsComment t ∧
    front.length ≤ k ∧ k < front.length + t.length

/-- Outside of strings and comments no backslash protects a quote or the slash of an
opening mark. -/
def EscapesNoMark (s : List Char) : Prop :=
  ∀ front c rest, s = front ++ '\\' :: c :: rest → Outside true front ('\\' :: c :: rest) →
    ¬ IsQuote c ∧ (c = '/' → rest.head? ≠ some '*')

variable {s front rest : List Char} {k : Nat}

/-! ## The two ways -/

/-- Up to a backslash that has just been read, the two ways agree on what is outside. -/
theorem Outside.escaping_or (h : Outside false front rest) (hs : EscapesNoMark (front ++ rest)) :
    Outside true front rest ∨ ∃ u, front = u ++ ['\\'] ∧ Outside true u ('\\' :: rest) := by
  induction h with
  | nil => exact .inl .nil
  | @char front rest c h hquote _ hslash ih =>
    rw [List.append_assoc, List.singleton_append] at hs
    obtain hfront | ⟨u, rfl, hu⟩ := ih hs
    · by_cases hc : c = '\\'
      · subst hc
        exact .inr ⟨front, rfl, hfront⟩
      · exact .inl (.char hfront hquote (fun _ => hc) hslash)
    · rw [List.append_assoc]
      exact .inl (.escape rfl hu)
  | escape hescaping => cases hescaping
  | @string front t rest h ht ih =>
    rw [List.append_assoc] at hs
    obtain hfront | ⟨u, rfl, hu⟩ := ih hs
    · exact .inl (.string hfront ht)
    · obtain ⟨q, body, hq, -, rfl⟩ := ht
      exact absurd hq (hs u q _ (List.append_assoc ..) hu).1
  | @comment front t rest h ht ih =>
    rw [List.append_assoc] at hs
    obtain hfront | ⟨u, rfl, hu⟩ := ih hs
    · exact .inl (.comment hfront ht)
    · obtain ⟨text, -, rfl⟩ := ht
      exact absurd rfl ((hs u '/' _ (List.append_assoc ..) hu).2 rfl)

/-- A comment that is found without heeding backslashes is one if they protect no marks. -/
theorem InComment.escaping (h : InComment false s k) (hs : EscapesNoMark s) :
    InComment true s k := by
  obtain ⟨front, t, rest, rfl, hfront, ht, hk⟩ := h
  obtain hfront | ⟨u, rfl, hu⟩ := hfront.escaping_or hs
  · exact ⟨front, t, rest, rfl, hfront, ht, hk⟩
  · obtain ⟨text, -, rfl⟩ := ht
    exact absurd rfl ((hs u '/' _ (List.append_assoc ..) hu).2 rfl)

/-! ## Running text -/

namespace StretchPlace

/-- The place behind a text that `rest` follows. -/
def through (place : StretchPlace) (size : Nat) : List Char → List Char → StretchPlace
  | [], _ => place
  | c :: s, rest => (place.after size c (s ++ rest).head?).through (size + 1) s rest

theorem through_append (place : StretchPlace) (size : Nat) (s t rest : List Char) :
    place.through size (s ++ t) rest =
      (place.through size s (t ++ rest)).through (size + s.length) t rest := by
  induction s generalizing place size with
  | nil => rfl
  | cons c s ih =>
    rw [List.cons_append, through, ih, through, List.append_assoc, List.length_cons,
      Nat.add_assoc, Nat.add_comm 1]

theorem through_quoted {q : Char} {body : List Char} (h : IsStringBody q body)
    (start size : Nat) (rest : List Char) :
    (quoted q start).through size body rest = quoted q start := by
  induction h generalizing rest with
  | nil => rfl
  | snoc _ hquote hescape ih =>
    rw [through_append, ih]
    simp [through, after, hquote, hescape]
  | escape _ ih =>
    rw [through_append, ih]
    simp [through, after]

theorem through_comment {text : List Char} (h : ¬ ['*', '/'] <:+: text) (start size : Nat)
    (rest : List Char) :
    (comment start).through size text ('*' :: rest) = comment start := by
  induction text generalizing size with
  | nil => rfl
  | cons c text ih =>
    rw [List.infix_cons_iff, not_or] at h
    have hplace : ¬ (c = '*' ∧ (text ++ '*' :: rest).head? = some '/') := by
      rintro ⟨rfl, hhead⟩
      cases text with
      | nil => cases hhead
      | cons d text =>
        obtain rfl := Option.some.inj hhead
        exact h.1 (List.prefix_append ['*', '/'] text)
    rw [through, after, if_neg (by simpa using hplace), ih h.2]

theorem through_string {t : List Char} (h : IsString t) (size : Nat) (rest : List Char) :
    plain.through size t rest = plain := by
  obtain ⟨q, body, hq, hbody, rfl⟩ := h
  have hopen : ∀ next, plain.after size q next = quoted q size := by
    rcases hq with rfl | rfl <;> exact fun _ => rfl
  have hend : q ≠ '\\' := by rcases hq with rfl | rfl <;> decide
  rw [through, hopen, through_append, through_quoted hbody]
  simp [through, after, hend]

theorem through_isComment {t : List Char} (h : IsComment t) (size : Nat) (rest : List Char) :
    plain.through size t rest = plain := by
  obtain ⟨text, htext, rfl⟩ := h
  have hopen : plain.through size ['/', '*'] (text ++ ['*', '/'] ++ rest) = comment size := rfl
  have hclose : ∀ n, (comment size).through n ['*', '/'] rest = plain := fun _ => rfl
  have hsplit : '/' :: '*' :: (text ++ ['*', '/']) = ['/', '*'] ++ (text ++ ['*', '/']) := rfl
  rw [hsplit, through_append, hopen, through_append, List.cons_append, through_comment htext,
    hclose]

end StretchPlace

open StretchPlace in
/-- Running text is plain outside of strings and comments. -/
theorem Outside.through_eq_plain (h : Outside true front rest) (size : Nat) :
    plain.through size front rest = plain := by
  induction h with
  | nil => rfl
  | @char front rest c _ hquote hescape hslash ih =>
    rw [through_append, List.singleton_append, ih]
    have hmark : ¬ (c = '/' ∧ rest.head? = some '*') := fun hc => hslash hc.1 hc.2
    simp only [IsQuote, not_or] at hquote
    simp only [through, after, List.nil_append, hquote.1, hquote.2, hescape rfl, decide_false,
      Bool.or_self, Bool.false_eq_true, if_false]
    rw [if_neg (by simpa using hmark)]
  | escape _ _ ih =>
    rw [through_append, List.cons_append, List.singleton_append, ih]
    rfl
  | string _ ht ih => rw [through_append, ih, through_string ht]
  | comment _ ht ih => rw [through_append, ih, through_isComment ht]

end VendorPrefixing
