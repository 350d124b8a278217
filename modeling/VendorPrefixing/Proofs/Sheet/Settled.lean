import VendorPrefixing.Proofs.Sheet.Outside
import VendorPrefixing.Proofs.Sheet.Written

/-!
# What settling comments changes

Unless a comment is cut out, a text keeps its length when its comments are settled: each
character stays or stands in a comment and becomes a blank.  Line feeds stay.

Main results:

- Theorem `Chars.settleFrom_step`: the scan settles one character after the other and
  keeps track of what it is inside of.
- Theorem `Chars.settle_cases`: in a text that keeps its length, each character stays or
  is made blank inside a comment.
- Theorem `Chars.settle_lineFeed`: such a text keeps its lines.
-/

namespace VendorPrefixing

/-- What the scan for comments is inside of is true of the place between two texts. -/
def CommentPlace.IsAt (front rest : List Char) : CommentPlace → Prop
  | plain => Outside false front rest
  | quoted q => ∃ u body, front = u ++ q :: body ∧ Outside false u (q :: (body ++ rest)) ∧
      IsQuote q ∧ IsStringBody q body
  | escaped q => ∃ u body, front = u ++ q :: (body ++ ['\\']) ∧
      Outside false u (q :: (body ++ '\\' :: rest)) ∧ IsQuote q ∧ IsStringBody q body
  | comment _ left => ∃ u t back, front ++ rest = u ++ (t ++ back) ∧
      Outside false u (t ++ back) ∧ IsComment t ∧ 0 < left ∧ u.length ≤ front.length ∧
      front.length + left = u.length + t.length

namespace Chars

variable {place : CommentPlace} {before front s rest : List Char} {c : Char} {k : Nat}

/-- What is found stands nowhere before. -/
theorem not_infix_of_find? {needle : List Char} {n : Nat} (hne : needle ≠ [])
    (h : find? needle s = some n) : ¬ needle <:+: s.take n := by
  induction s generalizing n with
  | nil => simpa using hne
  | cons c s ih =>
    rw [find?] at h
    split at h
    · cases h
      simpa using hne
    · rename_i hlead
      obtain ⟨m, hm, rfl⟩ := Option.map_eq_some_iff.mp h
      rw [List.take_succ_cons, List.infix_cons_iff, not_or]
      refine ⟨fun hpart => hlead (List.isPrefixOf_iff_prefix.mpr ?_), ih hm⟩
      exact hpart.trans ((List.prefix_cons_inj c).mpr (List.take_prefix m s))

/-- A comment goes on up to the end that is found. -/
theorem exists_comment_of_commentTail? {size : Nat} (h : commentTail? s = some size) :
    ∃ t back, '/' :: '*' :: s = t ++ back ∧ IsComment t ∧ t.length = size + 2 := by
  obtain ⟨n, hn, rfl⟩ := Option.map_eq_some_iff.mp h
  have hfirst := not_infix_of_find? (List.cons_ne_nil _ _) hn
  obtain ⟨text, back, rfl, rfl⟩ := exists_eq_of_find? hn
  rw [List.take_left] at hfirst
  exact ⟨_, back, by simp, ⟨text, hfirst, rfl⟩, by simp⟩

/-! ## One step of the scan -/

/-- The next character of a text is settled, and the scan goes on behind it.  The character
stays, unless it stands in a comment. -/
def SettlesNext (place : CommentPlace) (before : List Char) (c : Char) (rest : List Char) :
    Prop :=
  ∃ t place', settleFrom place before (c :: rest) =
      treated t c ++ settleFrom place' (c :: before) rest ∧
    place'.IsAt (before.reverse ++ [c]) rest ∧
    (t = .keep ∨ InComment false (before.reverse ++ c :: rest) before.length)

theorem settlesNext_of_comment {t : Treatment} {left : Nat}
    (h : (CommentPlace.comment t left).IsAt before.reverse (c :: rest)) :
    SettlesNext (.comment t left) before c rest := by
  obtain ⟨u, com, back, htext, hu, hcom, hleft, hle, hlen⟩ := h
  rw [List.length_reverse] at hle hlen
  have hin : InComment false (before.reverse ++ c :: rest) before.length :=
    ⟨u, com, back, htext, hu, hcom, hle, by omega⟩
  refine ⟨t, _, by rw [settleFrom], ?_, .inr hin⟩
  rw [← List.singleton_append, ← List.append_assoc] at htext
  split
  · -- The last character of the comment.
    obtain ⟨hfront, rfl⟩ := List.append_inj (htext.trans (List.append_assoc ..).symm)
      (by simp; omega)
    rw [CommentPlace.IsAt, hfront]
    exact .comment hu hcom
  · exact ⟨u, com, back, htext, hu, hcom, by omega, by simp; omega, by simp; omega⟩

theorem settlesNext_of_quoted {q : Char}
    (h : (CommentPlace.quoted q).IsAt before.reverse (c :: rest)) :
    SettlesNext (.quoted q) before c rest := by
  obtain ⟨u, body, hfront, hu, hq, hbody⟩ := h
  refine ⟨.keep, _, by rw [settleFrom]; rfl, ?_, .inl rfl⟩
  rw [hfront]
  split
  · rename_i hescape
    subst hescape
    exact ⟨u, body, by simp, hu, hq, hbody⟩
  · rename_i hescape
    split
    · rename_i hend
      subst hend
      have hstring : IsString (c :: (body ++ [c])) := ⟨c, body, hq, hbody, rfl⟩
      rw [CommentPlace.IsAt, List.append_assoc]
      exact .string (by simpa using hu) hstring
    · rename_i hend
      exact ⟨u, body ++ [c], by simp, by simpa using hu, hq, .snoc hbody hend hescape⟩

theorem settlesNext_of_escaped {q : Char}
    (h : (CommentPlace.escaped q).IsAt before.reverse (c :: rest)) :
    SettlesNext (.escaped q) before c rest := by
  obtain ⟨u, body, hfront, hu, hq, hbody⟩ := h
  refine ⟨.keep, _, by rw [settleFrom]; rfl, ?_, .inl rfl⟩
  rw [hfront]
  exact ⟨u, body ++ ['\\', c], by simp, by simpa using hu, hq, .escape hbody⟩

theorem settleFrom_char (hquote : ¬ IsQuote c) (hslash : c = '/' → rest.head? ≠ some '*') :
    settleFrom .plain before (c :: rest) = c :: settleFrom .plain (c :: before) rest := by
  rw [settleFrom, if_neg (by simpa [IsQuote] using hquote), if_neg]
  simpa [startsWith, Option.any_eq_true] using hslash

theorem settleFrom_mark_of_none (h : commentTail? s = none) :
    settleFrom .plain before ('/' :: '*' :: s) = '/' :: '*' :: s := by
  simp [settleFrom, startsWith, h]

theorem settleFrom_mark {size : Nat} (h : commentTail? s = some size) :
    settleFrom .plain before ('/' :: '*' :: s) =
      treated (treatment before (s.drop size)) '/' ++
        settleFrom (.comment (treatment before (s.drop size)) (size + 1)) ('/' :: before)
          ('*' :: s) := by
  conv_lhs => rw [settleFrom]
  simp [startsWith, h]

theorem settlesNext_of_mark (h : Outside false before.reverse ('/' :: '*' :: s)) :
    settleFrom .plain before ('/' :: '*' :: s) = '/' :: '*' :: s ∨
      SettlesNext .plain before '/' ('*' :: s) := by
  cases hsize : commentTail? s with
  | none => exact .inl (settleFrom_mark_of_none hsize)
  | some size =>
    obtain ⟨t, back, htext, ht, hlen⟩ := exists_comment_of_commentTail? hsize
    rw [htext] at h
    have hin : InComment false (before.reverse ++ '/' :: '*' :: s) before.length :=
      ⟨before.reverse, t, back, by rw [htext], h, ht, by simp, by simp; omega⟩
    refine .inr ⟨_, _, settleFrom_mark hsize, ?_, .inr hin⟩
    exact ⟨before.reverse, t, back, by rw [← htext]; simp, h, ht, by simp, by simp,
      by simp; omega⟩

/-- Outside of strings and comments the scan stops at an opening mark without an end. -/
theorem settlesNext_of_plain (h : Outside false before.reverse (c :: rest)) :
    settleFrom .plain before (c :: rest) = c :: rest ∨ SettlesNext .plain before c rest := by
  by_cases hquote : IsQuote c
  · refine .inr ⟨.keep, .quoted c, ?_, ⟨before.reverse, [], rfl, h, hquote, .nil⟩, .inl rfl⟩
    rw [settleFrom, if_pos (by simpa [IsQuote] using hquote)]
    rfl
  · by_cases hmark : c = '/' ∧ rest.head? = some '*'
    · obtain ⟨rfl, hstar⟩ := hmark
      obtain ⟨s, rfl⟩ := List.head?_eq_some_iff.mp hstar
      exact settlesNext_of_mark h
    · have hslash : c = '/' → rest.head? ≠ some '*' := fun hc hstar => hmark ⟨hc, hstar⟩
      exact .inr ⟨.keep, .plain, settleFrom_char hquote hslash,
        .char h hquote (fun heq => absurd heq Bool.false_ne_true) hslash, .inl rfl⟩

/-- The scan settles one character after the other and keeps track of what it is inside of.
It stops at an opening mark without an end. -/
theorem settleFrom_step (h : place.IsAt before.reverse (c :: rest)) :
    settleFrom place before (c :: rest) = c :: rest ∨ SettlesNext place before c rest := by
  cases place with
  | plain => exact settlesNext_of_plain h
  | quoted q => exact .inr (settlesNext_of_quoted h)
  | escaped q => exact .inr (settlesNext_of_escaped h)
  | comment t left => exact .inr (settlesNext_of_comment h)

/-! ## Whole texts -/

theorem length_treated_le (t : Treatment) (c : Char) : (treated t c).length ≤ 1 := by
  cases t with
  | keep | cut => simp [treated]
  | blank =>
    rw [treated]
    split <;> exact Nat.le_refl 1

/-- A text gets no longer. -/
theorem length_settleFrom_le (h : place.IsAt before.reverse s) :
    (settleFrom place before s).length ≤ s.length := by
  induction s generalizing place before with
  | nil => exact Nat.le_refl _
  | cons c rest ih =>
    obtain heq | ⟨t, place', heq, hplace, -⟩ := settleFrom_step h
    · rw [heq]
    · have hplace' : place'.IsAt (c :: before).reverse rest := by simpa using hplace
      have hrest := ih hplace'
      have hc := length_treated_le t c
      rw [heq, List.length_append, List.length_cons]
      omega

/-- A character that is not cut out stays or becomes a blank. -/
theorem treated_cases {t : Treatment} (h : (treated t c).length = 1) :
    treated t c = [c] ∨ treated t c = [' '] ∧ c ≠ '\n' ∧ t ≠ .keep := by
  cases t with
  | keep => exact .inl rfl
  | cut => cases h
  | blank =>
    rw [treated]
    split
    · rename_i hc
      exact .inl (hc ▸ rfl)
    · rename_i hc
      exact .inr ⟨rfl, hc, by decide⟩

/-- In a text that keeps its length, each character stays or is made blank inside a
comment. -/
theorem settleFrom_cases (h : place.IsAt before.reverse s)
    (hlength : (settleFrom place before s).length = s.length) (k : Nat) :
    (settleFrom place before s)[k]? = s[k]? ∨
      (settleFrom place before s)[k]? = some ' ' ∧ s[k]? ≠ some '\n' ∧
        InComment false (before.reverse ++ s) (before.length + k) := by
  induction s generalizing place before k with
  | nil => exact .inl rfl
  | cons c rest ih =>
    obtain heq | ⟨t, place', heq, hplace, hin⟩ := settleFrom_step h
    · exact .inl (by rw [heq])
    · have hplace' : place'.IsAt (c :: before).reverse rest := by simpa using hplace
      have hrest := length_settleFrom_le hplace'
      have hc := length_treated_le t c
      rw [heq, List.length_append, List.length_cons] at hlength
      have hone : (treated t c).length = 1 := by omega
      rw [heq]
      cases k with
      | zero =>
        obtain htreated | ⟨htreated, hfeed, hkeep⟩ := treated_cases hone
        · exact .inl (by rw [htreated]; rfl)
        · exact .inr ⟨by rw [htreated]; rfl, by simpa using hfeed, hin.resolve_left hkeep⟩
      | succ k =>
        have htail : (treated t c ++ settleFrom place' (c :: before) rest)[k + 1]? =
            (settleFrom place' (c :: before) rest)[k]? := by
          rw [List.getElem?_append_right (by omega), hone, Nat.add_sub_cancel]
        have hnext := ih hplace' (by omega) k
        rw [htail, List.getElem?_cons_succ]
        simpa [Nat.add_assoc, Nat.add_comm 1] using hnext

variable (hlength : (settle s).length = s.length)

include hlength

/-- In a text that keeps its length, each character stays or is made blank inside a
comment. -/
theorem settle_cases (k : Nat) : (settle s)[k]? = s[k]? ∨
    (settle s)[k]? = some ' ' ∧ s[k]? ≠ some '\n' ∧ InComment false s k := by
  have hplace : CommentPlace.plain.IsAt ([] : List Char).reverse s := .nil
  have hcases := settleFrom_cases hplace hlength k
  rwa [List.length_nil, Nat.zero_add] at hcases

/-- A text that keeps its length keeps its lines. -/
theorem settle_lineFeed (k : Nat) : (settle s)[k]? = some '\n' ↔ s[k]? = some '\n' := by
  obtain heq | ⟨heq, hfeed, -⟩ := settle_cases hlength k
  · rw [heq]
  · exact iff_of_false (by simp [heq]) hfeed

/-- Text without blanks that is read from settled comments stands there from the
beginning. -/
theorem isPrefix_of_settle {part : List Char} (hpart : ' ' ∉ part)
    (h : part <+: (settle s).drop k) : part <+: s.drop k := by
  rw [List.prefix_iff_getElem?] at h ⊢
  intro i hi
  have hsettled := h i hi
  rw [List.getElem?_drop] at hsettled ⊢
  obtain heq | ⟨heq, -, -⟩ := settle_cases hlength (k + i)
  · rw [← heq, hsettled]
  · rw [heq] at hsettled
    exact absurd (Option.some.inj hsettled ▸ List.getElem_mem hi) hpart

end Chars
end VendorPrefixing
