import Mathlib.Order.Bounds.Basic
import VendorPrefixing.Proofs.Sheet.Outside
import VendorPrefixing.Text.Nesting

/-!
# The parenthesis that closes a call

Which parenthesis closes a call can be told from the text alone.  Strings are taken out of
it, and so are backslashes with the characters that they protect; in what is left every
parenthesis counts.  The call ends with the first closing one up to which as many have been
closed as opened.

The search does not look back.  It counts the open parentheses, and as long as it goes on
at least one is open, so none is ever taken off a count of zero.

Main results:

- Theorem `Nesting.depth_step_cases`: what takes one off the number of open parentheses.
- Theorem `Nesting.exists_exposes`: a text that leads outside of strings is made of whole
  strings, protected characters and others.
- Theorem `Exposes.foldl_step`: the count of the search is the number of parentheses that
  have been opened less the number of those that have been closed.
- Theorem `Chars.depth_of_closeParen?_eq_none`: at least one parenthesis is open as long as
  the search goes on.
- Theorem `Chars.closeParen?_eq_some_iff`: the search finds the first parenthesis that
  closes the call.
-/

namespace VendorPrefixing

/-! ## What counts in a text -/

/-- `Exposes s plain` says that a text ends outside of strings and that `plain` is left of it
without its strings and without its backslashes and the characters that they protect. -/
inductive Exposes : List Char → List Char → Prop
  | nil : Exposes [] []
  | char {s plain : List Char} {c : Char} (hquote : ¬ IsQuote c) (hescape : c ≠ '\\')
    (h : Exposes s plain) : Exposes (c :: s) (c :: plain)
  | escape {s plain : List Char} {c : Char} (h : Exposes s plain) :
    Exposes ('\\' :: c :: s) plain
  | string {t s plain : List Char} (ht : IsString t) (h : Exposes s plain) :
    Exposes (t ++ s) plain

/-- The parentheses that are opened, less those that are closed. -/
def parenBalance (plain : List Char) : Int :=
  plain.count '(' - plain.count ')'

/-- At a place of a text stands a closing parenthesis that counts, and up to it as many
parentheses have been closed as opened. -/
def ClosesAt (text : List Char) (place : Nat) : Prop :=
  ∃ front rest plain, text = front ++ ')' :: rest ∧ front.length = place ∧
    Exposes front plain ∧ parenBalance (plain ++ [')']) = 0

variable {s t front rest plain : List Char} {c q : Char} {n : Nesting} {size place : Nat}

theorem parenBalance_append (plain plain' : List Char) :
    parenBalance (plain ++ plain') = parenBalance plain + parenBalance plain' := by
  simp only [parenBalance, List.count_append]
  omega

theorem parenBalance_cons (c : Char) (plain : List Char) :
    parenBalance (c :: plain) = parenBalance [c] + parenBalance plain :=
  parenBalance_append [c] plain

theorem IsStringBody.append {body body' : List Char} (h : IsStringBody q body)
    (h' : IsStringBody q body') : IsStringBody q (body ++ body') := by
  induction h' with
  | nil => rwa [List.append_nil]
  | snoc _ hquote hescape ih =>
    rw [← List.append_assoc]
    exact ih.snoc hquote hescape
  | escape _ ih =>
    rw [← List.append_assoc]
    exact ih.escape

namespace Exposes

/-- A text that begins with a quote begins with a string. -/
theorem exists_of_isQuote (h : Exposes (q :: s) plain) (hq : IsQuote q) :
    ∃ body rest, IsStringBody q body ∧ s = body ++ q :: rest ∧ Exposes rest plain := by
  generalize htext : q :: s = text at h
  cases h with
  | nil => cases htext
  | char hquote _ _ =>
    cases htext
    exact absurd hq hquote
  | escape _ =>
    cases htext
    rcases hq with hq | hq <;> cases hq
  | @string t rest _ ht h =>
    obtain ⟨q', body, -, hbody, rfl⟩ := ht
    rw [List.cons_append, List.cons.injEq] at htext
    obtain ⟨rfl, rfl⟩ := htext
    exact ⟨body, rest, hbody, by simp, h⟩

/-- The string at the front of a text may begin with more characters. -/
theorem cons_append (h : Exposes (q :: s) plain) (hq : IsQuote q) (hfront : IsStringBody q front) :
    Exposes (q :: (front ++ s)) plain := by
  obtain ⟨body, rest, hbody, rfl, hrest⟩ := h.exists_of_isQuote hq
  have hstring : IsString (q :: (front ++ body ++ [q])) :=
    ⟨q, front ++ body, hq, hfront.append hbody, rfl⟩
  simpa using string hstring hrest

/-- An opening parenthesis at the front of a text counts. -/
theorem exists_of_open (h : Exposes ('(' :: s) plain) :
    ∃ plain', plain = '(' :: plain' ∧ Exposes s plain' := by
  generalize htext : '(' :: s = text at h
  cases h with
  | nil => cases htext
  | @char _ plain' _ _ _ h =>
    cases htext
    exact ⟨plain', rfl, h⟩
  | escape _ => cases htext
  | string ht _ =>
    obtain ⟨q, body, hq, -, rfl⟩ := ht
    rw [List.cons_append, List.cons.injEq] at htext
    obtain ⟨rfl, -⟩ := htext
    rcases hq with hq | hq <;> cases hq

end Exposes

/-- Behind an opening parenthesis the closing one is found where the parentheses are
balanced. -/
theorem closesAt_open_iff :
    ClosesAt ('(' :: s) place ↔ ∃ front rest plain, s = front ++ ')' :: rest ∧
      front.length + 1 = place ∧ Exposes front plain ∧ parenBalance plain = 0 := by
  have hbalance : ∀ plain, parenBalance ('(' :: plain ++ [')']) = parenBalance plain := by
    intro plain
    have hopen : parenBalance ['('] = 1 := rfl
    have hclose : parenBalance [')'] = -1 := rfl
    rw [parenBalance_append, parenBalance_cons, hopen, hclose]
    omega
  constructor
  · rintro ⟨front, rest, plain, htext, hplace, hfront, hzero⟩
    cases front with
    | nil => cases htext
    | cons c front =>
      rw [List.cons_append, List.cons.injEq] at htext
      obtain ⟨rfl, rfl⟩ := htext
      obtain ⟨plain, rfl, hbehind⟩ := hfront.exists_of_open
      rw [hbalance] at hzero
      exact ⟨front, rest, plain, rfl, hplace, hbehind, hzero⟩
  · rintro ⟨front, rest, plain, rfl, hplace, hfront, hzero⟩
    have hopen : ¬ IsQuote '(' := by rintro (h | h) <;> cases h
    rw [← hbalance] at hzero
    exact ⟨'(' :: front, rest, '(' :: plain, rfl, hplace, .char hopen (by decide) hfront, hzero⟩

/-! ## How the search reads -/

namespace Nesting

/-- Whether an open string began with a quote. -/
def IsProper (n : Nesting) : Prop :=
  ∀ q, n.quote = some q → q = '"' ∨ q = '\''

theorem IsProper.step (h : n.IsProper) (c : Char) : (n.step c).IsProper := by
  rw [Nesting.step]
  split
  · exact h
  · split
    · exact h
    · split
      · split
        · intro q hq
          cases hq
        · exact h
      · rename_i hquote
        split
        · rename_i hc
          intro q hq
          cases hq
          simpa using hc
        · have hnone : ∀ q, n.quote = some q → q = '"' ∨ q = '\'' := h
          split
          · exact hnone
          · split <;> exact hnone

theorem isProper_insideCall : insideCall.IsProper := by
  intro q hq
  cases hq

/-- Whether a character ends the search for the parenthesis that closes a call. -/
def Stops (n : Nesting) (c : Char) : Prop :=
  n.isPlain = true ∧ c = ')' ∧ n.depth = 1

instance : Decidable (n.Stops c) :=
  inferInstanceAs (Decidable (n.isPlain = true ∧ c = ')' ∧ n.depth = 1))

/-- Outside of strings a quote begins one. -/
theorem step_of_isQuote {depth : Nat} (hq : IsQuote q) :
    step ⟨none, false, depth⟩ q = ⟨some q, false, depth⟩ := by
  rcases hq with rfl | rfl <;> rfl

/-- Inside of a string its quote ends it. -/
theorem step_of_eq {depth : Nat} (hescape : q ≠ '\\') :
    step ⟨some q, false, depth⟩ q = ⟨none, false, depth⟩ := by
  simp [step, hescape]

/-- Inside of a string any other character but a backslash changes nothing. -/
theorem step_of_ne {depth : Nat} (hquote : c ≠ q) (hescape : c ≠ '\\') :
    step ⟨some q, false, depth⟩ c = ⟨some q, false, depth⟩ := by
  simp [step, hquote, hescape]

/-- Any other character outside of strings changes the number of open parentheses only. -/
theorem step_of_not_isQuote {depth : Nat} (hquote : ¬ IsQuote c) (hescape : c ≠ '\\') :
    step ⟨none, false, depth⟩ c = ⟨none, false,
      if c = '(' then depth + 1 else if c = ')' then depth - 1 else depth⟩ := by
  have hquote : ¬ (c = '"' ∨ c = '\'') := hquote
  simp only [step, hescape, Bool.false_eq_true, if_false, Bool.or_eq_true, decide_eq_true_eq,
    if_neg hquote]
  split
  · rfl
  · split <;> rfl

/-- What counts changes the number of open parentheses by its balance, if one is open. -/
theorem exists_step {depth : Nat} (hquote : ¬ IsQuote c) (hescape : c ≠ '\\') (hpos : 0 < depth) :
    ∃ depth', step ⟨none, false, depth⟩ c = ⟨none, false, depth'⟩ ∧
      (depth' : Int) = depth + parenBalance [c] := by
  refine ⟨_, step_of_not_isQuote hquote hescape, ?_⟩
  by_cases hopen : c = '('
  · subst hopen
    rfl
  · by_cases hclose : c = ')'
    · subst hclose
      have hbalance : parenBalance [')'] = -1 := rfl
      rw [hbalance, if_neg (by decide), if_pos rfl]
      omega
    · have hbalance : parenBalance [c] = 0 := by
        simp [parenBalance, hopen, hclose]
      rw [hbalance, if_neg hopen, if_neg hclose, Int.add_zero]

theorem foldl_step_of_isStringBody {depth : Nat} {body : List Char} (h : IsStringBody q body) :
    body.foldl step ⟨some q, false, depth⟩ = ⟨some q, false, depth⟩ := by
  induction h with
  | nil => rfl
  | snoc _ hquote hescape ih =>
    rw [List.foldl_append, ih, List.foldl_cons, step_of_ne hquote hescape, List.foldl_nil]
  | escape _ ih =>
    rw [List.foldl_append, ih]
    rfl

/-- Behind a whole string the nesting is the one before it. -/
theorem foldl_step_of_isString {depth : Nat} (ht : IsString t) :
    t.foldl step ⟨none, false, depth⟩ = ⟨none, false, depth⟩ := by
  obtain ⟨q, body, hq, hbody, rfl⟩ := ht
  have hescape : q ≠ '\\' := by rcases hq with rfl | rfl <;> decide
  rw [List.foldl_cons, step_of_isQuote hq, List.foldl_append, foldl_step_of_isStringBody hbody,
    List.foldl_cons, step_of_eq hescape, List.foldl_nil]

/-- Only a closing parenthesis outside of strings takes one off the number of open ones. -/
theorem depth_step_cases (n : Nesting) (c : Char) :
    n.depth ≤ (n.step c).depth ∨
      n.isPlain = true ∧ c = ')' ∧ (n.step c).depth = n.depth - 1 := by
  rw [step]
  split
  · exact .inl (Nat.le_refl _)
  · rename_i hescaped
    split
    · exact .inl (Nat.le_refl _)
    · split
      · split <;> exact .inl (Nat.le_refl _)
      · rename_i hquote
        split
        · exact .inl (Nat.le_refl _)
        · split
          · exact .inl (Nat.le_succ _)
          · split
            · rename_i hclose
              exact .inr ⟨by simp [isPlain, hescaped, hquote], hclose, rfl⟩
            · exact .inl (Nat.le_refl _)

/-- A parenthesis stays open behind every character that does not end the search. -/
theorem depth_step_pos (hpos : 0 < n.depth) (hstop : ¬ n.Stops c) : 0 < (n.step c).depth := by
  rcases depth_step_cases n c with hle | ⟨hplain, hclose, hdepth⟩
  · omega
  · have hone : n.depth ≠ 1 := fun hone => hstop ⟨hplain, hclose, hone⟩
    omega

/-! ## Outside of strings -/

/-- The characters that lead to a nesting from outside of strings. -/
def lead (n : Nesting) : List Char :=
  n.quote.toList ++ if n.escaped then ['\\'] else []

/-- A text that leads outside of strings is made of whole strings, protected characters and
others, once the string and the escape are completed that it begins in. -/
theorem exists_exposes (hproper : n.IsProper) (h : (s.foldl step n).isPlain = true) :
    ∃ plain, Exposes (n.lead ++ s) plain := by
  -- A character is read in front of the text that is taken apart already, so what is begun by
  -- it stands in the lead of the rest.
  induction s generalizing n with
  | nil =>
    obtain ⟨quote, escaped, depth⟩ := n
    cases escaped with
    | true => cases h
    | false =>
      cases quote with
      | none => exact ⟨[], .nil⟩
      | some q => cases h
  | cons c s ih =>
    obtain ⟨plain, hplain⟩ := ih (hproper.step c) h
    obtain ⟨quote, escaped, depth⟩ := n
    cases escaped with
    | true =>
      cases quote with
      | none => exact ⟨plain, .escape hplain⟩
      | some q => exact ⟨plain, hplain.cons_append (hproper q rfl) (.escape (c := c) .nil)⟩
    | false =>
      by_cases hescape : c = '\\'
      · subst hescape
        cases quote <;> exact ⟨plain, hplain⟩
      · cases quote with
        | none =>
          by_cases hquote : IsQuote c
          · rw [step_of_isQuote hquote] at hplain
            exact ⟨plain, hplain⟩
          · rw [step_of_not_isQuote hquote hescape] at hplain
            exact ⟨c :: plain, .char hquote hescape hplain⟩
        | some q =>
          have hq : IsQuote q := hproper q rfl
          by_cases hc : c = q
          · subst hc
            rw [step_of_eq hescape] at hplain
            exact ⟨plain, .string (t := [c, c]) ⟨c, [], hq, .nil, rfl⟩ hplain⟩
          · rw [step_of_ne hc hescape] at hplain
            exact ⟨plain, hplain.cons_append hq (.snoc .nil hc hescape)⟩

end Nesting

/-! ## The search -/

namespace Chars

theorem closeParen?_cons (n : Nesting) (c : Char) (s : List Char) :
    closeParen? n (c :: s) =
      if n.Stops c then some 0 else (closeParen? (n.step c) s).map (· + 1) := by
  rw [closeParen?]
  refine if_congr ?_ rfl rfl
  simp [Nesting.Stops, and_assoc]

theorem closeParen?_cons_eq_none_iff :
    closeParen? n (c :: s) = none ↔ ¬ n.Stops c ∧ closeParen? (n.step c) s = none := by
  rw [closeParen?_cons]
  split
  · rename_i hstop
    simp [hstop]
  · rename_i hstop
    simp [hstop]

/-- The search goes through two texts when it goes through one after the other. -/
theorem closeParen?_append_eq_none_iff :
    closeParen? n (s ++ t) = none ↔
      closeParen? n s = none ∧ closeParen? (s.foldl Nesting.step n) t = none := by
  induction s generalizing n with
  | nil => simp [closeParen?]
  | cons c s ih =>
    rw [List.cons_append, closeParen?_cons_eq_none_iff, closeParen?_cons_eq_none_iff, ih,
      and_assoc, List.foldl_cons]

/-- The search ends behind what it has gone through. -/
theorem length_le_of_closeParen? (hnone : closeParen? n s = none)
    (h : closeParen? n (s ++ t) = some size) : s.length ≤ size := by
  induction s generalizing n size with
  | nil => exact Nat.zero_le size
  | cons c s ih =>
    obtain ⟨hstop, hrest⟩ := closeParen?_cons_eq_none_iff.mp hnone
    rw [List.cons_append, closeParen?_cons, if_neg hstop, Option.map_eq_some_iff] at h
    obtain ⟨size, hsize, rfl⟩ := h
    exact Nat.succ_le_succ (ih hrest hsize)

/-- The search ends at the first character that stops it. -/
theorem exists_stops_of_closeParen? (h : closeParen? n s = some size) :
    ∃ front c rest, s = front ++ c :: rest ∧ front.length = size ∧ closeParen? n front = none ∧
      (front.foldl Nesting.step n).Stops c := by
  induction s generalizing n size with
  | nil => cases h
  | cons c s ih =>
    rw [closeParen?_cons] at h
    split at h
    · rename_i hstop
      cases h
      exact ⟨[], c, s, rfl, rfl, rfl, hstop⟩
    · rename_i hstop
      obtain ⟨size, hsize, rfl⟩ := Option.map_eq_some_iff.mp h
      obtain ⟨front, d, rest, rfl, rfl, hnone, hd⟩ := ih hsize
      exact ⟨c :: front, d, rest, rfl, rfl, closeParen?_cons_eq_none_iff.mpr ⟨hstop, hnone⟩, hd⟩

/-- The search goes through everything in front of where it ends. -/
theorem closeParen?_take_eq_none {upTo : Nat} (h : closeParen? n s = some size)
    (hle : upTo ≤ size) : closeParen? n (s.take upTo) = none := by
  obtain ⟨front, _, rest, rfl, rfl, hnone, -⟩ := exists_stops_of_closeParen? h
  rw [List.take_append_of_le_length hle]
  rw [← List.take_append_drop upTo front] at hnone
  exact (closeParen?_append_eq_none_iff.mp hnone).1

/-- As long as the search goes on a parenthesis stays open. -/
theorem depth_foldl_step_pos (hpos : 0 < n.depth) (h : closeParen? n s = none) :
    0 < (s.foldl Nesting.step n).depth := by
  induction s generalizing n with
  | nil => exact hpos
  | cons c s ih =>
    obtain ⟨hstop, hrest⟩ := closeParen?_cons_eq_none_iff.mp h
    exact ih (Nesting.depth_step_pos hpos hstop) hrest

end Chars

/-- Outside of strings the search has counted the parentheses that have been opened and not
been closed. -/
theorem Exposes.foldl_step {depth : Nat} (h : Exposes s plain) (hpos : 0 < depth)
    (hnone : Chars.closeParen? ⟨none, false, depth⟩ s = none) :
    ∃ depth', s.foldl Nesting.step ⟨none, false, depth⟩ = ⟨none, false, depth'⟩ ∧
      (depth' : Int) = depth + parenBalance plain := by
  induction h generalizing depth with
  | nil => exact ⟨depth, rfl, by simp [parenBalance]⟩
  | @char s plain c hquote hescape _ ih =>
    obtain ⟨hstop, hrest⟩ := Chars.closeParen?_cons_eq_none_iff.mp hnone
    obtain ⟨next, hstep, hnext⟩ := Nesting.exists_step hquote hescape hpos
    rw [hstep] at hrest
    have hnextPos : 0 < next := by
      have hstepPos := Nesting.depth_step_pos (n := ⟨none, false, depth⟩) hpos hstop
      rwa [hstep] at hstepPos
    obtain ⟨depth', hfold, hbalance⟩ := ih hnextPos hrest
    refine ⟨depth', ?_, ?_⟩
    · rw [List.foldl_cons, hstep, hfold]
    · rw [parenBalance_cons]
      omega
  | escape _ ih =>
    obtain ⟨-, hrest⟩ := Chars.closeParen?_cons_eq_none_iff.mp hnone
    obtain ⟨-, hrest⟩ := Chars.closeParen?_cons_eq_none_iff.mp hrest
    exact ih hpos hrest
  | string ht _ ih =>
    obtain ⟨-, hrest⟩ := Chars.closeParen?_append_eq_none_iff.mp hnone
    rw [Nesting.foldl_step_of_isString ht] at hrest
    rw [List.foldl_append, Nesting.foldl_step_of_isString ht]
    exact ih hpos hrest

namespace Chars

/-- As long as the search for the end of a call goes on at least one parenthesis is open, and
outside of strings the search has counted them. -/
theorem depth_of_closeParen?_eq_none (h : closeParen? .insideCall front = none) :
    0 < (front.foldl Nesting.step .insideCall).depth ∧ ∀ plain, Exposes front plain →
      ((front.foldl Nesting.step .insideCall).depth : Int) = parenBalance ('(' :: plain) := by
  refine ⟨depth_foldl_step_pos Nat.one_pos h, fun plain hplain => ?_⟩
  obtain ⟨depth, hfold, hdepth⟩ := hplain.foldl_step Nat.one_pos h
  rw [Nesting.insideCall, hfold, parenBalance_cons]
  exact hdepth

/-- The search does not pass a parenthesis that closes the call. -/
theorem closeParen?_ne_none (hfront : Exposes front plain) (hzero : parenBalance plain = 0) :
    closeParen? .insideCall (front ++ ')' :: rest) ≠ none := by
  intro h
  obtain ⟨hnone, hrest⟩ := closeParen?_append_eq_none_iff.mp h
  obtain ⟨depth, hfold, hdepth⟩ := hfront.foldl_step Nat.one_pos hnone
  obtain rfl : depth = 1 := by omega
  rw [Nesting.insideCall, hfold] at hrest
  cases hrest

/-- What the search finds is the first parenthesis that closes the call. -/
theorem isLeast_closesAt (h : closeParen? .insideCall s = some size) :
    IsLeast {place | ClosesAt ('(' :: s) place} (size + 1) := by
  obtain ⟨front, c, rest, rfl, rfl, hnone, hplain, rfl, hdepth⟩ := exists_stops_of_closeParen? h
  constructor
  · have hexposes : ∃ plain, Exposes front plain :=
      Nesting.exists_exposes Nesting.isProper_insideCall hplain
    obtain ⟨plain, hfront⟩ := hexposes
    obtain ⟨depth, hfold, hbalance⟩ := hfront.foldl_step Nat.one_pos hnone
    rw [Nesting.insideCall, hfold] at hdepth
    obtain rfl : depth = 1 := hdepth
    exact closesAt_open_iff.mpr ⟨front, rest, plain, rfl, rfl, hfront, by omega⟩
  · intro place hplace
    obtain ⟨before, after, plain, htext, rfl, hbefore, hzero⟩ := closesAt_open_iff.mp hplace
    refine Nat.le_of_not_lt fun hlt => ?_
    -- An earlier one would stand in the text that the search has gone through.
    have hbefore' : before ++ [')'] <+: front ++ ')' :: rest := ⟨after, by simp [htext]⟩
    have hlength : (before ++ [')']).length ≤ front.length := by
      rw [List.length_append, List.length_singleton]
      omega
    obtain ⟨between, rfl⟩ := List.prefix_of_prefix_length_le hbefore' (List.prefix_append ..) hlength
    rw [List.append_assoc, List.singleton_append] at hnone
    exact closeParen?_ne_none hbefore hzero hnone

/-- The search ends when some parenthesis closes the call. -/
theorem exists_closeParen?_iff :
    (∃ size, closeParen? .insideCall s = some size) ↔ ∃ place, ClosesAt ('(' :: s) place := by
  constructor
  · rintro ⟨size, hsize⟩
    exact ⟨size + 1, (isLeast_closesAt hsize).1⟩
  · rintro ⟨place, hplace⟩
    obtain ⟨front, rest, plain, rfl, -, hfront, hzero⟩ := closesAt_open_iff.mp hplace
    exact Option.ne_none_iff_exists'.mp (closeParen?_ne_none hfront hzero)

/-- The search finds the first parenthesis that closes the call. -/
theorem closeParen?_eq_some_iff :
    closeParen? .insideCall s = some size ↔
      IsLeast {place | ClosesAt ('(' :: s) place} (size + 1) := by
  refine ⟨isLeast_closesAt, fun h => ?_⟩
  obtain ⟨found, hfound⟩ := exists_closeParen?_iff.mpr ⟨size + 1, h.1⟩
  have hsame := (isLeast_closesAt hfound).unique h
  rw [hfound, Nat.succ.inj hsame]

end Chars
end VendorPrefixing
