import VendorPrefixing.Proofs.Sheet.Comment
import VendorPrefixing.Proofs.Text.WhiteSpace
import VendorPrefixing.Sheet.Stretch
import VendorPrefixing.Text.Nesting

/-!
# Passing through running text

How far a stretch goes depends on quotes, escapes and brackets alone, as long as
the text holds no comments.  The cut at commas and the search for the end of a
value or a prelude pass through a text in the same way; they only differ in their
brackets and stops.

Main results:

- Theorem `Stretch.measure_append`: a text that can be passed is measured up to the
  stop behind it.
- Theorem `Stretch.passes?_of_measure`: what is measured up to a stop can be passed.
- Theorem `Stretch.passes?_trim`: white space at the ends of a text makes no
  difference.
-/

namespace VendorPrefixing

/-- The stretch that is one of several arguments. -/
def Stretch.argument : Stretch where
  stops := [',']
  opening := ['(']
  closing := [')']

/-- What distinguishes a stretch from others does not interfere with quotes, escapes
and white space. -/
structure Stretch.IsProper (k : Stretch) : Prop where
  not_special : ∀ c ∈ ['\\', '"', '\''], c ∉ k.opening ∧ c ∉ k.closing
  not_isBlank : ∀ c ∈ k.stops ++ (k.opening ++ k.closing), isBlank c = false

/-- No backslash stands in front of white space. -/
def EscapesNoBlank (s : List Char) : Prop :=
  ∀ c, isBlank c = true → ¬ ['\\', c] <:+: s

theorem EscapesNoBlank.of_isInfix {s t : List Char} (h : EscapesNoBlank t) (hst : s <:+: t) :
    EscapesNoBlank s :=
  fun c hc hpart => h c hc (hpart.trans hst)

/-- The place in a stretch that stands for a nesting. -/
def StretchPlace.IsAt (place : StretchPlace) (n : Nesting) : Prop :=
  match place with
  | .plain => n.quote = none ∧ n.escaped = false
  | .escaped => n.quote = none ∧ n.escaped = true
  | .quoted q _ => n.quote = some q ∧ n.escaped = false
  | .quotedEscape q _ => n.quote = some q ∧ n.escaped = true
  | .commentOpening _ | .comment _ | .commentClosing _ => False

namespace Nesting

variable {n : Nesting}

/-- Outside of everything there is only one place. -/
theorem isTop_iff : n.isTop = true ↔ n = outside := by
  cases n with
  | mk quote escaped depth =>
    rw [isTop, isPlain, outside]
    cases quote <;> cases escaped <;> simp

theorem isPlain_iff : n.isPlain = true ↔ n.quote = none ∧ n.escaped = false := by
  cases n with
  | mk quote escaped depth =>
    rw [isPlain]
    cases quote <;> cases escaped <;> simp

end Nesting

namespace Stretch

variable {k : Stretch} {n m : Nesting} {c : Char} {s t : List Char}

theorem isProper_value : value.IsProper := by
  constructor <;> decide

theorem isProper_prelude : prelude.IsProper := by
  constructor <;> decide

theorem isProper_argument : argument.IsProper := by
  constructor <;> decide

/-! ## Steps -/

/-- The nesting after one more character, where only the brackets of `k` nest. -/
def step (k : Stretch) (n : Nesting) (c : Char) : Nesting :=
  if n.escaped then { n with escaped := false }
  else if c = '\\' then { n with escaped := true }
  else
    match n.quote with
    | some q => if c = q then { n with quote := none } else n
    | none =>
      if c = '"' || c = '\'' then { n with quote := some c }
      else { n with depth := k.depthAfter n.depth c }

theorem step_argument (n : Nesting) (c : Char) : argument.step n c = n.step c := by
  cases n with
  | mk quote escaped depth =>
    rw [step, Nesting.step]
    refine ite_congr rfl (fun _ => rfl) fun _ => ite_congr rfl (fun _ => rfl) fun _ => ?_
    cases quote with
    | some q => rfl
    | none =>
      refine ite_congr rfl (fun _ => rfl) fun _ => ?_
      simp only [depthAfter, argument, List.mem_singleton]
      split
      · rfl
      · split <;> rfl

/-- The nesting behind a text, unless a stop outside of everything ends it before. -/
def passes? (k : Stretch) (n : Nesting) : List Char → Option Nesting
  | [] => some n
  | c :: s => if n.isTop && decide (c ∈ k.stops) then none else passes? k (k.step n c) s

theorem passes?_append (s t : List Char) :
    k.passes? n (s ++ t) = (k.passes? n s).bind fun m => k.passes? m t := by
  induction s generalizing n with
  | nil => rfl
  | cons c s ih =>
    rw [List.cons_append, passes?, passes?, ih]
    split <;> rfl

/-! ## Quotes and escapes -/

/-- Quotes and escapes are the same for every stretch. -/
theorem quote_step (k l : Stretch) (h : n.quote = m.quote) (h' : n.escaped = m.escaped) (c : Char) :
    (k.step n c).quote = (l.step m c).quote ∧ (k.step n c).escaped = (l.step m c).escaped := by
  cases n with
  | mk quote escaped depth =>
    cases m with
    | mk quote' escaped' depth' =>
      obtain rfl : quote = quote' := h
      obtain rfl : escaped = escaped' := h'
      rw [step, step]
      cases escaped with
      | true => exact ⟨rfl, rfl⟩
      | false =>
        simp only [Bool.false_eq_true, if_false]
        split
        · exact ⟨rfl, rfl⟩
        · cases quote with
          | some q =>
            simp only
            split <;> exact ⟨rfl, rfl⟩
          | none =>
            simp only
            split <;> exact ⟨rfl, rfl⟩

theorem quote_of_passes? {k l : Stretch} {n' m' : Nesting} (h : n.quote = m.quote)
    (h' : n.escaped = m.escaped) (hn : k.passes? n s = some n') (hm : l.passes? m s = some m') :
    n'.quote = m'.quote ∧ n'.escaped = m'.escaped := by
  induction s generalizing n m with
  | nil =>
    cases hn
    cases hm
    exact ⟨h, h'⟩
  | cons c s ih =>
    rw [passes?] at hn hm
    split at hn
    · cases hn
    · split at hm
      · cases hm
      · exact ih (quote_step k l h h' c).1 (quote_step k l h h' c).2 hn hm

/-! ## White space -/

/-- Strings are never enclosed in white space. -/
def QuotesNoBlank (n : Nesting) : Prop :=
  ∀ q, n.quote = some q → isBlank q = false

/-- There is nothing to check outside of strings. -/
theorem quotesNoBlank_of_none (h : n.quote = none) : QuotesNoBlank n := by
  intro q hq
  rw [h] at hq
  cases hq

theorem quotesNoBlank_step (h : QuotesNoBlank n) (c : Char) : QuotesNoBlank (k.step n c) := by
  intro q hq
  rw [step] at hq
  split at hq
  · exact h q hq
  · split at hq
    · exact h q hq
    · split at hq
      · split at hq
        · cases hq
        · exact h q hq
      · split at hq
        · rename_i hc
          rw [Bool.or_eq_true, decide_eq_true_eq, decide_eq_true_eq] at hc
          cases hq
          rcases hc with rfl | rfl <;> rfl
        · exact h q hq

theorem quotesNoBlank_of_passes? (h : QuotesNoBlank n) (hs : k.passes? n s = some m) :
    QuotesNoBlank m := by
  induction s generalizing n with
  | nil =>
    cases hs
    exact h
  | cons c s ih =>
    rw [passes?] at hs
    split at hs
    · cases hs
    · exact ih (quotesNoBlank_step h c) hs

/-- White space that no backslash protects makes no difference. -/
theorem passes?_of_isBlank (hk : k.IsProper) (hescaped : n.escaped = false)
    (hquotes : QuotesNoBlank n) (hs : AllBlank s) : k.passes? n s = some n := by
  induction s with
  | nil => rfl
  | cons c s ih =>
    have hc := hs c List.mem_cons_self
    have hproper : c ∉ k.stops ∧ c ∉ k.opening ∧ c ∉ k.closing := by
      rw [← not_or, ← not_or, ← List.mem_append, ← List.mem_append]
      intro hmem
      rw [hk.not_isBlank c (by simpa using hmem)] at hc
      cases hc
    have hne : ∀ d, isBlank d = false → c ≠ d := by
      rintro d hd rfl
      rw [hc] at hd
      cases hd
    have hstep : k.step n c = n := by
      rw [step, hescaped, if_neg Bool.false_ne_true, if_neg (hne _ rfl)]
      cases hquote : n.quote with
      | some q => exact if_neg (hne q (hquotes q hquote))
      | none =>
        have hdepth : k.depthAfter n.depth c = n.depth := by
          rw [depthAfter, if_neg hproper.2.1, if_neg hproper.2.2]
        simp only [hne '"' rfl, hne '\'' rfl, hdepth, decide_false, Bool.or_self,
          Bool.false_eq_true, if_false]
        rw [← hquote, ← hescaped]
    rw [passes?, hstep, decide_eq_false hproper.1, Bool.and_false, if_neg Bool.false_ne_true]
    exact ih fun d hd => hs d (List.mem_cons_of_mem c hd)

/-- White space at the front of a text makes no difference. -/
theorem passes?_trimStart (hk : k.IsProper) (hescaped : n.escaped = false)
    (hquotes : QuotesNoBlank n) (s : List Char) :
    k.passes? n (Chars.trimStart s) = k.passes? n s := by
  obtain ⟨front, hfront, heq⟩ := Chars.exists_append_trimStart s
  conv_rhs => rw [heq]
  rw [passes?_append, passes?_of_isBlank hk hescaped hquotes hfront]
  rfl

/-- A character that is protected stands behind a backslash. -/
theorem eq_backslash_of_escaped (h : (k.step n c).escaped = true) : c = '\\' := by
  rw [step] at h
  split at h
  · cases h
  · rename_i hescaped
    split at h
    · assumption
    · split at h
      · split at h <;> exact absurd h hescaped
      · split at h <;> exact absurd h hescaped

theorem getLast?_of_escaped (h : k.passes? n s = some m) (hm : m.escaped = true) :
    (s = [] ∧ n.escaped = true) ∨ s.getLast? = some '\\' := by
  induction s generalizing n with
  | nil =>
    cases h
    exact .inl ⟨rfl, hm⟩
  | cons c s ih =>
    rw [passes?] at h
    split at h
    · cases h
    · rcases ih h with ⟨rfl, hescaped⟩ | hlast
      · rw [eq_backslash_of_escaped hescaped]
        exact .inr rfl
      · rw [List.getLast?_cons, hlast]
        exact .inr rfl

/-- White space at the end of a text makes no difference. -/
theorem passes?_trimEnd (hk : k.IsProper) (hescaped : n.escaped = false)
    (hquotes : QuotesNoBlank n) (hs : EscapesNoBlank s) (h : k.passes? n s = some m) :
    k.passes? n (Chars.trimEnd s) = some m := by
  obtain ⟨back, hback, heq⟩ := Chars.exists_trimEnd_append s
  rw [heq, passes?_append, Option.bind_eq_some_iff] at h
  obtain ⟨middle, hfront, hrest⟩ := h
  cases back with
  | nil =>
    cases hrest
    exact hfront
  | cons c back =>
    have hmiddle : middle.escaped = false := by
      rw [← Bool.not_eq_true]
      intro hm
      rcases getLast?_of_escaped hfront hm with ⟨_, hn⟩ | hlast
      · rw [hescaped] at hn
        cases hn
      · -- A backslash would stand in front of the first of the blanks.
        obtain ⟨front, hfront⟩ := List.getLast?_eq_some_iff.mp hlast
        refine hs c (hback c List.mem_cons_self) ⟨front, back, ?_⟩
        rw [heq, hfront]
        simp
    rw [passes?_of_isBlank hk hmiddle (quotesNoBlank_of_passes? hquotes hfront) hback] at hrest
    rw [hfront, hrest]

/-- White space at the ends of a text makes no difference. -/
theorem passes?_trim (hk : k.IsProper) (hescaped : n.escaped = false)
    (hquotes : QuotesNoBlank n) (hs : EscapesNoBlank s) (h : k.passes? n s = some m) :
    k.passes? n (Chars.trim s) = some m := by
  refine passes?_trimEnd hk hescaped hquotes (hs.of_isInfix ?_) ?_
  · exact (Chars.trimStart_isSuffix s).isInfix
  · rwa [passes?_trimStart hk hescaped hquotes]

/-! ## Measuring -/

variable {place : StretchPlace} {size N : Nat}

theorem isAt_outside : StretchPlace.plain.IsAt .outside :=
  ⟨rfl, rfl⟩

/-- The place keeps up with the nesting where no comment is opened. -/
theorem isAt_after {next : Option Char} (hnext : c = '/' → next ≠ some '*')
    (hplace : place.IsAt n) : (place.after size c next).IsAt (k.step n c) := by
  cases n with
  | mk quote escaped depth =>
    cases place with
    | plain =>
      obtain ⟨rfl, rfl⟩ : quote = none ∧ escaped = false := hplace
      have hopens : (c = '/' && next == some '*') = false := by
        by_cases hc : c = '/'
        · simpa [hc] using hnext hc
        · simp [hc]
      rw [StretchPlace.after, step, hopens]
      simp only [Bool.false_eq_true, if_false]
      by_cases hquote : (c = '"' || c = '\'') = true
      · have hc : c ≠ '\\' := by
          rintro rfl
          cases hquote
        rw [if_pos hquote, if_neg hc, if_pos hquote]
        exact ⟨rfl, rfl⟩
      · rw [if_neg hquote, if_neg hquote]
        split <;> exact ⟨rfl, rfl⟩
    | escaped =>
      obtain ⟨rfl, rfl⟩ : quote = none ∧ escaped = true := hplace
      exact ⟨rfl, rfl⟩
    | quoted q start =>
      obtain ⟨rfl, rfl⟩ : quote = some q ∧ escaped = false := hplace
      rw [StretchPlace.after, step]
      simp only [Bool.false_eq_true, if_false]
      split
      · exact ⟨rfl, rfl⟩
      · split <;> exact ⟨rfl, rfl⟩
    | quotedEscape q start =>
      obtain ⟨rfl, rfl⟩ : quote = some q ∧ escaped = true := hplace
      exact ⟨rfl, rfl⟩
    | _ => exact hplace.elim

theorem isPlain_eq_decide (hplace : place.IsAt n) : n.isPlain = decide (place = .plain) := by
  rw [Bool.eq_iff_iff, Nesting.isPlain_iff, decide_eq_true_eq]
  cases place with
  | plain => exact iff_of_true hplace rfl
  | commentOpening _ | comment _ | commentClosing _ => exact hplace.elim
  | escaped | quotedEscape _ _ =>
    refine iff_of_false (fun h => ?_) nofun
    cases h.2.symm.trans hplace.2
  | quoted q _ =>
    refine iff_of_false (fun h => ?_) nofun
    cases h.1.symm.trans hplace.1

/-- Brackets count in plain text only. -/
theorem depth_step (hk : k.IsProper) (hplace : place.IsAt n) (c : Char) :
    (k.step n c).depth = if place = .plain then k.depthAfter n.depth c else n.depth := by
  have hspecial : c ∈ ['\\', '"', '\''] → k.depthAfter n.depth c = n.depth := by
    intro hc
    rw [depthAfter, if_neg (hk.not_special c hc).1, if_neg (hk.not_special c hc).2]
  cases n with
  | mk quote escaped depth =>
    rw [step]
    cases place with
    | plain =>
      obtain ⟨rfl, rfl⟩ : quote = none ∧ escaped = false := hplace
      simp only [Bool.false_eq_true, if_false, if_true]
      split
      · rename_i hc
        exact (hspecial (by simp [hc])).symm
      · split
        · rename_i hc
          rw [Bool.or_eq_true, decide_eq_true_eq, decide_eq_true_eq] at hc
          exact (hspecial (by simp [hc])).symm
        · rfl
    | escaped =>
      obtain ⟨rfl, rfl⟩ : quote = none ∧ escaped = true := hplace
      rfl
    | quoted q start =>
      obtain ⟨rfl, rfl⟩ : quote = some q ∧ escaped = false := hplace
      simp only [Bool.false_eq_true, reduceCtorEq, if_false]
      split
      · rfl
      · split <;> rfl
    | quotedEscape q start =>
      obtain ⟨rfl, rfl⟩ : quote = some q ∧ escaped = true := hplace
      rfl
    | _ => exact hplace.elim

theorem isTop_eq_decide (hplace : place.IsAt n) :
    n.isTop = decide (place = .plain ∧ n.depth = 0) := by
  rw [Nesting.isTop, isPlain_eq_decide hplace, Bool.decide_and]
  rfl

/-- One more character of a measure. -/
theorem measureFrom_cons (hk : k.IsProper) (hplace : place.IsAt n) (s : List Char) :
    k.measureFrom place n.depth size (c :: s) =
      if n.isTop && decide (c ∈ k.stops) then .ok size
      else k.measureFrom (place.after size c s.head?) (k.step n c).depth (size + 1) s := by
  rw [measureFrom, isTop_eq_decide hplace, depth_step hk hplace]
  by_cases hplain : place = .plain
  · by_cases hstop : n.depth = 0 ∧ c ∈ k.stops
    · simp [hplain, hstop]
    · rw [if_pos hplain, if_neg hstop, if_pos hplain, if_neg]
      simpa [hplain] using hstop
  · simp [hplain]

theorem measureFrom_append (hk : k.IsProper) (hplace : place.IsAt n)
    (hs : k.passes? n s = some .outside) (hc : c ∈ k.stops) (hfree : IsCommentFree (s ++ [c]))
    (t : List Char) : k.measureFrom place n.depth size (s ++ c :: t) = .ok (size + s.length) := by
  induction s generalizing n place size with
  | nil =>
    obtain rfl := Option.some.inj hs
    rw [List.nil_append, measureFrom_cons hk hplace, if_pos (by simp [hc, Nesting.isTop_iff])]
    rfl
  | cons d s ih =>
    rw [passes?] at hs
    split at hs
    · cases hs
    · rename_i hstop
      have hhead : (s ++ c :: t).head? = (s ++ [c]).head? := by
        cases s <;> rfl
      have hnext : d = '/' → (s ++ c :: t).head? ≠ some '*' := by
        rintro rfl
        rw [hhead]
        exact hfree.head?_ne
      rw [List.cons_append, measureFrom_cons hk hplace, if_neg hstop,
        ih (isAt_after hnext hplace) hs hfree.tail]
      simp only [List.length_cons, Except.ok.injEq]
      omega

/-- A text that can be passed is measured up to the stop behind it. -/
theorem measure_append (hk : k.IsProper) (hs : k.passes? .outside s = some .outside)
    (hc : c ∈ k.stops) (hfree : IsCommentFree (s ++ [c])) (t : List Char) :
    k.measure (s ++ c :: t) = .ok s.length := by
  have h : k.measureFrom .plain Nesting.outside.depth 0 (s ++ c :: t) = .ok (0 + s.length) :=
    measureFrom_append hk isAt_outside hs hc hfree t
  rwa [Nat.zero_add] at h

theorem passes?_of_measureFrom (hk : k.IsProper) (hplace : place.IsAt n)
    (hfree : IsCommentFree s) (h : k.measureFrom place n.depth size s = .ok (size + N))
    (hrest : s.drop N ≠ []) : k.passes? n (s.take N) = some .outside := by
  induction s generalizing n place size N with
  | nil => exact absurd List.drop_nil hrest
  | cons c s ih =>
    rw [measureFrom_cons hk hplace] at h
    split at h
    · rename_i hstop
      injection h with h
      obtain rfl : N = 0 := by omega
      rw [Bool.and_eq_true] at hstop
      rw [List.take_zero, passes?, Nesting.isTop_iff.mp hstop.1]
    · rename_i hstop
      have hbound := (measureFrom_bounds h).1
      obtain ⟨N, rfl⟩ : ∃ M, N = M + 1 := ⟨N - 1, by omega⟩
      have hnext : c = '/' → s.head? ≠ some '*' := by
        rintro rfl
        exact hfree.head?_ne
      rw [List.take_succ_cons, passes?, if_neg hstop]
      rw [Nat.add_comm N 1, ← Nat.add_assoc] at h
      exact ih (isAt_after hnext hplace) hfree.tail h hrest

/-- What is measured up to a stop can be passed. -/
theorem passes?_of_measure (hk : k.IsProper) (hfree : IsCommentFree s)
    (h : k.measure s = .ok N) (hrest : s.drop N ≠ []) :
    k.passes? .outside (s.take N) = some .outside := by
  have hfrom : k.measureFrom .plain Nesting.outside.depth 0 s = .ok (0 + N) := by
    rw [Nat.zero_add]
    exact h
  exact passes?_of_measureFrom hk isAt_outside hfree hfrom hrest

end Stretch
end VendorPrefixing
