import Mathlib.Data.List.Forall2
import VendorPrefixing.Proofs.Text.WhiteSpace
import VendorPrefixing.Proofs.Value.Matcher

/-!
# Texts with a mark in front of a name

What reading a value finds out about it does not change when a mark is put in
front of a name inside it, as long as what is looked for overlaps neither with
the mark nor with the name.

Main results:

- Theorem `Inserted.isPrefix_iff`: both texts start with the same clear texts.
- Theorem `Inserted.find?_cases`: both texts hold a clear text after stretches that
  correspond.
- Theorems `Inserted.trim` and `Inserted.words`: trimming and cutting into words
  keep the correspondence.
- Theorem `Inserted.eq_or_isInfix`: two texts that correspond are equal or both hold
  the name.
-/

namespace VendorPrefixing

/-- `Inserted mark name s t` says that `t` is `s` with `mark` put in front of `name` at
some places. -/
inductive Inserted (mark name : List Char) : List Char → List Char → Prop
  | nil : Inserted mark name [] []
  | keep {s t : List Char} (c : Char) :
    Inserted mark name s t → Inserted mark name (c :: s) (c :: t)
  | insert {s t : List Char} :
    Inserted mark name s t → Inserted mark name (name ++ s) (mark ++ name ++ t)

/-- Whether a text can neither begin inside `mark` or `name` nor hold the start of
`name`. -/
structure IsClear (mark name needle : List Char) : Prop where
  not_mem : ∀ c, needle.head? = some c → c ∉ mark ++ name
  head_not_mem : ∀ c, mark.head? = some c → c ∉ needle
  suffix : ∀ x, x ≠ [] → x <:+ needle → ¬ x <+: name ∧ ¬ name <+: x

/-- Whether a mark and a name are made of letters and not empty. -/
structure AreSolid (mark name : List Char) : Prop where
  mark_ne_nil : mark ≠ []
  name_ne_nil : name ≠ []
  not_isBlank : ∀ c ∈ mark ++ name, isBlank c = false

namespace Inserted

variable {mark name s t : List Char}

/-- Marking a name is putting the mark in front of it. -/
theorem of_edited {free : Bool} {news : List (List Char)}
    (h : Edited (fun old new => old = name ∧ new = mark ++ name) free s t news) :
    Inserted mark name s t := by
  induction h with
  | nil => exact nil
  | keep c _ ih => exact keep c ih
  | edit hedit _ _ ih =>
    obtain ⟨rfl, rfl⟩ := hedit
    exact insert ih

theorem append {a b : List Char} (hab : Inserted mark name a b) (h : Inserted mark name s t) :
    Inserted mark name (a ++ s) (b ++ t) := by
  induction hab with
  | nil => exact h
  | keep c _ ih => exact keep c ih
  | insert _ ih =>
    rw [List.append_assoc, List.append_assoc]
    exact insert ih

theorem refl (s : List Char) : Inserted mark name s s := by
  induction s with
  | nil => exact nil
  | cons c s ih => exact keep c ih

theorem map {f : Char → Char} (hmark : mark.map f = mark) (hname : name.map f = name)
    (h : Inserted mark name s t) : Inserted mark name (s.map f) (t.map f) := by
  induction h with
  | nil => exact nil
  | keep c _ ih => exact keep (f c) ih
  | insert _ ih =>
    rw [List.map_append, List.map_append, List.map_append, hmark, hname]
    exact insert ih

/-- Two texts that correspond are equal or both hold the name. -/
theorem eq_or_isInfix (h : Inserted mark name s t) : s = t ∨ name <:+: s ∧ name <:+: t := by
  induction h with
  | nil => exact .inl rfl
  | keep c _ ih =>
    rcases ih with rfl | ⟨hs, ht⟩
    · exact .inl rfl
    · exact .inr ⟨hs.trans (List.suffix_cons _ _).isInfix, ht.trans (List.suffix_cons _ _).isInfix⟩
  | @insert s t _ _ =>
    exact .inr ⟨(List.prefix_append name s).isInfix, ⟨mark, t, rfl⟩⟩

theorem eq_nil_iff (hsolid : AreSolid mark name) (h : Inserted mark name s t) :
    s = [] ↔ t = [] := by
  cases h with
  | nil => exact Iff.rfl
  | keep c _ => simp
  | insert _ => simp [hsolid.mark_ne_nil, hsolid.name_ne_nil]

/-! ## Clear texts -/

/-- Both texts start with the same clear texts. -/
theorem isPrefix_iff {needle : List Char} (hmark : mark ≠ [])
    (hhead : ∀ c, mark.head? = some c → c ∉ needle)
    (hsuffix : ∀ x, x ≠ [] → x <:+ needle → ¬ x <+: name ∧ ¬ name <+: x)
    (h : Inserted mark name s t) : needle <+: s ↔ needle <+: t := by
  induction needle generalizing s t with
  | nil => simp
  | cons a needle ih =>
    cases h with
    | nil => exact Iff.rfl
    | keep c h =>
      rw [List.cons_prefix_cons, List.cons_prefix_cons,
        ih (fun d hd hmem => hhead d hd (List.mem_cons_of_mem a hmem))
          (fun x hx hsub => hsuffix x hx (hsub.trans (List.suffix_cons a needle))) h]
    | @insert s t h =>
      constructor
      · intro hlead
        have hclash := hsuffix (a :: needle) (by simp) (List.suffix_refl _)
        rcases List.prefix_or_prefix_of_prefix hlead (List.prefix_append name s) with h | h
        · exact absurd h hclash.1
        · exact absurd h hclash.2
      · intro hlead
        cases mark with
        | nil => exact absurd rfl hmark
        | cons b mark =>
          rw [List.cons_append, List.cons_append, List.cons_prefix_cons] at hlead
          have hnot := hhead b rfl
          rw [hlead.1] at hnot
          exact absurd List.mem_cons_self hnot

end Inserted

/-- A text cannot begin inside a stretch that its first character does not occur
in. -/
theorem Chars.find?_append_of_not_mem {needle front : List Char} (hne : needle ≠ [])
    (h : ∀ c, needle.head? = some c → c ∉ front) (s : List Char) :
    find? needle (front ++ s) = (find? needle s).map (front.length + ·) := by
  induction front with
  | nil =>
    rw [List.nil_append, List.length_nil]
    cases find? needle s with
    | none => rfl
    | some i => rw [Option.map_some, Nat.zero_add]
  | cons b front ih =>
    have hlead : needle.isPrefixOf (b :: (front ++ s)) = false := by
      cases needle with
      | nil => exact absurd rfl hne
      | cons a needle =>
        have hab : a ≠ b := fun heq => h a rfl (heq ▸ List.mem_cons_self)
        rw [List.isPrefixOf_cons_cons, beq_eq_false_iff_ne.mpr hab, Bool.false_and]
    rw [List.cons_append, find?, hlead, if_neg Bool.false_ne_true,
      ih fun c hc hmem => h c hc (List.mem_cons_of_mem b hmem), Option.map_map, List.length_cons]
    congr 1
    funext i
    simp only [Function.comp]
    omega

namespace Inserted

variable {mark name s t needle : List Char}

/-- Both texts hold a clear text after stretches that correspond, or neither holds
it. -/
theorem find?_cases (hsolid : AreSolid mark name) (hne : needle ≠ [])
    (hclear : IsClear mark name needle) (h : Inserted mark name s t) :
    (Chars.find? needle s = none ∧ Chars.find? needle t = none) ∨
      ∃ i j, Chars.find? needle s = some i ∧ Chars.find? needle t = some j ∧
        Inserted mark name (s.take i) (t.take j) := by
  induction h with
  | nil =>
    refine .inl ⟨?_, ?_⟩
    · rw [Chars.find?, if_neg (by simpa using hne)]
    · rw [Chars.find?, if_neg (by simpa using hne)]
  | @keep s t c h ih =>
    have hlead := isPrefix_iff hsolid.mark_ne_nil hclear.head_not_mem hclear.suffix (keep c h)
    rw [← List.isPrefixOf_iff_prefix, ← List.isPrefixOf_iff_prefix] at hlead
    rw [Chars.find?, Chars.find?]
    by_cases hs : needle.isPrefixOf (c :: s) = true
    · rw [if_pos hs, if_pos (hlead.mp hs)]
      exact .inr ⟨0, 0, rfl, rfl, nil⟩
    · rw [if_neg hs, if_neg fun ht => hs (hlead.mpr ht)]
      rcases ih with ⟨hs, ht⟩ | ⟨i, j, hs, ht, hij⟩
      · rw [hs, ht]
        exact .inl ⟨rfl, rfl⟩
      · rw [hs, ht]
        exact .inr ⟨i + 1, j + 1, rfl, rfl, keep c hij⟩
  | @insert s t h ih =>
    have hname : ∀ c, needle.head? = some c → c ∉ name :=
      fun c hc hmem => hclear.not_mem c hc (List.mem_append_right mark hmem)
    rw [Chars.find?_append_of_not_mem hne hname, Chars.find?_append_of_not_mem hne hclear.not_mem]
    rcases ih with ⟨hs, ht⟩ | ⟨i, j, hs, ht, hij⟩
    · rw [hs, ht]
      exact .inl ⟨rfl, rfl⟩
    · rw [hs, ht]
      refine .inr ⟨_, _, rfl, rfl, ?_⟩
      rw [List.take_length_add_append, List.take_length_add_append]
      exact insert hij

/-- Both texts hold the same clear texts. -/
theorem contains_eq (hsolid : AreSolid mark name) (hne : needle ≠ [])
    (hclear : IsClear mark name needle) (h : Inserted mark name s t) :
    Chars.contains needle s = Chars.contains needle t := by
  rw [← Chars.isSome_find?, ← Chars.isSome_find?]
  rcases find?_cases hsolid hne hclear h with ⟨hs, ht⟩ | ⟨i, j, hs, ht, -⟩
  · rw [hs, ht]
  · rw [hs, ht]
    rfl

/-! ## Trimming -/

theorem trimStart (hsolid : AreSolid mark name) (h : Inserted mark name s t) :
    Inserted mark name (Chars.trimStart s) (Chars.trimStart t) := by
  induction h with
  | nil => exact nil
  | @keep s t c h ih =>
    rw [Chars.trimStart_cons, Chars.trimStart_cons]
    split
    · exact ih
    · exact keep c h
  | @insert s t h ih =>
    have hs : Chars.trimStart (name ++ s) = name ++ s := by
      cases hname : name with
      | nil => exact absurd hname hsolid.name_ne_nil
      | cons c rest =>
        have hc := hsolid.not_isBlank c (List.mem_append_right _ (hname ▸ List.mem_cons_self))
        exact Chars.trimStart_eq_self hc
    have ht : Chars.trimStart (mark ++ name ++ t) = mark ++ name ++ t := by
      cases hmark : mark with
      | nil => exact absurd hmark hsolid.mark_ne_nil
      | cons c rest =>
        have hc := hsolid.not_isBlank c (List.mem_append_left _ (hmark ▸ List.mem_cons_self))
        exact Chars.trimStart_eq_self hc
    rw [hs, ht]
    exact insert h

theorem trimEnd (hsolid : AreSolid mark name) (h : Inserted mark name s t) :
    Inserted mark name (Chars.trimEnd s) (Chars.trimEnd t) := by
  induction h with
  | nil => exact nil
  | @keep s t c h ih =>
    rw [Chars.trimEnd_cons, Chars.trimEnd_cons]
    by_cases hs : Chars.trimEnd s = []
    · rw [if_pos hs, if_pos ((ih.eq_nil_iff hsolid).mp hs)]
      exact refl _
    · rw [if_neg hs, if_neg fun ht => hs ((ih.eq_nil_iff hsolid).mpr ht)]
      exact keep c ih
  | @insert s t h ih =>
    obtain ⟨front, c, hlast⟩ := List.eq_nil_or_concat name |>.resolve_left hsolid.name_ne_nil
    rw [List.concat_eq_append] at hlast
    have hc : isBlank c = false :=
      hsolid.not_isBlank c (List.mem_append_right _ (hlast ▸ List.mem_concat_self))
    have hget : name.getLast? = some c := by
      rw [hlast, List.getLast?_concat]
    have hget' : (mark ++ name).getLast? = some c := by
      rw [List.getLast?_append, hget]
      rfl
    rw [Chars.trimEnd_append_of_getLast? hget hc, Chars.trimEnd_append_of_getLast? hget' hc]
    exact insert ih

/-- Trimming keeps the correspondence. -/
theorem trim (hsolid : AreSolid mark name) (h : Inserted mark name s t) :
    Inserted mark name (Chars.trim s) (Chars.trim t) :=
  (h.trimStart hsolid).trimEnd hsolid

/-! ## Words -/

theorem wordsFrom (hsolid : AreSolid mark name) (h : Inserted mark name s t)
    {v w : List Char} (hword : Inserted mark name v.reverse w.reverse) :
    List.Forall₂ (Inserted mark name) (Chars.wordsFrom v s) (Chars.wordsFrom w t) := by
  have hempty : ∀ {v w : List Char}, Inserted mark name v.reverse w.reverse → (v = [] ↔ w = []) :=
    fun h => by simpa using h.eq_nil_iff hsolid
  induction h generalizing v w with
  | nil =>
    rw [Chars.wordsFrom, Chars.wordsFrom]
    by_cases hv : v = []
    · rw [(hempty hword).mp hv, hv]
      exact .nil
    · have hw : w ≠ [] := fun hw => hv ((hempty hword).mpr hw)
      rw [if_neg (by simpa using hv), if_neg (by simpa using hw)]
      exact .cons hword .nil
  | @keep s t c h ih =>
    cases hc : isBlank c with
    | true =>
      rw [Chars.wordsFrom_cons_blank hc, Chars.wordsFrom_cons_blank hc]
      by_cases hv : v = []
      · rw [if_pos hv, if_pos ((hempty hword).mp hv)]
        exact ih nil
      · rw [if_neg hv, if_neg fun hw => hv ((hempty hword).mpr hw)]
        exact .cons hword (ih nil)
    | false =>
      rw [Chars.wordsFrom_cons_letter hc, Chars.wordsFrom_cons_letter hc]
      refine ih ?_
      rw [List.reverse_cons, List.reverse_cons]
      exact hword.append (refl [c])
  | @insert s t h ih =>
    rw [Chars.wordsFrom_append fun c hc => hsolid.not_isBlank c (List.mem_append_right _ hc),
      Chars.wordsFrom_append hsolid.not_isBlank]
    refine ih ?_
    rw [List.reverse_append, List.reverse_append, List.reverse_reverse, List.reverse_reverse]
    refine hword.append ?_
    have hinsert := insert (@nil mark name)
    rwa [List.append_nil, List.append_nil] at hinsert

/-- Cutting into words keeps the correspondence. -/
theorem words (hsolid : AreSolid mark name) (h : Inserted mark name s t) :
    List.Forall₂ (Inserted mark name) (Chars.words s) (Chars.words t) :=
  h.wordsFrom hsolid nil

end Inserted
end VendorPrefixing
