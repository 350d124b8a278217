import Mathlib.Data.List.TakeWhile
import VendorPrefixing.Decimal.Reading

/-!
# Which characters numbers hold

Main results:

- Theorem `Chars.not_mem_of_integer?`: an integer holds no other letters than digits
  and a sign.
- Theorem `Chars.not_mem_of_real?`: neither does a real number hold a letter outside
  exponents and the words for what is no finite number.
-/

namespace VendorPrefixing
namespace Chars

variable {s : List Char} {c : Char}

/-- What digits are read from to the end is made of digits. -/
theorem isDigit_of_digits? {digits : List Char} (h : digits? s = some (digits, []))
    (hc : c ∈ s) : c.isDigit = true := by
  rw [digits?] at h
  split at h
  · cases h
  · simp only [Option.some.injEq, Prod.mk.injEq] at h
    exact List.dropWhile_eq_nil_iff.mp h.2 c hc

/-- A sign takes at most itself away. -/
theorem mem_sign (hc : c ∈ s) (hminus : c ≠ '-') (hplus : c ≠ '+') : c ∈ (sign s).2 := by
  unfold sign
  split
  · exact (List.mem_cons.mp hc).resolve_left hminus
  · exact (List.mem_cons.mp hc).resolve_left hplus
  · exact hc

/-- A character that is neither a digit nor a sign. -/
structure IsLetter (c : Char) : Prop where
  not_isDigit : c.isDigit = false
  ne_minus : c ≠ '-'
  ne_plus : c ≠ '+'

theorem digits?_ne_of_isLetter {digits : List Char} (hletter : IsLetter c) (hc : c ∈ s) :
    digits? s ≠ some (digits, []) := by
  intro h
  have hdigit := isDigit_of_digits? h hc
  rw [hletter.not_isDigit] at hdigit
  cases hdigit

/-- A letter stays behind the digits in front of it. -/
theorem mem_dropWhile_isDigit (hletter : IsLetter c) (hc : c ∈ s) :
    c ∈ s.dropWhile Char.isDigit := by
  rw [← List.takeWhile_append_dropWhile (p := Char.isDigit) (l := s)] at hc
  rcases List.mem_append.mp hc with hc | hc
  · have hdigit := List.mem_takeWhile_imp hc
    rw [hletter.not_isDigit] at hdigit
    cases hdigit
  · exact hc

/-- An integer holds no letter. -/
theorem not_mem_of_integer? {n : Int} (hletter : IsLetter c) (h : integer? s = some n) : c ∉ s := by
  intro hc
  have hrest := mem_sign hc hletter.ne_minus hletter.ne_plus
  rw [integer?] at h
  generalize sign s = signed at h hrest
  obtain ⟨negative, rest⟩ := signed
  dsimp only at h hrest
  split at h
  · rename_i digits hdigits
    exact digits?_ne_of_isLetter hletter hrest hdigits
  · cases h

theorem exponent?_eq_none (hletter : IsLetter c) (he : c ≠ 'e') (hE : c ≠ 'E') (hc : c ∈ s) :
    exponent? s = none := by
  cases s with
  | nil => exact absurd hc List.not_mem_nil
  | cons d rest =>
    rw [exponent?]
    split
    · rename_i hd
      have hmem : c ∈ rest := by
        rcases List.mem_cons.mp hc with rfl | hmem
        · simp [he, hE] at hd
        · exact hmem
      have hrest := mem_sign hmem hletter.ne_minus hletter.ne_plus
      dsimp only
      split
      · rename_i digits hdigits
        exact absurd hdigits (digits?_ne_of_isLetter hletter hrest)
      · rfl
    · rfl

/-- A magnitude holds no letter but the sign of an exponent. -/
theorem magnitude?_eq_none (hletter : IsLetter c) (he : c ≠ 'e') (hE : c ≠ 'E') (hdot : c ≠ '.')
    (hc : c ∈ s) : magnitude? s = none := by
  have hrest := mem_dropWhile_isDigit hletter hc
  rw [magnitude?]
  split
  rename_i fraction rest hsplit
  have hmem : c ∈ rest := by
    split at hsplit
    · rename_i behind hbehind
      rw [hbehind] at hrest
      cases hsplit
      exact mem_dropWhile_isDigit hletter ((List.mem_cons.mp hrest).resolve_left hdot)
    · cases hsplit
      exact hrest
  split
  · rfl
  · rw [exponent?_eq_none hletter he hE hmem]
    rfl

/-- A real number holds no letter outside exponents and the words for what is no
finite number. -/
theorem not_mem_of_real? {x : Float} (hletter : IsLetter c) (hlower : c.toLower = c)
    (h : c ∉ ['e', 'E', '.', 'i', 'n', 'f', 't', 'y', 'a']) (hx : real? s = some x) : c ∉ s := by
  intro hc
  simp only [List.mem_cons, List.not_mem_nil, or_false, not_or] at h
  obtain ⟨he, hE, hdot, hi, hn, hf, ht, hy, ha⟩ := h
  have hrest := mem_sign hc hletter.ne_minus hletter.ne_plus
  have hword : c ∈ (sign s).2.map Char.toLower := List.mem_map.mpr ⟨c, hrest, hlower⟩
  rw [real?] at hx
  generalize sign s = signed at hx hrest hword
  obtain ⟨negative, rest⟩ := signed
  obtain ⟨y, hy', -⟩ := Option.map_eq_some_iff.mp hx
  split at hy'
  · rename_i heq
    simp only [Bool.or_eq_true, decide_eq_true_eq] at heq
    rcases heq with heq | heq
    · rw [heq] at hword
      simp [hi, hn, hf] at hword
    · rw [heq] at hword
      simp [hi, hn, hf, ht, hy] at hword
  · split at hy'
    · rename_i heq
      rw [heq] at hword
      simp [hn, ha] at hword
    · rw [magnitude?_eq_none hletter he hE hdot hrest] at hy'
      cases hy'

end Chars
end VendorPrefixing
