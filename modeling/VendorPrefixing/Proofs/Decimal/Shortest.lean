import VendorPrefixing.Decimal.Shortest

/-!
# The characters of written numbers

Main results:

- Theorem `Decimal.isDigit_of_mem_toString`: whole numbers are written in digits.
- Theorem `Decimal.mem_render`: floats are written with digits, a sign, a point, or
  as one of two words.
-/

namespace VendorPrefixing
namespace Decimal

variable {c : Char}

/-! ## Whole numbers -/

/-- Natural numbers are written in digits. -/
theorem isDigit_of_mem_toString {n : Nat} (h : c ∈ (toString n).toList) : c.isDigit = true := by
  rw [Nat.toString_eq_repr, Nat.toList_repr] at h
  exact Nat.isDigit_of_mem_toDigits (by decide) (by decide) h

/-- Integers are written in digits with a sign. -/
theorem mem_toString_int {n : Int} (h : c ∈ (toString n).toList) :
    c.isDigit = true ∨ c = '-' := by
  rw [Int.toString_eq_repr, Int.repr_eq_if] at h
  have hdigit : ∀ k : Nat, c ∈ k.repr.toList → c.isDigit = true := fun k hk =>
    isDigit_of_mem_toString (n := k) (by rw [Nat.toString_eq_repr]; exact hk)
  split at h
  · exact .inl (hdigit _ h)
  · rw [String.toList_append, List.mem_append] at h
    rcases h with h | h
    · exact .inr (List.mem_singleton.mp h)
    · exact .inl (hdigit _ h)

/-! ## Floats -/

theorem mem_pushn {s : String} {d : Char} {n : Nat} (h : c ∈ (s.pushn d n).toList) :
    c ∈ s.toList ∨ c = d := by
  rw [String.pushn_eq_repeat_push] at h
  induction n with
  | zero => exact .inl h
  | succ n ih =>
    rw [Nat.repeat, String.toList_push, List.mem_append] at h
    rcases h with h | h
    · exact ih h
    · exact .inr (List.mem_singleton.mp h)

theorem isDigit_of_mem_padded {n width : Nat} (h : c ∈ (padded n width).toList) :
    c.isDigit = true := by
  rw [padded, String.toList_append, List.mem_append] at h
  rcases h with h | h
  · rcases mem_pushn h with h | rfl
    · exact absurd h List.not_mem_nil
    · rfl
  · exact isDigit_of_mem_toString h

/-- Positional notation consists of digits and a point. -/
theorem mem_positional {digits : Nat} {exponent : Int}
    (h : c ∈ (positional digits exponent).toList) : c.isDigit = true ∨ c = '.' := by
  rw [positional] at h
  dsimp only at h
  split at h
  · exact .inl (isDigit_of_mem_toString h)
  · split at h
    · exact .inl (isDigit_of_mem_toString h)
    · simp only [String.toList_append, String.toList_ofList, List.mem_append] at h
      rcases h with (h | h) | h
      · exact .inl (isDigit_of_mem_toString h)
      · exact .inr (List.mem_singleton.mp h)
      · have hpadded := List.dropWhile_subset _ (List.mem_reverse.mp h)
        exact .inl (isDigit_of_mem_padded (List.mem_reverse.mp hpadded))

/-- What the text of a float is made of. -/
theorem mem_render {x : Float} (h : c ∈ (render x).toList) :
    c.isDigit = true ∨ c ∈ ['-', '.', 'i', 'n', 'f', 'N', 'a'] := by
  have hsign : ∀ p : Prop, [Decidable p] → ∀ s : String,
      c ∈ ((if p then "-" else "") ++ s).toList → c = '-' ∨ c ∈ s.toList := by
    intro p _ s hs
    rw [String.toList_append, List.mem_append] at hs
    rcases hs with hs | hs
    · split at hs
      · exact .inl (List.mem_singleton.mp hs)
      · exact absurd hs List.not_mem_nil
    · exact .inr hs
  rw [render] at h
  dsimp only at h
  split at h
  · split at h
    · rcases hsign _ _ h with rfl | h
      · exact .inr (by decide)
      · have hinf : "inf".toList ⊆ ['-', '.', 'i', 'n', 'f', 'N', 'a'] := by decide
        exact .inr (hinf h)
    · have hnan : "NaN".toList ⊆ ['-', '.', 'i', 'n', 'f', 'N', 'a'] := by decide
      exact .inr (hnan h)
  · split at h
    · rcases hsign _ _ h with rfl | h
      · exact .inr (by decide)
      · rw [List.mem_singleton.mp h]
        exact .inl rfl
    · rcases hsign _ _ h with rfl | h
      · exact .inr (by decide)
      · rcases mem_positional h with h | rfl
        · exact .inl h
        · exact .inr (by decide)

end Decimal
end VendorPrefixing
