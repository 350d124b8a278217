import VendorPrefixing.Text.Alphabetic
import VendorPrefixing.Text.Mark
import VendorPrefixing.Text.Number

/-!
# Character classes

The classes of characters that decide where a name or a word ends.  They differ:
a combining mark belongs to a word but is not alphanumeric, and a fraction sign
such as U+00BD is alphanumeric but belongs to no word.

Each class asks about ASCII first and consults the Unicode tables only beyond
it, so that a question about an ASCII character is settled by computation.

Main results:

- Theorem `isNameChar_iff`: a name is made of alphanumeric characters, hyphens
  and underscores.
- Theorems `isAlphanumeric_of_isAlphanum` and `isWordChar_of_isAlphanum`: both
  classes hold the ASCII letters and digits.
-/

namespace VendorPrefixing

/-- Whether a code point lies in one of the closed ranges. -/
def Text.inRanges (ranges : List (Nat × Nat)) (n : Nat) : Bool :=
  ranges.any fun range => range.1 ≤ n && n ≤ range.2

/-- Whether the character is alphabetic or any kind of number. -/
def isAlphanumeric (c : Char) : Bool :=
  if c.toNat < 0x80 then
    c.isAlphanum
  else
    Text.inRanges Text.alphabeticRanges c.toNat || Text.inRanges Text.numberRanges c.toNat

/-- Whether the character is a decimal digit of some script. -/
def isDecimalDigit (c : Char) : Bool :=
  if c.toNat < 0x80 then c.isDigit else Text.inRanges Text.decimalDigitRanges c.toNat

/-- Whether the character joins words, as the underscore does. -/
def isConnector (c : Char) : Bool :=
  let n := c.toNat
  n == 0x5F || (0x203F ≤ n && n ≤ 0x2040) || n == 0x2054 || (0xFE33 ≤ n && n ≤ 0xFE34) ||
    (0xFE4D ≤ n && n ≤ 0xFE4F) || n == 0xFF3F

/-- Whether the character is part of a word: alphabetic, a mark, a decimal digit,
a connector or one of the two join controls. -/
def isWordChar (c : Char) : Bool :=
  if c.toNat < 0x80 then
    c.isAlphanum || c == '_'
  else
    Text.inRanges Text.alphabeticRanges c.toNat || Text.inRanges Text.markRanges c.toNat ||
      Text.inRanges Text.decimalDigitRanges c.toNat || isConnector c ||
      c.toNat == 0x200C || c.toNat == 0x200D

/-- Whether the character may stand in the name of a property or an at-rule. -/
def isNameChar (c : Char) : Bool :=
  isAlphanumeric c || c == '-' || c == '_'

theorem isNameChar_iff {c : Char} :
    isNameChar c = true ↔ isAlphanumeric c = true ∨ c = '-' ∨ c = '_' := by
  simp [isNameChar, or_assoc]

/-- An ASCII letter or digit has a code point below 128. -/
theorem toNat_lt_of_isAlphanum {c : Char} (h : c.isAlphanum = true) : c.toNat < 0x80 := by
  delta Char.isAlphanum Char.isAlpha Char.isUpper Char.isLower Char.isDigit at h
  simp only [Bool.or_eq_true, Bool.and_eq_true, decide_eq_true_eq] at h
  simp only [UInt32.le_iff_toNat_le] at h
  have hc : c.toNat = c.val.toNat := rfl
  rw [hc]
  rcases h with (⟨_, h⟩ | ⟨_, h⟩) | ⟨_, h⟩ <;>
    exact Nat.lt_of_le_of_lt h (by decide)

/-- The ASCII letters and digits are alphanumeric. -/
theorem isAlphanumeric_of_isAlphanum {c : Char} (h : c.isAlphanum = true) :
    isAlphanumeric c = true := by
  rw [isAlphanumeric, if_pos (toNat_lt_of_isAlphanum h), h]

/-- The ASCII letters and digits are word characters. -/
theorem isWordChar_of_isAlphanum {c : Char} (h : c.isAlphanum = true) :
    isWordChar c = true := by
  rw [isWordChar, if_pos (toNat_lt_of_isAlphanum h), h]
  rfl

end VendorPrefixing
