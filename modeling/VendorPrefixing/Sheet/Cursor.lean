import VendorPrefixing.Sheet.Fault
import VendorPrefixing.Sheet.Stretch
import VendorPrefixing.Text.WhiteSpace

/-!
# Cursors

A cursor is a place in the text of a style sheet: what is left to read and the
position of its first character.  It moves by a number of characters, so that
nothing is skipped without being counted.

Main results:

- Theorem `Cursor.advance_advance`: two moves are one.
- Theorem `Cursor.length_advance_lt`: a move shortens what is left to read.
- Theorem `Cursor.length_stretch_le`: reading running text moves forwards.
-/

namespace VendorPrefixing

/-- A place in a text that is being read. -/
structure Cursor where
  position : Position
  rest : List Char
deriving DecidableEq, Repr

namespace Cursor

/-- The beginning of a text. -/
def ofText (s : List Char) : Cursor where
  position := .start
  rest := s

/-- The place `n` characters later. -/
def advance (c : Cursor) (n : Nat) : Cursor where
  position := c.position.afterText (c.rest.take n)
  rest := c.rest.drop n

/-- The next place that is not white space. -/
def skipBlanks (c : Cursor) : Cursor :=
  c.advance (c.rest.takeWhile isBlank).length

/-- Whether the text goes on with the given character. -/
def sees (c : Cursor) (next : Char) : Bool :=
  c.rest.head? == some next

/-- The place after the given character if that comes next, else the same
place. -/
def skip (c : Cursor) (next : Char) : Cursor :=
  if c.sees next then c.advance 1 else c

/-- The error that something opened `n` characters later is not closed. -/
def unclosed (c : Cursor) : Unclosed → SyntaxError
  | .string n => ⟨(c.advance n).position, .openString⟩
  | .comment n => ⟨(c.advance n).position, .openComment⟩

/-- The running text that comes next, without white space at its ends, and the
place after it. -/
def stretch (c : Cursor) (k : Stretch) : Except SyntaxError (List Char × Cursor) :=
  match k.measure c.rest with
  | .ok n => .ok (Chars.trim (c.rest.take n), c.advance n)
  | .error e => .error (c.unclosed e)

@[simp]
theorem advance_zero (c : Cursor) : c.advance 0 = c := by
  cases c
  simp [advance]

/-- Two moves are one. -/
theorem advance_advance (c : Cursor) (m n : Nat) :
    (c.advance m).advance n = c.advance (m + n) := by
  simp only [advance, List.drop_drop, Cursor.mk.injEq, and_true]
  rw [← Position.afterText_append, List.take_add]

theorem length_advance_le (c : Cursor) (n : Nat) :
    (c.advance n).rest.length ≤ c.rest.length := by
  simp [advance]

/-- A move shortens what is left to read. -/
theorem length_advance_lt {c : Cursor} {n : Nat} (hn : 0 < n) (hc : c.rest ≠ []) :
    (c.advance n).rest.length < c.rest.length := by
  have := List.length_pos_iff.mpr hc
  simp only [advance, List.length_drop]
  omega

theorem length_skipBlanks_le (c : Cursor) : c.skipBlanks.rest.length ≤ c.rest.length :=
  length_advance_le c _

theorem length_skip_le (c : Cursor) (next : Char) :
    (c.skip next).rest.length ≤ c.rest.length := by
  rw [skip]
  split
  · exact length_advance_le c 1
  · exact Nat.le_refl _

theorem ne_nil_of_sees {c : Cursor} {next : Char} (h : c.sees next = true) :
    c.rest ≠ [] := by
  intro hc
  simp [sees, hc] at h

/-- Reading running text moves forwards. -/
theorem length_stretch_le {c c' : Cursor} {k : Stretch} {s : List Char}
    (h : c.stretch k = .ok (s, c')) : c'.rest.length ≤ c.rest.length := by
  rw [stretch] at h
  split at h
  · injection h with h
    exact (Prod.mk.inj h).2 ▸ length_advance_le c _
  · cases h

end Cursor
end VendorPrefixing
