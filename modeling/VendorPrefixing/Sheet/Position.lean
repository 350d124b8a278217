/-!
# Positions

Where a character stands in a text: its line and its place in the line, both
counted from one.  Only a line feed ends a line.

Main results:

- Theorem `Position.afterText_append`: a text can be passed in two steps.
- Theorem `Position.afterText_of_no_lineFeed`: inside a line only the column
  moves.
-/

namespace VendorPrefixing

/-- A line and a column. -/
structure Position where
  line : Nat
  column : Nat
deriving DecidableEq, Repr

namespace Position

/-- The place of the first character of a text. -/
def start : Position where
  line := 1
  column := 1

/-- The place of no character, held by declarations that were not read from a
text. -/
def none : Position where
  line := 0
  column := 0

/-- The place after one more character. -/
def after (p : Position) (c : Char) : Position :=
  if c = '\n' then ⟨p.line + 1, 1⟩ else ⟨p.line, p.column + 1⟩

/-- The place after a stretch of text. -/
def afterText (p : Position) (s : List Char) : Position :=
  s.foldl after p

@[simp]
theorem afterText_nil (p : Position) : p.afterText [] = p :=
  rfl

@[simp]
theorem afterText_cons (p : Position) (c : Char) (s : List Char) :
    p.afterText (c :: s) = (p.after c).afterText s :=
  rfl

/-- A text can be passed in two steps. -/
theorem afterText_append (p : Position) (s t : List Char) :
    p.afterText (s ++ t) = (p.afterText s).afterText t :=
  List.foldl_append

/-- A stretch without a line feed moves the column only. -/
theorem afterText_of_no_lineFeed {p : Position} {s : List Char} (h : '\n' ∉ s) :
    p.afterText s = ⟨p.line, p.column + s.length⟩ := by
  induction s generalizing p with
  | nil => rfl
  | cons c s ih =>
    have hc : c ≠ '\n' := fun e => h (e ▸ List.mem_cons_self)
    rw [afterText_cons, ih fun m => h (List.mem_cons_of_mem c m)]
    simp only [after, hc, if_false, List.length_cons, Position.mk.injEq, true_and]
    omega

end Position
end VendorPrefixing
