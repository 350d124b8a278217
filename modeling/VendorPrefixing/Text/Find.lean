/-!
# Finding one text inside another

Substring search, joining and cutting into lines.  As elsewhere the work is done
on lists of characters and the versions on `String` only convert.

Main results:

- Theorem `Chars.contains_iff`: a text contains another exactly when it can be
  written with the other between two stretches.
- Theorem `Chars.isSome_find?`: a position is found exactly when there is one.
-/

namespace VendorPrefixing
namespace Chars

/-- Whether `needle` stands somewhere in the text. -/
def contains (needle : List Char) : List Char → Bool
  | [] => needle.isEmpty
  | c :: rest => needle.isPrefixOf (c :: rest) || contains needle rest

/-- The number of characters before the first place where `needle` stands. -/
def find? (needle : List Char) : List Char → Option Nat
  | [] => if needle.isEmpty then some 0 else none
  | c :: rest =>
    if needle.isPrefixOf (c :: rest) then some 0 else (find? needle rest).map (· + 1)

/-- The lines of a text, where `line` holds the line being read, last character
first.  A line feed ends a line and takes a carriage return before it along; a
text that ends in a line feed has no further empty line. -/
def linesFrom (line : List Char) : List Char → List (List Char)
  | [] => if line.isEmpty then [] else [line.reverse]
  | c :: rest =>
    if c = '\n' then
      (match line with
        | '\r' :: start => start.reverse
        | _ => line.reverse) :: linesFrom [] rest
    else
      linesFrom (c :: line) rest

/-- The lines of a text without their ends. -/
def lines (s : List Char) : List (List Char) :=
  linesFrom [] s

/-- The pieces between the separators, where `piece` holds the piece being read,
last character first. -/
def splitOnFrom (separator : Char) (piece : List Char) : List Char → List (List Char)
  | [] => [piece.reverse]
  | c :: rest =>
    if c = separator then piece.reverse :: splitOnFrom separator [] rest
    else splitOnFrom separator (c :: piece) rest

/-- The pieces of a text between the separators, empty ones included. -/
def splitOn (separator : Char) (s : List Char) : List (List Char) :=
  splitOnFrom separator [] s

/-- The number of bytes a text takes in UTF-8. -/
def utf8Size (s : List Char) : Nat :=
  s.foldr (fun c n => c.utf8Size + n) 0

/-- A text contains `needle` exactly when `needle` stands between two stretches
of it. -/
theorem contains_iff {needle s : List Char} :
    contains needle s = true ↔ ∃ before after, s = before ++ needle ++ after := by
  induction s with
  | nil =>
    cases needle with
    | nil => simp [contains]
    | cons a t => simp [contains]
  | cons c rest ih =>
    rw [contains, Bool.or_eq_true, ih, List.isPrefixOf_iff_prefix]
    constructor
    · rintro (⟨after, h⟩ | ⟨before, after, h⟩)
      · exact ⟨[], after, by simpa using h.symm⟩
      · exact ⟨c :: before, after, by simp [h]⟩
    · rintro ⟨before, after, h⟩
      cases before with
      | nil => exact .inl ⟨after, by simpa using h.symm⟩
      | cons b before =>
        simp only [List.cons_append, List.cons.injEq] at h
        exact .inr ⟨before, after, h.2⟩

/-- A position of `needle` is found exactly when the text contains it. -/
theorem isSome_find? {needle s : List Char} :
    (find? needle s).isSome = contains needle s := by
  induction s with
  | nil => cases needle <;> rfl
  | cons c rest ih =>
    rw [find?, contains]
    split
    · simp_all
    · simp_all

end Chars

namespace Text

/-- Whether `needle` stands somewhere in the text. -/
def contains (s needle : String) : Bool :=
  Chars.contains needle.toList s.toList

/-- Whether the text begins with `start`. -/
def startsWith (s start : String) : Bool :=
  start.toList.isPrefixOf s.toList

/-- Whether the text ends with `ending`. -/
def endsWith (s ending : String) : Bool :=
  ending.toList.isSuffixOf s.toList

/-- The text with its ASCII capitals made small. -/
def lower (s : String) : String :=
  String.ofList (s.toList.map Char.toLower)

/-- The texts one after the other with `separator` between neighbours. -/
def join (separator : String) : List String → String
  | [] => ""
  | [s] => s
  | s :: rest => s ++ separator ++ join separator rest

/-- The pieces of a text between the separators, empty ones included. -/
def splitOn (separator : Char) (s : String) : List String :=
  (Chars.splitOn separator s.toList).map String.ofList

/-- The line with the given number, counted from zero. -/
def line? (s : String) (number : Nat) : Option String :=
  (Chars.lines s.toList)[number]?.map String.ofList

end Text
end VendorPrefixing
