import VendorPrefixing.Json.Reader

/-!
# Texts in TOML

TOML has four notations for a text: between double quotes, where a backslash
begins an escape, or between single quotes, where nothing is an escape, and each
of these on one line or, with the quotes tripled, on several.

Every reader takes the text from some place on and gives back what follows.

Main results:

- Theorem `Toml.literal?_nil`: a text has to be closed.
-/

namespace VendorPrefixing
namespace Toml

/-- Whether a character may stand in a text as it is: every one but the control
characters, of which only the tabulator is admitted. -/
def isPrintable (c : Char) : Bool :=
  c == '\t' || (0x20 ≤ c.toNat && c.toNat != 0x7F)

/-- Whether a character is white space inside a line. -/
def isBlank (c : Char) : Bool :=
  c == ' ' || c == '\t'

/-- The rest after a line break, if the text begins with one. -/
def lineBreak? : List Char → Option (List Char)
  | '\n' :: rest => some rest
  | '\r' :: '\n' :: rest => some rest
  | _ => none

/-- The character with a number given in hexadecimal digits. -/
def numbered? (digits : List Char) : Option Char := do
  let n ← Json.hexNumber? digits
  if n < 0xD800 ∨ (0xE000 ≤ n ∧ n < 0x110000) then some (Char.ofNat n) else none

/-- What a letter after a backslash stands for. -/
def escape? (c : Char) : Option Char :=
  if c = '/' then none else Json.escape? c

/-- A text between double quotes on one line, after its opening quote. -/
def basic? : List Char → Option (List Char × List Char)
  | [] => none
  | '"' :: rest => some ([], rest)
  | '\\' :: 'u' :: a :: b :: c :: d :: rest => do
    let x ← numbered? [a, b, c, d]
    let (s, rest) ← basic? rest
    return (x :: s, rest)
  | '\\' :: 'U' :: a :: b :: c :: d :: e :: f :: g :: h :: rest => do
    let x ← numbered? [a, b, c, d, e, f, g, h]
    let (s, rest) ← basic? rest
    return (x :: s, rest)
  | '\\' :: c :: rest => do
    let x ← escape? c
    let (s, rest) ← basic? rest
    return (x :: s, rest)
  | c :: rest =>
    if isPrintable c then (basic? rest).map fun (s, rest) => (c :: s, rest) else none

/-- A text between single quotes on one line, after its opening quote. -/
def literal? : List Char → Option (List Char × List Char)
  | [] => none
  | '\'' :: rest => some ([], rest)
  | c :: rest =>
    if isPrintable c then (literal? rest).map fun (s, rest) => (c :: s, rest) else none

/-- Up to two quotes may stand directly before the three that close a text on
several lines; they belong to it. -/
def closing? (quote : Char) (s : List Char) : Option (List Char × List Char) :=
  let quotes := s.takeWhile (· == quote)
  if quotes.length < 3 then none
  else
    let size := min quotes.length 5
    some (quotes.take (size - 3), s.drop size)

/-- Whether a backslash before this text ends its line, so that the line break and
all white space after it do not count. -/
def continuesLine (s : List Char) : Bool :=
  (lineBreak? (s.dropWhile isBlank)).isSome

/-- A text between tripled double quotes, after its opening quotes.  With
`joining`, the white space after a backslash at the end of a line is passed. -/
def basicLines? (joining : Bool) : List Char → Option (List Char × List Char)
  | [] => none
  | '\\' :: 'u' :: a :: b :: c :: d :: rest => do
    let x ← numbered? [a, b, c, d]
    let (s, rest) ← basicLines? false rest
    return (x :: s, rest)
  | '\\' :: 'U' :: a :: b :: c :: d :: e :: f :: g :: h :: rest => do
    let x ← numbered? [a, b, c, d, e, f, g, h]
    let (s, rest) ← basicLines? false rest
    return (x :: s, rest)
  | '\\' :: c :: rest =>
    if continuesLine (c :: rest) then basicLines? true rest
    else do
      let x ← escape? c
      let (s, rest) ← basicLines? false rest
      return (x :: s, rest)
  | '\r' :: '\n' :: rest =>
    if joining then basicLines? true rest
    else (basicLines? false rest).map fun (s, rest) => ('\n' :: s, rest)
  | c :: rest =>
    if c = '"' then
      match closing? '"' (c :: rest) with
      | some found => some found
      | none => (basicLines? false rest).map fun (s, rest) => (c :: s, rest)
    else if joining && (isBlank c || c == '\n') then basicLines? true rest
    else if isPrintable c || c == '\n' then
      (basicLines? false rest).map fun (s, rest) => (c :: s, rest)
    else none

/-- A text between tripled single quotes, after its opening quotes. -/
def literalLines? : List Char → Option (List Char × List Char)
  | [] => none
  | '\r' :: '\n' :: rest =>
    (literalLines? rest).map fun (s, rest) => ('\n' :: s, rest)
  | c :: rest =>
    if c = '\'' then
      match closing? '\'' (c :: rest) with
      | some found => some found
      | none => (literalLines? rest).map fun (s, rest) => (c :: s, rest)
    else if isPrintable c || c == '\n' then
      (literalLines? rest).map fun (s, rest) => (c :: s, rest)
    else none

/-- A text in any of the notations that fit on one line. -/
def line? : List Char → Option (String × List Char)
  | '"' :: rest => (basic? rest).map fun (s, rest) => (.ofList s, rest)
  | '\'' :: rest => (literal? rest).map fun (s, rest) => (.ofList s, rest)
  | _ => none

/-- A text in any notation.  A line break directly after tripled quotes does not
belong to it. -/
def text? : List Char → Option (String × List Char)
  | '"' :: '"' :: '"' :: rest =>
    (basicLines? false ((lineBreak? rest).getD rest)).map fun (s, rest) => (.ofList s, rest)
  | '\'' :: '\'' :: '\'' :: rest =>
    (literalLines? ((lineBreak? rest).getD rest)).map fun (s, rest) => (.ofList s, rest)
  | s => line? s

/-- A text has to be closed. -/
theorem literal?_nil : literal? [] = none :=
  rfl

end Toml
end VendorPrefixing
