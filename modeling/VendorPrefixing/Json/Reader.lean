import VendorPrefixing.Json.Basic

/-!
# Reading JSON

The JSON value behind a text.  A string may be written with escapes that stand for
UTF-16 code units; its text is missing when a surrogate among them has no partner,
which matters only where the text is asked for.

Every reader takes the text from some place on and gives back what follows.  The
readers of nested values carry a bound on the number of steps that is computed
from the length of the text.

Main results:

- Theorem `Json.characters_of_no_code`: without numeric escapes the text of a
  string is what stands between its quotes.
- Theorem `Json.read?_nil`: the empty text is no value.
-/

namespace VendorPrefixing
namespace Json

/-! ## Strings -/

/-- What one position of a string stands for. -/
inductive StringUnit
  | char (c : Char)
  /-- A UTF-16 code unit. -/
  | code (n : Nat)
deriving DecidableEq, Repr

/-- The value of a hexadecimal digit. -/
def hexValue? (c : Char) : Option Nat :=
  if c.isDigit then some (c.toNat - '0'.toNat)
  else if 'a' ≤ c ∧ c ≤ 'f' then some (c.toNat - 'a'.toNat + 10)
  else if 'A' ≤ c ∧ c ≤ 'F' then some (c.toNat - 'A'.toNat + 10)
  else none

/-- The value of hexadecimal digits. -/
def hexNumber? (digits : List Char) : Option Nat :=
  digits.foldlM (fun n c => (hexValue? c).map (16 * n + ·)) 0

/-- What a letter after a backslash stands for. -/
def escape? (c : Char) : Option Char :=
  match c with
  | '"' => some '"'
  | '\\' => some '\\'
  | '/' => some '/'
  | 'b' => some '\x08'
  | 'f' => some '\x0c'
  | 'n' => some '\n'
  | 'r' => some '\r'
  | 't' => some '\t'
  | _ => none

/-- The units of a string whose opening quote has been read. -/
def units? : List Char → Option (List StringUnit × List Char)
  | [] => none
  | '"' :: rest => some ([], rest)
  | '\\' :: 'u' :: a :: b :: c :: d :: rest => do
    let n ← hexNumber? [a, b, c, d]
    let (units, rest) ← units? rest
    return (.code n :: units, rest)
  | '\\' :: e :: rest => do
    let c ← escape? e
    let (units, rest) ← units? rest
    return (.char c :: units, rest)
  | c :: rest =>
    if c.toNat < 0x20 then none
    else do
      let (units, rest) ← units? rest
      return (.char c :: units, rest)

/-- The characters that units stand for, unless a surrogate has no partner. -/
def characters? : List StringUnit → Option (List Char)
  | [] => some []
  | .char c :: rest => (characters? rest).map (c :: ·)
  | .code n :: rest =>
    if n < 0xD800 ∨ 0xE000 ≤ n then (characters? rest).map (Char.ofNat n :: ·)
    else
      match rest with
      | .code m :: rest =>
        if n < 0xDC00 ∧ 0xDC00 ≤ m ∧ m < 0xE000 then
          (characters? rest).map
            (Char.ofNat (0x10000 + (n - 0xD800) * 0x400 + (m - 0xDC00)) :: ·)
        else none
      | _ => none

/-- A string whose opening quote has been read. -/
def string? (s : List Char) : Option (Option String × List Char) :=
  (units? s).map fun (units, rest) => ((characters? units).map String.ofList, rest)

/-! ## Numbers -/

/-- The digits after a point, with the point, or nothing where there is no point. -/
def fraction? : List Char → Option (List Char × List Char)
  | '.' :: rest =>
    let digits := rest.takeWhile Char.isDigit
    if digits.isEmpty then none else some ('.' :: digits, rest.drop digits.length)
  | s => some ([], s)

/-- An exponent with its letter, or nothing where there is none. -/
def exponent? : List Char → Option (List Char × List Char)
  | e :: rest =>
    if e = 'e' ∨ e = 'E' then
      let sign := (rest.take 1).filter fun c => c == '+' || c == '-'
      let digits := (rest.drop sign.length).takeWhile Char.isDigit
      if digits.isEmpty then none
      else some (e :: sign ++ digits, rest.drop (sign.length + digits.length))
    else some ([], e :: rest)
  | [] => some ([], [])

/-- A number with its text.  A whole part of several digits does not begin with
zero. -/
def number? (s : List Char) : Option (Json × List Char) := do
  let sign := (s.take 1).filter (· == '-')
  let whole := (s.drop sign.length).takeWhile Char.isDigit
  if whole.isEmpty || (whole.head? == some '0' && whole.length > 1) then none
  else
    let (fraction, rest) ← fraction? (s.drop (sign.length + whole.length))
    let (exponent, rest) ← exponent? rest
    return (.number (.ofList (sign ++ whole ++ fraction ++ exponent)), rest)

/-! ## Values -/

/-- Whether a character may stand between the parts of a value. -/
def isSpace (c : Char) : Bool :=
  c == ' ' || c == '\n' || c == '\t' || c == '\r'

/-- The text from the next part on. -/
def skipSpace (s : List Char) : List Char :=
  s.dropWhile isSpace

mutual

/-- A value. -/
def value? : (steps : Nat) → List Char → Option (Json × List Char)
  | 0, _ => none
  | steps + 1, s =>
    match skipSpace s with
    | '"' :: rest => (string? rest).map fun (s, rest) => (.text s, rest)
    | '[' :: rest =>
      match skipSpace rest with
      | ']' :: rest => some (.array [], rest)
      | rest => (items? steps rest).map fun (items, rest) => (.array items, rest)
    | '{' :: rest =>
      match skipSpace rest with
      | '}' :: rest => some (.object [], rest)
      | rest => (members? steps rest).map fun (members, rest) => (.object members, rest)
    | 'n' :: 'u' :: 'l' :: 'l' :: rest => some (.null, rest)
    | 't' :: 'r' :: 'u' :: 'e' :: rest => some (.bool true, rest)
    | 'f' :: 'a' :: 'l' :: 's' :: 'e' :: rest => some (.bool false, rest)
    | s => number? s

/-- The items of an array up to its closing bracket, at least one. -/
def items? : (steps : Nat) → List Char → Option (List Json × List Char)
  | 0, _ => none
  | steps + 1, s => do
    let (item, rest) ← value? steps s
    match skipSpace rest with
    | ',' :: rest => do
      let (items, rest) ← items? steps rest
      return (item :: items, rest)
    | ']' :: rest => some ([item], rest)
    | _ => none

/-- The members of an object up to its closing brace, at least one. -/
def members? : (steps : Nat) → List Char → Option (List (Option String × Json) × List Char)
  | 0, _ => none
  | steps + 1, s =>
    match skipSpace s with
    | '"' :: rest => do
      let (name, rest) ← string? rest
      match skipSpace rest with
      | ':' :: rest => do
        let (value, rest) ← value? steps rest
        match skipSpace rest with
        | ',' :: rest => do
          let (members, rest) ← members? steps rest
          return ((name, value) :: members, rest)
        | '}' :: rest => some ([(name, value)], rest)
        | _ => none
      | _ => none
    | _ => none

end

/-- The value that a whole text stands for. -/
def read? (s : List Char) : Option Json := do
  let (value, rest) ← value? (2 * s.length + 2) s
  if (skipSpace rest).isEmpty then some value else none

/-- Without numeric escapes the text of a string is what stands between its
quotes. -/
theorem characters_of_no_code (s : List Char) : characters? (s.map .char) = some s := by
  induction s with
  | nil => rfl
  | cons c s ih => rw [List.map_cons, characters?, ih]; rfl

/-- The empty text is no value. -/
theorem read?_nil : read? [] = none := by
  rfl

end Json
end VendorPrefixing
