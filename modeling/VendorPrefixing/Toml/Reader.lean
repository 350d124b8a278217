import VendorPrefixing.Toml.Basic
import VendorPrefixing.Toml.Scalar
import VendorPrefixing.Toml.Text

/-!
# Reading TOML

The members of the table that a TOML document describes.  A document is read line
by line; a value may reach over several lines where it holds brackets or tripled
quotes.

Every reader takes the text from some place on and gives back what follows.  The
readers of nested values carry a bound on the number of steps that is computed
from the length of the text.

Main results:

- Theorem `Toml.read?_nil`: the empty document describes the empty table.
-/

namespace VendorPrefixing
namespace Toml

/-! ## Blanks, comments and keys -/

/-- The text from the next place on that is not white space inside the line. -/
def skipBlanks (s : List Char) : List Char :=
  s.dropWhile isBlank

/-- What follows the end of a line, before which only a comment may stand. -/
def endLine? (s : List Char) : Option (List Char) :=
  let rest :=
    match skipBlanks s with
    | '#' :: comment => comment.dropWhile isPrintable
    | rest => rest
  if rest.isEmpty then some [] else lineBreak? rest

/-- The text from the next place on that is neither white space nor a line break
nor inside a comment. -/
def skipLines? (inComment : Bool) : List Char → Option (List Char)
  | [] => some []
  | '\r' :: '\n' :: rest => skipLines? false rest
  | c :: rest =>
    if c = '\n' then skipLines? false rest
    else if inComment then if isPrintable c then skipLines? true rest else none
    else if isBlank c then skipLines? false rest
    else if c = '#' then skipLines? true rest
    else some (c :: rest)

/-- Whether a character may stand in a key without quotes. -/
def isKeyChar (c : Char) : Bool :=
  c.isAlphanum || c == '-' || c == '_'

/-- One key. -/
def key? (s : List Char) : Option (String × List Char) :=
  let bare := s.takeWhile isKeyChar
  if bare.isEmpty then line? s else some (.ofList bare, s.drop bare.length)

/-- Keys with points between them: all but the last, and the last. -/
def keys? : (steps : Nat) → List Char → Option ((List String × String) × List Char)
  | 0, _ => none
  | steps + 1, s => do
    let (key, rest) ← key? (skipBlanks s)
    match skipBlanks rest with
    | '.' :: rest => do
      let ((path, last), rest) ← keys? steps rest
      return ((key :: path, last), rest)
    | rest => some (([], key), rest)

/-! ## Values -/

/-- Whether a character may stand in a word without quotes. -/
def isWordChar (c : Char) : Bool :=
  c.isAlphanum || c == '+' || c == '-' || c == '_' || c == '.' || c == ':'

/-- The word at the front of a text.  A blank between a date and a time belongs to
it. -/
def word (s : List Char) : List Char :=
  let first := s.takeWhile isWordChar
  match s.drop first.length with
  | ' ' :: c :: rest =>
    if afterDate? first == some [] && c.isDigit then
      first ++ ' ' :: (c :: rest).takeWhile isWordChar
    else first
  | _ => first

/-- A value that is neither a text nor a collection. -/
def scalar? (s : List Char) : Option (Toml × List Char) :=
  let w := word s
  let rest := s.drop w.length
  if w = ['t', 'r', 'u', 'e'] then some (.bool true, rest)
  else if w = ['f', 'a', 'l', 's', 'e'] then some (.bool false, rest)
  else if isScalar w then some (.scalar (.ofList w), rest)
  else none

mutual

/-- A value. -/
def value? : (steps : Nat) → List Char → Option (Toml × List Char)
  | 0, _ => none
  | steps + 1, s =>
    match s with
    | '[' :: rest => (items? steps rest).map fun (items, rest) => (.array items, rest)
    | '{' :: rest =>
      match skipBlanks rest with
      | '}' :: rest => some (.table .inline [], rest)
      | rest => (pairs? steps [] rest).map fun (members, rest) => (.table .inline members, rest)
    | c :: rest =>
      if c = '"' || c = '\'' then (text? (c :: rest)).map fun (s, rest) => (.text s, rest)
      else scalar? (c :: rest)
    | [] => none

/-- The items of an array up to its closing bracket, before which a comma may
stand. -/
def items? : (steps : Nat) → List Char → Option (List Toml × List Char)
  | 0, _ => none
  | steps + 1, s => do
    match ← skipLines? false s with
    | ']' :: rest => some ([], rest)
    | s => do
      let (item, rest) ← value? steps s
      match ← skipLines? false rest with
      | ',' :: rest => do
        let (items, rest) ← items? steps rest
        return (item :: items, rest)
      | ']' :: rest => some ([item], rest)
      | _ => none

/-- The members of an inline table up to its closing brace, added to the ones
before. -/
def pairs? : (steps : Nat) → TomlMembers → List Char → Option (TomlMembers × List Char)
  | 0, _, _ => none
  | steps + 1, members, s => do
    let ((path, key), rest) ← keys? s.length s
    match rest with
    | '=' :: rest => do
      let (value, rest) ← value? steps (skipBlanks rest)
      let (_, members) ← members.setDotted? path key value .header
      match skipBlanks rest with
      | ',' :: rest => pairs? steps members rest
      | '}' :: rest => some (members, rest)
      | _ => none
    | _ => none

end

/-! ## Documents -/

/-- Reads the lines of a document below the header that came last. -/
def lines? : (steps : Nat) → (header : List String) → TomlMembers → List Char →
    Option TomlMembers
  | 0, _, _, _ => none
  | steps + 1, header, members, s =>
    match skipBlanks s with
    | [] => some members
    | '[' :: '[' :: rest => do
      let ((path, key), rest) ← keys? rest.length rest
      match rest with
      | ']' :: ']' :: rest => do
        lines? steps (path ++ [key]) (← members.beginItem? path key) (← endLine? rest)
      | _ => none
    | '[' :: rest => do
      let ((path, key), rest) ← keys? rest.length rest
      match rest with
      | ']' :: rest => do
        lines? steps (path ++ [key]) (← members.beginTable? path key) (← endLine? rest)
      | _ => none
    | c :: rest =>
      if c = '#' || c = '\r' || c = '\n' then do
        lines? steps header members (← endLine? (c :: rest))
      else do
        let ((path, key), after) ← keys? (c :: rest).length (c :: rest)
        match after with
        | '=' :: after => do
          let (value, after) ← value? (2 * after.length + 2) (skipBlanks after)
          lines? steps header (← members.setBelow? header path key value) (← endLine? after)
        | _ => none

/-- The members that a whole document describes.  A byte order mark at the front is
passed. -/
def read? (s : List Char) : Option TomlMembers :=
  let s :=
    match s with
    | '\uFEFF' :: rest => rest
    | s => s
  lines? (s.length + 1) [] [] s

/-- The empty document describes the empty table. -/
theorem read?_nil : read? [] = some [] :=
  rfl

end Toml
end VendorPrefixing
