import VendorPrefixing.Json.Basic
import VendorPrefixing.Text.Find

/-!
# Writing JSON

JSON on several lines, with two spaces for each level of nesting.  An array or an
object without content stays on one line.  Only the characters that JSON cannot
hold are escaped.

Main results:

- Theorems `Json.pretty_array_nil` and `Json.pretty_object_nil`: empty values
  stay on one line.
-/

namespace VendorPrefixing
namespace Json

/-- A hexadecimal digit. -/
def hexDigit (n : Nat) : Char :=
  if n < 10 then Char.ofNat (n + '0'.toNat) else Char.ofNat (n - 10 + 'a'.toNat)

/-- How a character stands between quotes. -/
def escaped (c : Char) : List Char :=
  if c = '"' then ['\\', '"']
  else if c = '\\' then ['\\', '\\']
  else if c = '\n' then ['\\', 'n']
  else if c = '\r' then ['\\', 'r']
  else if c = '\t' then ['\\', 't']
  else if c = '\x08' then ['\\', 'b']
  else if c = '\x0c' then ['\\', 'f']
  else if c.toNat < 0x20 then
    ['\\', 'u', '0', '0', hexDigit (c.toNat / 16), hexDigit (c.toNat % 16)]
  else [c]

/-- A string between quotes. -/
def quoted (s : String) : String :=
  "\"" ++ String.ofList (s.toList.flatMap escaped) ++ "\""

/-- The start of a line at a level of nesting. -/
def newLine (level : Nat) : String :=
  "\n" ++ "".pushn ' ' (2 * level)

/-- Items on lines of their own between two brackets. -/
def bracketed (level : Nat) (opening closing : String) (items : List String) : String :=
  if items.isEmpty then opening ++ closing
  else
    opening ++ newLine (level + 1) ++ Text.join ("," ++ newLine (level + 1)) items ++
      newLine level ++ closing

mutual

/-- The text of a value at a level of nesting. -/
def pretty (level : Nat) : Json → String
  | null => "null"
  | bool b => if b then "true" else "false"
  | number digits => digits
  | text s => quoted (s.getD "")
  | array items => bracketed level "[" "]" (prettyItems (level + 1) items)
  | object members => bracketed level "\x7b" "\x7d" (prettyMembers (level + 1) members)

/-- The texts of the items of an array. -/
def prettyItems (level : Nat) : List Json → List String
  | [] => []
  | item :: rest => pretty level item :: prettyItems level rest

/-- The texts of the members of an object. -/
def prettyMembers (level : Nat) : List (Option String × Json) → List String
  | [] => []
  | (name, value) :: rest =>
    (quoted (name.getD "") ++ ": " ++ pretty level value) :: prettyMembers level rest

end

/-- An array without items stays on one line. -/
theorem pretty_array_nil (level : Nat) : pretty level (.array []) = "[]" := by
  simp [pretty, prettyItems, bracketed]

/-- An object without members stays on one line. -/
theorem pretty_object_nil (level : Nat) : pretty level (.object []) = "\x7b\x7d" := by
  simp [pretty, prettyMembers, bracketed]

end Json
end VendorPrefixing
