import VendorPrefixing.Decimal.Reading
import VendorPrefixing.Json.Reader

/-!
# Numbers, dates and times in TOML

This library has no use for the numbers and dates of a TOML document, but a
document with a malformed one is refused as a whole.  The functions here tell
which words are well formed.

Main results:

- Theorem `Toml.not_isScalar_nil`: the empty word is no scalar.
-/

namespace VendorPrefixing
namespace Toml

/-! ## Numbers -/

/-- Whether a word consists of digits, where single underscores may stand between
two of them. -/
def isGrouped (isDigit : Char → Bool) (s : List Char) : Bool :=
  s.head?.any isDigit && s.getLast?.any isDigit &&
    s.all (fun c => isDigit c || c == '_') &&
    (s.zip s.tail).all fun (a, b) => !(a == '_' && b == '_')

/-- The digits of a word without its underscores. -/
def ungrouped (s : List Char) : List Char :=
  s.filter (· != '_')

/-- Whether a word is a whole number without sign: it does not begin with zero
unless it is zero. -/
def isWhole (s : List Char) : Bool :=
  isGrouped Char.isDigit s && (s.head? != some '0' || s.length == 1)

/-- Whether a word is a hexadecimal digit. -/
def isHexDigit (c : Char) : Bool :=
  (Json.hexValue? c).isSome

/-- Whether digits in a base write a number that fits into 63 bits. -/
def fits (base : Nat) (digits : List Char) : Bool :=
  (ungrouped digits).foldl (fun n c => base * n + (Json.hexValue? c).getD 0) 0 < Nat.pow 2 63

/-- Whether a word is an integer that fits into 64 bits with a sign. -/
def isInteger (s : List Char) : Bool :=
  match s with
  | '0' :: 'x' :: digits => isGrouped isHexDigit digits && fits 16 digits
  | '0' :: 'o' :: digits =>
    isGrouped (fun c => '0' ≤ c && c ≤ '7') digits && fits 8 digits
  | '0' :: 'b' :: digits => isGrouped (fun c => c == '0' || c == '1') digits && fits 2 digits
  | s =>
    let (negative, digits) := Chars.sign s
    isWhole digits &&
      (fits 10 digits || (negative && Decimal.natOf (ungrouped digits) == Nat.pow 2 63))

/-- Whether a word is what follows the whole part of a real number: a fraction, an
exponent or both. -/
def isRealTail (s : List Char) : Bool :=
  let isExponent := fun (s : List Char) => isGrouped Char.isDigit (Chars.sign s).2
  let isMark := fun c : Char => c == 'e' || c == 'E'
  match s with
  | '.' :: rest =>
    let fraction := rest.takeWhile (!isMark ·)
    let exponent := rest.drop fraction.length
    isGrouped Char.isDigit fraction && (exponent.isEmpty || isExponent exponent.tail)
  | c :: rest => isMark c && isExponent rest
  | [] => false

/-- Whether a word is a real number that is not too large to be finite. -/
def isReal (s : List Char) : Bool :=
  let (_, size) := Chars.sign s
  if size = ['i', 'n', 'f'] || size = ['n', 'a', 'n'] then true
  else
    let whole := size.takeWhile fun c => c.isDigit || c == '_'
    isWhole whole && isRealTail (size.drop whole.length) &&
      match Chars.real? (ungrouped s) with
      | some x => !(x == Float.ofBits 0x7FF0000000000000)
      | none => false

/-! ## Dates and times -/

/-- The number that exactly `count` digits at the front of a text write, and what
follows. -/
def fixed? (count : Nat) (s : List Char) : Option (Nat × List Char) :=
  let digits := s.take count
  if digits.length = count ∧ digits.all Char.isDigit then
    some (Decimal.natOf digits, s.drop count)
  else none

/-- The number of days of a month. -/
def daysIn (year month : Nat) : Nat :=
  if month = 2 then
    if year % 4 = 0 ∧ (year % 100 ≠ 0 ∨ year % 400 = 0) then 29 else 28
  else if month = 4 ∨ month = 6 ∨ month = 9 ∨ month = 11 then 30
  else 31

/-- What follows a date at the front of a text. -/
def afterDate? (s : List Char) : Option (List Char) :=
  match fixed? 4 s with
  | some (year, '-' :: rest) =>
    match fixed? 2 rest with
    | some (month, '-' :: rest) =>
      match fixed? 2 rest with
      | some (day, rest) =>
        if 1 ≤ month ∧ month ≤ 12 ∧ 1 ≤ day ∧ day ≤ daysIn year month then some rest else none
      | none => none
    | _ => none
  | _ => none

/-- What follows a time of day at the front of a text. -/
def afterTime? (s : List Char) : Option (List Char) :=
  match fixed? 2 s with
  | some (hour, ':' :: rest) =>
    match fixed? 2 rest with
    | some (minute, ':' :: rest) =>
      match fixed? 2 rest with
      | some (second, rest) =>
        if hour ≤ 23 ∧ minute ≤ 59 ∧ second ≤ 60 then
          match rest with
          | '.' :: digits =>
            let fraction := digits.takeWhile Char.isDigit
            if fraction.isEmpty then none else some (digits.drop fraction.length)
          | rest => some rest
        else none
      | none => none
    | _ => none
  | _ => none

/-- Whether a word is the distance of a time zone, or nothing. -/
def isOffset (s : List Char) : Bool :=
  match s with
  | [] => true
  | ['Z'] | ['z'] => true
  | c :: rest =>
    (c == '+' || c == '-') &&
      match fixed? 2 rest with
      | some (hour, ':' :: rest) =>
        match fixed? 2 rest with
        | some (minute, []) => hour ≤ 23 && minute ≤ 59
        | _ => false
      | _ => false

/-- Whether a word is a date, a time or both with a separator between them. -/
def isMoment (s : List Char) : Bool :=
  match afterDate? s with
  | some [] => true
  | some (c :: rest) =>
    (c == 'T' || c == 't' || c == ' ') && (afterTime? rest).any isOffset
  | none => afterTime? s == some []

/-- Whether a word is a number, a date or a time. -/
def isScalar (s : List Char) : Bool :=
  isInteger s || isReal s || isMoment s

/-- The empty word is no scalar. -/
theorem not_isScalar_nil : isScalar [] = false := by
  decide

end Toml
end VendorPrefixing
