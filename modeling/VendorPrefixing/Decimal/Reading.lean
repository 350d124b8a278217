/-!
# Reading numbers

Integers of a bounded width and real numbers in decimal notation.  A real is
read exactly and then rounded once, to the nearest 64-bit float with ties to
even; a magnitude beyond the largest float becomes an infinity.

Main results:

- Theorem `Chars.digits?_nil`: a number has at least one digit.
- Theorem `Decimal.natOf_append_one`: a digit read at the end multiplies what
  stands before it by ten.
-/

namespace VendorPrefixing
namespace Decimal

/-- The value of an ASCII digit. -/
def digitValue (c : Char) : Nat :=
  c.toNat - '0'.toNat

/-- The number that a list of ASCII digits writes. -/
def natOf (digits : List Char) : Nat :=
  digits.foldl (fun n c => 10 * n + digitValue c) 0

/-- A digit read at the end multiplies what stands before it by ten. -/
theorem natOf_append_one (digits : List Char) (c : Char) :
    natOf (digits ++ [c]) = 10 * natOf digits + digitValue c := by
  simp [natOf]

/-- The float nearest to `num / den`, ties to even, for positive `den`. -/
def nearestFloat (num den : Nat) : Float :=
  if num = 0 then 0.0
  else
    -- The exponent of the leading bit, or one more.
    let top : Int := (num.log2 : Int) - den.log2
    let bit : Int :=
      if (if top ≥ 0 then num < den <<< top.toNat else num <<< (-top).toNat < den) then top - 1
      else top
    -- The weight of the last bit that the float keeps.
    let unit : Int := max (bit - 52) (-1074)
    let (n, d) :=
      if unit ≥ 0 then (num, den <<< unit.toNat) else (num <<< (-unit).toNat, den)
    let down := n / d
    let twice := 2 * (n % d)
    let kept := if twice > d || (twice = d && down % 2 = 1) then down + 1 else down
    let bits := ((unit + 1074).toNat <<< 52) + kept
    Float.ofBits (min bits 0x7FF0000000000000).toUInt64

/-- The float nearest to `mantissa · 10 ^ exponent`.  Exponents so large or so
small that every mantissa of that many digits overflows or vanishes are settled
without computing the power. -/
def nearestScaled (mantissa : Nat) (exponent : Int) : Float :=
  let size : Int := (Nat.log2 mantissa : Int) * 30103 / 100000 + 1 + exponent
  if mantissa = 0 || size < -400 then 0.0
  else if size > 400 then Float.ofBits 0x7FF0000000000000
  else if exponent ≥ 0 then nearestFloat (mantissa * Nat.pow 10 exponent.toNat) 1
  else nearestFloat mantissa (Nat.pow 10 (-exponent).toNat)

end Decimal

namespace Chars

/-- The ASCII digits at the front of a text and what follows, if there is one. -/
def digits? (s : List Char) : Option (List Char × List Char) :=
  if (s.takeWhile Char.isDigit).isEmpty then none
  else some (s.takeWhile Char.isDigit, s.dropWhile Char.isDigit)

/-- A number has at least one digit. -/
theorem digits?_nil : digits? [] = none :=
  rfl

/-- The sign at the front of a text, true for minus, and what follows. -/
def sign : List Char → Bool × List Char
  | '-' :: rest => (true, rest)
  | '+' :: rest => (false, rest)
  | s => (false, s)

/-- The exponent that ends a number: `e`, an optional sign and digits, or
nothing. -/
def exponent? (s : List Char) : Option Int :=
  match s with
  | [] => some 0
  | e :: rest =>
    if e = 'e' || e = 'E' then
      let (negative, rest) := sign rest
      match digits? rest with
      | some (ds, []) => some (if negative then -(Decimal.natOf ds : Int) else Decimal.natOf ds)
      | _ => none
    else
      none

/-- The magnitude of an unsigned real in decimal notation: digits with an
optional point among them, at least one digit, and an optional exponent. -/
def magnitude? (s : List Char) : Option Float :=
  let whole := s.takeWhile Char.isDigit
  let rest := s.dropWhile Char.isDigit
  let (fraction, rest) :=
    match rest with
    | '.' :: rest => (rest.takeWhile Char.isDigit, rest.dropWhile Char.isDigit)
    | rest => ([], rest)
  if whole.isEmpty && fraction.isEmpty then none
  else
    (exponent? rest).map fun e =>
      Decimal.nearestScaled (Decimal.natOf (whole ++ fraction)) (e - fraction.length)

/-- A real number: an optional sign, then a magnitude, `inf`, `infinity` or
`nan`, the words in any case. -/
def real? (s : List Char) : Option Float :=
  let (negative, rest) := sign s
  let word := rest.map Char.toLower
  let size :=
    if word = ['i', 'n', 'f'] || word = ['i', 'n', 'f', 'i', 'n', 'i', 't', 'y'] then
      some (Float.ofBits 0x7FF0000000000000)
    else if word = ['n', 'a', 'n'] then some (Float.ofBits 0x7FF8000000000000)
    else magnitude? rest
  size.map fun x => if negative then -x else x

/-- An integer that fits into 64 bits with a sign. -/
def integer? (s : List Char) : Option Int :=
  let (negative, rest) := sign s
  match digits? rest with
  | some (ds, []) =>
    let n : Int := if negative then -(Decimal.natOf ds : Int) else Decimal.natOf ds
    if -(Nat.pow 2 63 : Int) ≤ n && n < (Nat.pow 2 63 : Int) then some n else none
  | _ => none

/-- A count that fits into 64 bits without a sign.  A leading plus is allowed. -/
def count? (s : List Char) : Option Nat :=
  let rest :=
    match s with
    | '+' :: rest => rest
    | s => s
  match digits? rest with
  | some (ds, []) => if Decimal.natOf ds < Nat.pow 2 64 then some (Decimal.natOf ds) else none
  | _ => none

end Chars
end VendorPrefixing
