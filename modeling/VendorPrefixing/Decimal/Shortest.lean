/-!
# Writing floats

A float is written with the fewest decimal digits that read back as the same
float, always positionally and without a point when it is whole.  The search is
exact: a float is `m · 2 ^ q`, the reals that round to it form an interval
around it, and a decimal grid is tried for one digit, for two digits and so on
until one of the two neighbours of the float on that grid lies in the interval.
Seventeen digits always suffice.

Main results:

- Theorem `Decimal.positional_zero`: no fractional digits, no point.
-/

namespace VendorPrefixing
namespace Decimal

/-- The reals that round to a positive float, all scaled by a common
denominator: the float is `value / den`. -/
structure Interval where
  low : Nat
  value : Nat
  high : Nat
  den : Nat
  /-- Whether the ends round to the float, which they do when its last bit is 0. -/
  closed : Bool
deriving Repr

/-- The interval of a float with the given bits, sign ignored. -/
def Interval.ofBits (bits : Nat) : Interval :=
  let field := bits / Nat.pow 2 52 % Nat.pow 2 11
  let fraction := bits % Nat.pow 2 52
  let m := if field = 0 then fraction else fraction + Nat.pow 2 52
  -- The float is `4 * m * 2 ^ unit`.
  let unit : Int := (if field = 0 then 1 else field : Nat) - (1075 + 2 : Int)
  let below := if fraction = 0 && field > 1 then 1 else 2
  let up := Nat.pow 2 unit.toNat
  { low := (4 * m - below) * up
    value := 4 * m * up
    high := (4 * m + 2) * up
    den := Nat.pow 2 (-unit).toNat
    closed := m % 2 = 0 }

/-- Whether `digits · 10 ^ exponent` rounds to the float. -/
def Interval.holds (i : Interval) (digits : Nat) (exponent : Int) : Bool :=
  let x := digits * Nat.pow 10 exponent.toNat * i.den
  let scale := Nat.pow 10 (-exponent).toNat
  if i.closed then i.low * scale ≤ x && x ≤ i.high * scale
  else i.low * scale < x && x < i.high * scale

/-- The decimal on the grid `10 ^ exponent` that rounds to the float and is
nearest to it. -/
def Interval.onGrid? (i : Interval) (exponent : Int) : Option Nat :=
  let num := i.value * Nat.pow 10 (-exponent).toNat
  let den := i.den * Nat.pow 10 exponent.toNat
  let down := num / den
  let nearer := if 2 * (num % den) < den then [down, down + 1] else [down + 1, down]
  nearer.find? fun d => i.holds d exponent

/-- The exponent of the leading decimal digit of the float. -/
def Interval.leading (i : Interval) : Int :=
  let guess : Int := ((i.value.log2 : Int) - i.den.log2) * 30103 / 100000 - 2
  let reaches (e : Int) : Bool :=
    i.den * Nat.pow 10 e.toNat ≤ i.value * Nat.pow 10 (-e).toNat
  (List.range 6).foldl
    (fun e (step : Nat) => if reaches (guess + step) then guess + step else e) guess

/-- The digits and the exponent of the shortest decimal that reads back, tried
with `count` digits and up, at most `tries` times. -/
def Interval.shortestFrom (i : Interval) (lead : Int) (count : Nat) : Nat → Nat × Int
  | 0 => (0, 0)
  | tries + 1 =>
    let exponent := lead - count + 1
    match i.onGrid? exponent with
    | some d => (d, exponent)
    | none => i.shortestFrom lead (count + 1) tries

/-- The digits of a number in decimal, with leading zeros up to `width`. -/
def padded (n width : Nat) : String :=
  let text := toString n
  "".pushn '0' (width - text.length) ++ text

/-- `digits · 10 ^ exponent` in positional notation, without zeros at the end of
the fraction. -/
def positional (digits : Nat) (exponent : Int) : String :=
  if exponent ≥ 0 then toString (digits * Nat.pow 10 exponent.toNat)
  else
    let places := (-exponent).toNat
    let whole := digits / Nat.pow 10 places
    let fraction := (padded (digits % Nat.pow 10 places) places).toList.reverse
    let kept := (fraction.dropWhile (· == '0')).reverse
    if kept.isEmpty then toString whole else toString whole ++ "." ++ String.ofList kept

/-- A decimal with a whole exponent has no point. -/
theorem positional_zero (digits : Nat) : positional digits 0 = toString digits := by
  simp [positional]

/-- The text of a float: the shortest decimal that reads back, `NaN`, or `inf`
with its sign. -/
def render (x : Float) : String :=
  let bits := x.toBits.toNat
  let sign := if bits ≥ Nat.pow 2 63 then "-" else ""
  if bits / Nat.pow 2 52 % Nat.pow 2 11 = 2047 then
    if bits % Nat.pow 2 52 = 0 then sign ++ "inf" else "NaN"
  else if bits % Nat.pow 2 63 = 0 then sign ++ "0"
  else
    let interval := Interval.ofBits bits
    let (digits, exponent) := interval.shortestFrom interval.leading 1 18
    sign ++ positional digits exponent

end Decimal
end VendorPrefixing
