import VendorPrefixing.Decimal.Reading
import VendorPrefixing.Decimal.Shortest
import VendorPrefixing.Text.WhiteSpace
import VendorPrefixing.Value.Matcher

/-!
# Gradients

Marked gradients name the side they start from, where standard gradients name
the side they go to.  Under `-webkit-` the angle of a linear gradient counts
against the clock from the east, where the standard counts with it from the
north.

Main results:

- Theorem `Gradient.opposite?_opposite`: the opposite of the opposite side is the
  side itself.
- Theorem `Gradient.marked_of_calls_nil`: names that are not called are only
  marked.
-/

namespace VendorPrefixing
namespace Gradient

/-! ## Sides -/

/-- The side opposite to a side. -/
def opposite? (side : String) : Option String :=
  match side with
  | "top" => some "bottom"
  | "bottom" => some "top"
  | "left" => some "right"
  | "right" => some "left"
  | _ => none

/-- The side that a gradient starts from when it goes `to` some sides. -/
def fromSide? (direction : List Char) : Option (List Char) :=
  match (Chars.words direction).map String.ofList with
  | "to" :: side :: sides =>
    ((side :: sides).mapM opposite?).map fun found => (Text.join " " found).toList
  | _ => none

/-! ## Angles -/

/-- The remainder of a finite float on division by a positive whole number, with
the sign of the float.  The result is exact. -/
def remainder (x : Float) (modulus : Nat) : Float :=
  let bits := x.toBits.toNat
  let field := bits / Nat.pow 2 52 % Nat.pow 2 11
  let fraction := bits % Nat.pow 2 52
  let m := if field = 0 then fraction else fraction + Nat.pow 2 52
  let unit : Int := (if field = 0 then 1 else field : Nat) - (1075 : Int)
  let den := Nat.pow 2 (-unit).toNat
  let size := Decimal.nearestFloat (m * Nat.pow 2 unit.toNat % (modulus * den)) den
  if bits ≥ Nat.pow 2 63 then -size else size

/-- The remainder moved into the range from zero to the modulus. -/
def euclidean (x : Float) (modulus : Nat) : Float :=
  let r := remainder x modulus
  if r < 0.0 then r + Float.ofNat modulus else r

/-- The magnitude past which floats cannot tell whole degrees apart. -/
def mostDegrees : Float :=
  1000000000000000.0

/-- The old angle for an angle in degrees. -/
def oldAngle? (direction : List Char) : Option (List Char) :=
  if "deg".toList.isSuffixOf direction then
    match Chars.real? (direction.take (direction.length - 3)) with
    | some degrees =>
      if degrees.isFinite && !(degrees.abs > mostDegrees) then
        let old := Decimal.render (euclidean (90.0 - degrees) 360)
        some ((if old = "-0" then "0" else old).toList ++ "deg".toList)
      else
        none
    | none => none
  else
    none

/-! ## Calls -/

/-- The arguments of a gradient as they are written under a vendor mark: the first
one changes if it is a direction, and the rest stays as it is. -/
def oldArguments (name : List Char) (vendor : String) (arguments : List Char) : List Char :=
  let first := (Chars.splitArguments arguments).headD []
  let direction := Chars.trim first
  let linear := "linear-gradient".toList.isSuffixOf name
  let turned :=
    fromSide? direction <|>
      (if linear && vendor == "-webkit-" then oldAngle? direction else none)
  match turned with
  | some direction => direction ++ arguments.drop first.length
  | none => arguments

/-- Whether one of some calls begins before what is in front of it has ended. -/
def overlap (passed : Nat) : List Call → Bool
  | [] => false
  | call :: calls => call.start < passed || overlap call.stop calls

/-- Whether marking the gradients of a value ends the program.  The calls are cut out of the
value one after the other, which goes wrong with a call inside of another one. -/
def crashes (m : Matcher) (value : String) : Bool :=
  overlap 0 (m.calls value)

/-- A value with its gradients written under a vendor mark, where that does not end the
program. -/
def marked (m : Matcher) (vendor value : String) : String :=
  match m.calls value with
  | [] => m.mark vendor value
  | calls =>
    .ofList <| applyEdits 0 value.toList <| calls.map fun call =>
      ⟨call.start, call.stop,
        vendor.toList ++ call.name ++ '(' :: oldArguments call.name vendor call.arguments ++ [')']⟩

/-- The opposite of the opposite side is the side itself. -/
theorem opposite?_opposite {side other : String} (h : opposite? side = some other) :
    opposite? other = some side := by
  unfold opposite? at h
  split at h
  · cases h
    rfl
  · cases h
    rfl
  · cases h
    rfl
  · cases h
    rfl
  · cases h

/-- Names that are not called are only marked. -/
theorem marked_of_calls_nil {m : Matcher} {vendor value : String}
    (h : m.calls value = []) : marked m vendor value = m.mark vendor value := by
  simp [marked, h]

end Gradient
end VendorPrefixing
