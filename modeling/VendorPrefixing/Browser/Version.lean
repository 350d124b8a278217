/-!
# Browser versions

A version has a major and a minor part.  For display the minor part follows a
point; for comparison with a number that a user wrote it counts tenths.

Main results:

- Theorem `Version.lt_iff`: versions are ordered by the major part first.
- Theorem `Version.text_of_minor_eq_zero`: a whole version is written without a
  point.
-/

namespace VendorPrefixing

/-- A browser version, such as 12.1. -/
structure Version where
  major : Nat
  minor : Nat
deriving DecidableEq, Repr, Inhabited

namespace Version

/-- The version as a number: the minor part counts tenths. -/
def number (v : Version) : Float :=
  Float.ofNat v.major + Float.ofNat v.minor / 10.0

/-- The version as it is displayed: `12.1`, or `12` when the minor part is zero. -/
def text (v : Version) : String :=
  if v.minor = 0 then toString v.major else toString v.major ++ "." ++ toString v.minor

/-- Whether `v` is older than `w`. -/
def older (v w : Version) : Bool :=
  v.major < w.major || (v.major == w.major && v.minor < w.minor)

instance : LT Version where
  lt v w := v.older w = true

instance : LE Version where
  le v w := w.older v = false

instance (v w : Version) : Decidable (v < w) :=
  inferInstanceAs (Decidable (v.older w = true))

instance (v w : Version) : Decidable (v ≤ w) :=
  inferInstanceAs (Decidable (w.older v = false))

/-- The major part decides, and the minor part where the major parts agree. -/
theorem lt_iff {v w : Version} :
    v < w ↔ v.major < w.major ∨ (v.major = w.major ∧ v.minor < w.minor) := by
  change v.older w = true ↔ _
  simp [older]

/-- A version is at most another when it is not newer. -/
theorem le_iff {v w : Version} :
    v ≤ w ↔ v.major < w.major ∨ (v.major = w.major ∧ v.minor ≤ w.minor) := by
  change w.older v = false ↔ _
  simp only [older, Bool.or_eq_false_iff, decide_eq_false_iff_not, Bool.and_eq_false_imp,
    beq_iff_eq]
  omega

/-- A whole version is written without a point. -/
theorem text_of_minor_eq_zero {v : Version} (h : v.minor = 0) : v.text = toString v.major := by
  simp [text, h]

end Version
end VendorPrefixing
