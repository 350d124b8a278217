/-!
# Statistics

What a run over a style sheet has changed, in numbers.

Main results:

- Theorems `Statistics.merge_assoc` and `Statistics.merge_zero`: the numbers of
  several runs can be put together in any grouping.
- Theorem `Statistics.isEmpty_iff`: statistics are empty when all numbers are zero.
-/

namespace VendorPrefixing

/-- What has been added and removed. -/
structure Statistics where
  declarationsAdded : Nat
  declarationsRemoved : Nat
  keyframesAdded : Nat
  keyframesRemoved : Nat
deriving DecidableEq, Repr

namespace Statistics

/-- Nothing has changed. -/
def zero : Statistics where
  declarationsAdded := 0
  declarationsRemoved := 0
  keyframesAdded := 0
  keyframesRemoved := 0

/-- What two runs have changed together. -/
def merge (a b : Statistics) : Statistics where
  declarationsAdded := a.declarationsAdded + b.declarationsAdded
  declarationsRemoved := a.declarationsRemoved + b.declarationsRemoved
  keyframesAdded := a.keyframesAdded + b.keyframesAdded
  keyframesRemoved := a.keyframesRemoved + b.keyframesRemoved

/-- Whether nothing has changed. -/
def isEmpty (a : Statistics) : Bool :=
  a == zero

@[simp]
theorem merge_zero (a : Statistics) : a.merge zero = a :=
  rfl

@[simp]
theorem zero_merge (a : Statistics) : zero.merge a = a := by
  simp [merge, zero]

theorem merge_assoc (a b c : Statistics) : (a.merge b).merge c = a.merge (b.merge c) := by
  simp [merge, Nat.add_assoc]

theorem isEmpty_iff {a : Statistics} : a.isEmpty = true ↔ a = zero := by
  simp [isEmpty]

end Statistics
end VendorPrefixing
