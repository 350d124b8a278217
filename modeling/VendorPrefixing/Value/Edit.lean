/-!
# Edits

An edit replaces a stretch of a text.  Edits are given by character positions in
the text before any of them, in increasing order, and carried out together.  Of
two edits that overlap only the first is carried out.

Main results:

- Theorem `applyEdits_nil`: without edits the text stays as it is.
- Theorem `applyEdits_singleton`: one edit keeps everything outside its stretch.
-/

namespace VendorPrefixing

/-- The characters from `start` up to `stop` become `text`. -/
structure Edit where
  start : Nat
  stop : Nat
  text : List Char
deriving DecidableEq, Repr

/-- Carries edits out on what follows the first `passed` characters of a text. -/
def applyEdits (passed : Nat) (rest : List Char) : List Edit → List Char
  | [] => rest
  | e :: edits =>
    if e.start < passed then applyEdits passed rest edits
    else
      rest.take (e.start - passed) ++ e.text ++
        applyEdits e.stop (rest.drop (e.stop - passed)) edits

@[simp]
theorem applyEdits_nil (passed : Nat) (rest : List Char) : applyEdits passed rest [] = rest :=
  rfl

/-- A single edit keeps everything outside its stretch. -/
theorem applyEdits_singleton (s : List Char) (e : Edit) :
    applyEdits 0 s [e] = s.take e.start ++ e.text ++ s.drop e.stop := by
  simp [applyEdits]

end VendorPrefixing
