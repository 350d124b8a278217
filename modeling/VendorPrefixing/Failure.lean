import VendorPrefixing.Text.Find

/-!
# Failures

What can go wrong, one constructor per cause, and the one function that words
it.  Everything but an internal failure is a mistake in what the user supplied.

Main results:

- Theorem `Failure.isUserError_iff`: only internal failures are not the user's.
-/

namespace VendorPrefixing

/-- Why a request could not be carried out. -/
inductive Failure
  /-- The operating system refused to read or write. -/
  | io (reason : String)
  /-- A browser requirement that cannot be understood. -/
  | requirement (text reason : String)
  /-- A requirement names a browser that is not in the table. -/
  | unknownBrowser (name : String)
  /-- A malformed stylesheet; `css` is the whole text as it was given. -/
  | stylesheet (file : String) (line column : Nat) (reason css : String)
  /-- A broken internal invariant. -/
  | internal (reason : String)
  /-- A file that cannot be read, with the reason. -/
  | missingFile (path : String)
  /-- A configuration or a set of files that is not as it should be. -/
  | invalidFormat (reason : String)
deriving DecidableEq, Repr

namespace Failure

/-- The failure in words. -/
def message : Failure → String
  | io reason => "IO error: " ++ reason
  | requirement text reason => "Unknown browser requirement '" ++ text ++ "': " ++ reason
  | unknownBrowser name => "Unknown browser '" ++ name ++ "'"
  | stylesheet file line column reason _ =>
    file ++ ":" ++ toString line ++ ":" ++ toString column ++ ": " ++ reason
  | internal reason => "Internal error: " ++ reason
  | missingFile path => "File not found: " ++ path
  | invalidFormat reason => "Invalid format: " ++ reason

/-- Whether the failure is a mistake in what the user supplied. -/
def isUserError : Failure → Bool
  | internal _ => false
  | _ => true

/-- The line of the stylesheet that the failure points at.  Lines are counted
from one, and line zero is taken for the first. -/
def sourceLine? : Failure → Option String
  | stylesheet _ line _ _ css => Text.line? css (line - 1)
  | _ => none

/-- Only internal failures are not the user's. -/
theorem isUserError_iff {f : Failure} :
    f.isUserError = false ↔ ∃ reason, f = .internal reason := by
  cases f <;> simp [isUserError]

end Failure
end VendorPrefixing
