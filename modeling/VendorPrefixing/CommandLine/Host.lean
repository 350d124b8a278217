/-!
# Hosts

Everything that the program needs from its surroundings: files, the standard input
and two places to write messages to.  The program runs in any monad with these
operations, in the real world as well as in a model of it.

Main definitions:

- `FileError` and `FileError.message`: why an operation on files fails.
- `Host`: the operations.
-/

namespace VendorPrefixing

/-- Why an operation on files fails. -/
inductive FileError
  | missing
  | alreadyExists
  | notDirectory
  | isDirectory
  /-- The bytes are not UTF-8. -/
  | notText
  | other (reason : String)
deriving DecidableEq, Repr

/-- The failure in the words of the operating system. -/
def FileError.message : FileError → String
  | missing => "No such file or directory (os error 2)"
  | alreadyExists => "File exists (os error 17)"
  | notDirectory => "Not a directory (os error 20)"
  | isDirectory => "Is a directory (os error 21)"
  | notText => "stream did not contain valid UTF-8"
  | other reason => reason

/-- What the program needs from its surroundings. -/
structure Host (m : Type → Type) where
  readInput : m (Except FileError String)
  readFile : String → m (Except FileError String)
  writeFile : (path text : String) → m (Except FileError Unit)
  /-- Makes a directory and the ones above it where they are missing. -/
  makeDirectory : String → m (Except FileError Unit)
  isDirectory : String → m Bool
  /-- The files below a directory, each as the names that lead to it, ordered by
  name in every directory, with what is below a directory in its place. -/
  filesBelow : String → m (Except FileError (List (List String)))
  print : String → m Unit
  /-- Writes a message about the work itself. -/
  report : String → m Unit

end VendorPrefixing
