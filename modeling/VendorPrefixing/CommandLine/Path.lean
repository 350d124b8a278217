import VendorPrefixing.Text.Find

/-!
# Paths

Paths are texts in which slashes separate names.  Empty names and single points
lead nowhere.

Main results:

- Theorem `Path.join_of_absolute`: a path that begins at the root stays as it is.
-/

namespace VendorPrefixing
namespace Path

/-- Whether a path begins at the root. -/
def isAbsolute (path : String) : Bool :=
  Text.startsWith path "/"

/-- The path that leads on from `base`. -/
def join (base path : String) : String :=
  if isAbsolute path || base.isEmpty then path
  else if Text.endsWith base "/" then base ++ path
  else base ++ "/" ++ path

/-- The names of a path that lead somewhere. -/
def names (path : String) : List String :=
  (Text.splitOn '/' path).filter fun name => name != "" && name != "."

/-- The name of the file or directory that a path leads to, unless the path ends
by going up. -/
def fileName? (path : String) : Option String :=
  match (names path).getLast? with
  | some ".." => none
  | last => last

/-- The path of the directory that holds what a path leads to.  It is empty for a
single name. -/
def directory (path : String) : String :=
  (if isAbsolute path then "/" else "") ++ Text.join "/" (names path).dropLast

/-- Whether a file name is that of a style sheet. -/
def isStylesheet (name : String) : Bool :=
  Text.endsWith name ".css" && name != ".css"

/-- A path that begins at the root stays as it is. -/
theorem join_of_absolute {base path : String} (h : isAbsolute path = true) :
    join base path = path := by
  simp [join, h]

end Path
end VendorPrefixing
