import VendorPrefixing.CommandLine.Host
import VendorPrefixing.CommandLine.Path

/-!
# A model of a disk

Files and directories below one working directory, and a host that works on them.
A path is followed name by name: every name but the last has to lead to a
directory, and going up from the working directory leads nowhere.

Main results:

- Theorem `Disk.find?_write`: what has been written can be read.
- Theorem `Disk.find?_write_of_ne`: writing leaves other files alone.
-/

namespace VendorPrefixing

/-- The names that lead to a place from the working directory. -/
abbrev Place :=
  List String

/-- The files and directories below a working directory. -/
structure Disk where
  files : List (Place × ByteArray)
  directories : List Place

/-- What is at a place. -/
inductive DiskEntry
  | file (bytes : ByteArray)
  | directory

namespace Disk

/-- What is at a place, if anything. -/
def find? (disk : Disk) (place : Place) : Option DiskEntry :=
  if place.isEmpty || disk.directories.contains place then some .directory
  else (disk.files.lookup place).map .file

/-- The disk with a file written, where no directory is. -/
def write (disk : Disk) (place : Place) (bytes : ByteArray) : Disk :=
  { disk with files := (place, bytes) :: disk.files.filter fun f => f.1 != place }

/-- The disk with one more directory. -/
def withDirectory (disk : Disk) (place : Place) : Disk :=
  if disk.directories.contains place then disk
  else { disk with directories := place :: disk.directories }

/-- The disk with one more file and the directories above it. -/
def withFile (disk : Disk) (place : Place) (bytes : ByteArray) : Disk :=
  (List.range (place.length - 1)).foldl
    (fun disk n => disk.withDirectory (place.take (n + 1))) (disk.write place bytes)

/-- Follows names from a place.  What the last name leads to need not exist. -/
def follow (disk : Disk) (place : Place) : List String → Except FileError Place
  | [] => .ok place
  | name :: rest =>
    match disk.find? place with
    | none => .error .missing
    | some (.file _) => .error .notDirectory
    | some .directory =>
      if name = "" || name = "." then disk.follow place rest
      else if name = ".." then
        if place.isEmpty then .error .missing else disk.follow place.dropLast rest
      else if !rest.isEmpty && (disk.find? (place ++ [name])).isNone then .error .missing
      else disk.follow (place ++ [name]) rest

/-- The place that a path leads to. -/
def place (disk : Disk) (path : String) : Except FileError Place :=
  if path.isEmpty || Path.isAbsolute path then .error .missing
  else disk.follow [] (Text.splitOn '/' path)

/-- Makes the directories that names lead through from a directory. -/
def makeDirectories (disk : Disk) (place : Place) : List String → Except FileError Disk
  | [] => .ok disk
  | name :: rest =>
    if name = "" || name = "." then disk.makeDirectories place rest
    else if name = ".." then
      if place.isEmpty then .error .missing else disk.makeDirectories place.dropLast rest
    else
      match disk.find? (place ++ [name]) with
      | some (.file _) => .error (if rest.isEmpty then .alreadyExists else .notDirectory)
      | _ =>
        (disk.withDirectory (place ++ [name])).makeDirectories (place ++ [name]) rest

/-- Reads a file. -/
def readFile (disk : Disk) (path : String) : Except FileError String := do
  match disk.find? (← disk.place path) with
  | none => throw .missing
  | some .directory => throw .isDirectory
  | some (.file bytes) =>
    match String.fromUTF8? bytes with
    | some text => return text
    | none => throw .notText

/-- Writes a file into a directory that exists.  A path that ends in a slash asks
for a directory. -/
def writeFile (disk : Disk) (path text : String) : Except FileError Disk := do
  let bare := String.ofList (path.toList.reverse.dropWhile (· == '/')).reverse
  let place ← disk.place bare
  match disk.find? place with
  | some .directory => throw .isDirectory
  | _ =>
    if Text.endsWith path "/" then throw .isDirectory
    else return disk.write place text.toUTF8

/-- Whether a path leads to a directory. -/
def isDirectory (disk : Disk) (path : String) : Bool :=
  match disk.place path with
  | .error _ => false
  | .ok place =>
    match disk.find? place with
    | some .directory => true
    | _ => false

/-- The files below a directory, in the order of their names. -/
def filesBelow (disk : Disk) (path : String) : Except FileError (List Place) := do
  let place ← disk.place path
  let below := disk.files.filterMap fun (file, _) =>
    if place.isPrefixOf file then some (file.drop place.length) else none
  return below.mergeSort fun a b => !decide (b < a)

theorem lookup_filter_ne {place other : Place} (files : List (Place × ByteArray))
    (h : other ≠ place) :
    (files.filter fun f => f.1 != place).lookup other = files.lookup other := by
  induction files with
  | nil => rfl
  | cons f files ih =>
    obtain ⟨p, bytes⟩ := f
    by_cases hp : p = place
    · subst hp
      have hbeq : (other == p) = false := by simpa using h
      simp [List.lookup_cons, hbeq, ih]
    · simp only [List.filter_cons, bne_iff_ne, ne_eq, hp, not_false_eq_true, if_true,
        List.lookup_cons, ih]

/-- What has been written where no directory is can be read. -/
theorem find?_write {disk : Disk} {place : Place} {bytes : ByteArray}
    (hroot : place.isEmpty = false) (hdir : disk.directories.contains place = false) :
    (disk.write place bytes).find? place = some (.file bytes) := by
  simp only [find?, write, hroot, hdir, Bool.or_false, Bool.false_eq_true, if_false]
  simp

/-- Writing leaves other places alone. -/
theorem find?_write_of_ne {disk : Disk} {place other : Place} {bytes : ByteArray}
    (h : other ≠ place) : (disk.write place bytes).find? other = disk.find? other := by
  have hbeq : (other == place) = false := by simpa using h
  simp only [find?, write, List.lookup_cons, hbeq, lookup_filter_ne _ h]

end Disk

/-! ## A host on a disk -/

/-- A disk with a standard input and everything written so far. -/
structure Machine where
  disk : Disk
  input : ByteArray
  output : String
  messages : String

namespace Machine

/-- A machine before anything is written. -/
def start (disk : Disk) (input : ByteArray) : Machine where
  disk := disk
  input := input
  output := ""
  messages := ""

/-- Replaces the disk if an operation on it succeeds. -/
def update (operation : Disk → Except FileError Disk) : StateM Machine (Except FileError Unit) := do
  let machine ← get
  match operation machine.disk with
  | .ok disk =>
    set { machine with disk := disk }
    return .ok ()
  | .error e => return .error e

/-- The operations on a machine. -/
def host : Host (StateM Machine) where
  readInput := do
    match String.fromUTF8? (← get).input with
    | some text => return .ok text
    | none => return .error .notText
  readFile path := return (← get).disk.readFile path
  writeFile path text := update fun disk => disk.writeFile path text
  makeDirectory path := update fun disk => disk.makeDirectories [] (Text.splitOn '/' path)
  isDirectory path := return (← get).disk.isDirectory path
  filesBelow path := return (← get).disk.filesBelow path
  print text := modify fun machine => { machine with output := machine.output ++ text }
  report text := modify fun machine => { machine with messages := machine.messages ++ text }

end Machine
end VendorPrefixing
