import VendorPrefixing.CommandLine.Commands

/-!
# The program

The host that works on the real files, and the program on it.
-/

namespace VendorPrefixing
namespace Main

/-- Why an operation of the system failed. -/
def fileError (e : IO.Error) : FileError :=
  match e with
  | .noFileOrDirectory _ _ _ => .missing
  | .alreadyExists _ _ _ => .alreadyExists
  | .inappropriateType _ code _ =>
    if code = 20 then .notDirectory else if code = 21 then .isDirectory else .other e.toString
  | e => .other e.toString

/-- The outcome of an operation that the system may refuse. -/
def attempt {α : Type} (operation : IO α) : IO (Except FileError α) := do
  match ← operation.toBaseIO with
  | .ok a => return .ok a
  | .error e => return .error (fileError e)

/-- The text of bytes. -/
def decode (bytes : ByteArray) : Except FileError String :=
  match String.fromUTF8? bytes with
  | some text => .ok text
  | none => .error .notText

/-- Reads the rest of a stream behind the bytes read so far. -/
partial def readAll (stream : IO.FS.Stream) (bytes : ByteArray) : IO ByteArray := do
  let chunk ← stream.read 65536
  if chunk.isEmpty then return bytes else readAll stream (bytes ++ chunk)

/-- Whether a path leads to a directory. -/
def isDirectory (path : String) : IO Bool := do
  match ← attempt (IO.FS.realPath path) with
  | .ok place => place.isDir
  | .error _ => return false

/-- The files below a directory, which is reached by `names`. -/
partial def filesBelow (directory : String) (names : List String) :
    IO (List (List String)) := do
  let place ← IO.FS.realPath directory
  let entries := (← place.readDir).toList.map fun entry => entry.fileName
  let mut found := []
  for name in entries.mergeSort fun a b => !decide (b < a) do
    let path := Path.join directory name
    match (← (place / name).symlinkMetadata).type with
    | .dir => found := found ++ (← filesBelow path (names ++ [name]))
    | .file => found := found ++ [names ++ [name]]
    | _ => pure ()
  return found

/-- The operations of the system. -/
def host : Host IO where
  readInput := do
    return (← attempt (do readAll (← IO.getStdin) .empty)).bind decode
  readFile path := do
    if ← isDirectory path then return .error .isDirectory
    else return (← attempt (IO.FS.readBinFile path)).bind decode
  writeFile path text := do
    if ← isDirectory path then return .error .isDirectory
    else attempt (IO.FS.writeFile path text)
  makeDirectory path := attempt (IO.FS.createDirAll path)
  isDirectory := isDirectory
  filesBelow path := attempt (filesBelow path [])
  print text := do
    let output ← IO.getStdout
    output.putStr text
    output.flush
  report := IO.eprint

end Main
end VendorPrefixing

/-- Runs the program on the real files. -/
def main (args : List String) : IO UInt32 := do
  return (← VendorPrefixing.CommandLine.run VendorPrefixing.Main.host args).toUInt32
