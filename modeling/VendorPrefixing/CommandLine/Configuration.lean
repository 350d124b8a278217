import VendorPrefixing.Failure
import VendorPrefixing.Json.Reader
import VendorPrefixing.Toml.Reader

/-!
# Configuration files

Settings that a file may supply, as JSON or as TOML.  Every setting may be
missing, unknown ones are ignored, and a setting of the wrong type makes the whole
file invalid.  JSON may also list all five settings in an array, in the order of
the fields below.

Main results:

- Theorem `Configuration.ofJson?_nil`: an empty object sets nothing.
- Theorem `Configuration.read_of_unknown_format`: a file of another format is
  refused.
-/

namespace VendorPrefixing

/-- What a configuration file sets. -/
structure Configuration where
  browsers : Option (List String)
  indent : Option String
  compact : Option Bool
  keepComments : Option Bool
  outputDirectory : Option String
deriving DecidableEq, Repr

namespace Configuration

/-- Nothing is set. -/
def empty : Configuration where
  browsers := none
  indent := none
  compact := none
  keepComments := none
  outputDirectory := none

/-- The names of the settings. -/
def names : List String :=
  ["browsers", "indent", "compact", "keep_comments", "output_directory"]

/-! ## JSON -/

/-- An optional setting of a type that `read` reads; `null` stands for a missing
one. -/
def optional? {α : Type} (read : Json → Option α) : Json → Option (Option α)
  | .null => some none
  | j => (read j).map some

/-- The text that a value is. -/
def jsonText? : Json → Option String
  | .text s => s
  | _ => none

/-- The truth value that a value is. -/
def jsonBool? : Json → Option Bool
  | .bool b => some b
  | _ => none

/-- The list of texts that a value is. -/
def jsonTexts? : Json → Option (List String)
  | .array items => items.mapM jsonText?
  | _ => none

/-- The configuration with one more setting by its name. -/
def setJson? (c : Configuration) (name : String) (value : Json) : Option Configuration :=
  match name with
  | "browsers" => (optional? jsonTexts? value).map fun v => { c with browsers := v }
  | "indent" => (optional? jsonText? value).map fun v => { c with indent := v }
  | "compact" => (optional? jsonBool? value).map fun v => { c with compact := v }
  | "keep_comments" => (optional? jsonBool? value).map fun v => { c with keepComments := v }
  | "output_directory" =>
    (optional? jsonText? value).map fun v => { c with outputDirectory := v }
  | _ => some c

/-- The configuration with the members of an object, where `seen` lists the
settings made before.  No setting may be made twice. -/
def setMembers? (c : Configuration) (seen : List String) :
    List (Option String × Json) → Option Configuration
  | [] => some c
  | (none, _) :: _ => none
  | (some name, value) :: rest =>
    if seen.contains name then none
    else do
      let c ← c.setJson? name value
      c.setMembers? (if names.contains name then name :: seen else seen) rest

/-- The configuration that a JSON value describes. -/
def ofJson? : Json → Option Configuration
  | .object members => empty.setMembers? [] members
  | .array items =>
    if items.length = names.length then
      empty.setMembers? [] ((names.map some).zip items)
    else none
  | _ => none

/-! ## TOML -/

/-- The text that a value is. -/
def tomlText? : Toml → Option String
  | .text s => some s
  | _ => none

/-- The truth value that a value is. -/
def tomlBool? : Toml → Option Bool
  | .bool b => some b
  | _ => none

/-- The list of texts that a value is. -/
def tomlTexts? : Toml → Option (List String)
  | .array items => items.mapM tomlText?
  | _ => none

/-- A setting by its name, if it is there and of the type that `read` reads.  The
answer is missing when the setting is there but of another type. -/
def member? {α : Type} (read : Toml → Option α) (members : TomlMembers) (name : String) :
    Option (Option α) :=
  match members.lookup name with
  | none => some none
  | some value => (read value).map some

/-- The configuration that the members of a TOML document describe. -/
def ofToml? (members : TomlMembers) : Option Configuration := do
  return {
    browsers := ← member? tomlTexts? members "browsers"
    indent := ← member? tomlText? members "indent"
    compact := ← member? tomlBool? members "compact"
    keepComments := ← member? tomlBool? members "keep_comments"
    outputDirectory := ← member? tomlText? members "output_directory" }

/-! ## Files -/

/-- The configuration in a file with the given path and text. -/
def read (path text : String) : Except Failure Configuration :=
  if Text.endsWith path ".json" then
    match (Json.read? text.toList).bind ofJson? with
    | some c => .ok c
    | none => .error (.invalidFormat "Invalid JSON config:")
  else if Text.endsWith path ".toml" then
    match (Toml.read? text.toList).bind ofToml? with
    | some c => .ok c
    | none => .error (.invalidFormat "Invalid TOML config:")
  else
    .error (.invalidFormat "Config file must be .json or .toml format")

/-- An empty object sets nothing. -/
theorem ofJson?_nil : ofJson? (.object []) = some empty :=
  rfl

/-- A file of another format is refused. -/
theorem read_of_unknown_format {path text : String}
    (hjson : Text.endsWith path ".json" = false)
    (htoml : Text.endsWith path ".toml" = false) :
    read path text = .error (.invalidFormat "Config file must be .json or .toml format") := by
  simp [read, hjson, htoml]

end Configuration
end VendorPrefixing
