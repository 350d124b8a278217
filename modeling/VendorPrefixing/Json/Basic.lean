/-!
# JSON values

The values of JSON.  Members of an object keep their order, and a number keeps
its text.  A text or a name is missing when its escapes write no sequence of
characters.
-/

namespace VendorPrefixing

/-- A JSON value. -/
inductive Json
  | null
  | bool (b : Bool)
  | number (text : String)
  | text (s : Option String)
  | array (items : List Json)
  | object (members : List (Option String × Json))

namespace Json

/-- The JSON text of a string. -/
def ofString (s : String) : Json :=
  .text (some s)

/-- The JSON array of strings. -/
def ofStrings (ss : List String) : Json :=
  .array (ss.map ofString)

/-- The JSON object with the given members. -/
def ofMembers (members : List (String × Json)) : Json :=
  .object (members.map fun (name, value) => (some name, value))

end Json
end VendorPrefixing
