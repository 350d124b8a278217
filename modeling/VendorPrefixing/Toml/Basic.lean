/-!
# TOML values

The values of TOML and how the lines of a document build them up.  Which lines may
add to a table depends on how the table came about: the table of a header is
complete once the next header follows, a table that a dotted key has made takes
further dotted keys only, and an inline table takes nothing.

Main results:

- Theorem `TomlMembers.set?_of_isSome`: a key is set at most once.
-/

namespace VendorPrefixing

/-- How a table came about. -/
inductive TomlTableOrigin
  /-- It is the document or has a header of its own. -/
  | header
  /-- A header names it on the way to another table. -/
  | onTheWay
  | dottedKey
  | inline
deriving DecidableEq, Repr

/-- A TOML value. -/
inductive Toml
  | text (s : String)
  | bool (b : Bool)
  /-- A number, a date or a time. -/
  | scalar (text : String)
  | array (items : List Toml)
  | table (origin : TomlTableOrigin) (members : List (String × Toml))
  /-- The tables under headers in double brackets, last one first. -/
  | tables (items : List (List (String × Toml)))

/-- The members of a table under construction. -/
abbrev TomlMembers :=
  List (String × Toml)

namespace TomlMembers

/-- The members with another value for a key. -/
def replace (members : TomlMembers) (key : String) (value : Toml) : TomlMembers :=
  members.map fun (k, v) => if k = key then (k, value) else (k, v)

/-- Changes the table that a path of keys leads to.  Tables that are missing on
the way are made; `dotted` tells whether the path is that of a dotted key, which
may not lead through a table with a header of its own. -/
def change? (dotted : Bool)
    (action : TomlTableOrigin → TomlMembers → Option (TomlTableOrigin × TomlMembers)) :
    List String → TomlTableOrigin → TomlMembers → Option (TomlTableOrigin × TomlMembers)
  | [], origin, members => action origin members
  | key :: path, origin, members =>
    match members.lookup key with
    | none =>
      (change? dotted action path (if dotted then .dottedKey else .onTheWay) []).map
        fun (o, ms) => (origin, members ++ [(key, .table o ms)])
    | some (.table o ms) =>
      if o = .inline || (dotted && o == .header) then none
      else
        (change? dotted action path o ms).map
          fun (o, ms) => (origin, replace members key (.table o ms))
    | some (.tables (ms :: earlier)) =>
      (change? dotted action path .header ms).map
        fun (_, ms) => (origin, replace members key (.tables (ms :: earlier)))
    | some _ => none

/-- Sets a key that is not there yet. -/
def set? (key : String) (value : Toml) (members : TomlMembers) : Option TomlMembers :=
  if (members.lookup key).isSome then none else some (members ++ [(key, value)])

/-- Sets a dotted key in a table. -/
def setDotted? (path : List String) (key : String) (value : Toml)
    (origin : TomlTableOrigin) (members : TomlMembers) :
    Option (TomlTableOrigin × TomlMembers) :=
  change? true
    (fun o ms =>
      if !path.isEmpty && o != .dottedKey then none
      else (set? key value ms).map fun ms => (o, ms))
    path origin members

/-- Begins the table of a header in single brackets. -/
def beginTable? (path : List String) (key : String) (members : TomlMembers) :
    Option TomlMembers :=
  (change? false
    (fun o ms =>
      match ms.lookup key with
      | none => some (o, ms ++ [(key, .table .header [])])
      | some (.table .onTheWay inner) => some (o, replace ms key (.table .header inner))
      | some _ => none)
    path .header members).map Prod.snd

/-- Begins a further table of a header in double brackets. -/
def beginItem? (path : List String) (key : String) (members : TomlMembers) :
    Option TomlMembers :=
  (change? false
    (fun o ms =>
      match ms.lookup key with
      | none => some (o, ms ++ [(key, .tables [[]])])
      | some (.tables items) => some (o, replace ms key (.tables ([] :: items)))
      | some _ => none)
    path .header members).map Prod.snd

/-- Sets a dotted key below the header that came last. -/
def setBelow? (header path : List String) (key : String) (value : Toml)
    (members : TomlMembers) : Option TomlMembers :=
  (change? false (setDotted? path key value) header .header members).map Prod.snd

/-- A key that is there is not set again. -/
theorem set?_of_isSome {key : String} {value : Toml} {members : TomlMembers}
    (h : (members.lookup key).isSome = true) : set? key value members = none := by
  rw [set?, if_pos h]

end TomlMembers
end VendorPrefixing
