import VendorPrefixing.Browser.Version
import VendorPrefixing.Text.Find

/-!
# Browsers

What is known about a browser: its names, its releases with their usage shares,
and the vendor mark its style properties carry.  A vendor mark is the text that
goes in front of a name that is not yet standard, such as `-webkit-`.

Main results:

- Theorem `Browser.mem_versions`: the versions of a browser are the announced
  and the released ones.
- Theorem `Browser.nearest?_mem`: the version nearest to a number is one of the
  browser's own.
-/

namespace VendorPrefixing

/-- A released version with its share of usage in percent. -/
structure Release where
  version : Version
  share : Float
deriving Repr

/-- What is known about one browser. -/
structure Browser where
  name : String
  /-- The name for people. -/
  title : String
  /-- Other names it can be asked for by. -/
  aliases : List String
  /-- The vendor mark, unless a change of mark says otherwise. -/
  vendor : String
  /-- The versions from which another vendor mark is used, oldest first. -/
  changes : List (Version × String)
  /-- The released versions, newest first. -/
  released : List Release
  /-- The announced versions, newest first. -/
  future : List Version
  /-- Whether only a requirement that names the browser selects it. -/
  onlyWhenNamed : Bool
deriving Repr

namespace Browser

/-- Every known version, newest first; the announced ones precede the released
ones. -/
def versions (b : Browser) : List Version :=
  b.future ++ b.released.map Release.version

/-- The newest known version. -/
def newest? (b : Browser) : Option Version :=
  b.versions.head?

/-- The oldest released version. -/
def oldest? (b : Browser) : Option Version :=
  b.released.getLast?.map Release.version

/-- Whether the version is one of the browser's. -/
def knows (b : Browser) (v : Version) : Bool :=
  b.versions.contains v

/-- The usage share of a version, zero when it is not released. -/
def share (b : Browser) (v : Version) : Float :=
  match b.released.find? (·.version == v) with
  | some release => release.share
  | none => 0.0

/-- The vendor mark that the browser uses at a version. -/
def vendorAt (b : Browser) (v : Version) : String :=
  match b.changes.reverse.find? fun change => change.1 ≤ v with
  | some change => change.2
  | none => b.vendor

/-- The better of the best version so far and the next older one: the next one,
unless it is farther away. -/
def nearer (requested : Float) (best : Option (Version × Float)) (v : Version) :
    Option (Version × Float) :=
  let distance := (v.number - requested).abs
  match best with
  | some (_, least) => if distance > least then best else some (v, distance)
  | none => some (v, distance)

/-- The known version nearest to a number; of two equally near ones the older. -/
def nearest? (b : Browser) (requested : Float) : Option Version :=
  (b.versions.foldl (nearer requested) none).map Prod.fst

theorem mem_versions {b : Browser} {v : Version} :
    v ∈ b.versions ↔ v ∈ b.future ∨ ∃ release ∈ b.released, release.version = v := by
  simp [versions]

/-- Looking for the nearest version never leaves the versions looked at. -/
theorem foldl_nearer_mem {requested : Float} {vs : List Version}
    {best : Option (Version × Float)} {v : Version}
    (h : (vs.foldl (nearer requested) best).map Prod.fst = some v) :
    v ∈ vs ∨ best.map Prod.fst = some v := by
  induction vs generalizing best with
  | nil => exact .inr h
  | cons w rest ih =>
    rcases ih h with hrest | hbest
    · exact .inl (List.mem_cons_of_mem _ hrest)
    · unfold nearer at hbest
      split at hbest
      · dsimp only at hbest
        split at hbest
        · exact .inr hbest
        · simp only [Option.map_some, Option.some.injEq] at hbest
          exact .inl (hbest ▸ List.mem_cons_self)
      · simp only [Option.map_some, Option.some.injEq] at hbest
        exact .inl (hbest ▸ List.mem_cons_self)

/-- The version nearest to a number is one of the browser's own. -/
theorem nearest?_mem {b : Browser} {requested : Float} {v : Version}
    (h : b.nearest? requested = some v) : v ∈ b.versions := by
  rcases foldl_nearer_mem h with h | h
  · exact h
  · simp at h

/-- Whether the browser goes by a name, which is given in small letters. -/
def goesBy (b : Browser) (name : String) : Bool :=
  b.name == name || b.aliases.contains name

end Browser

/-- The browsers that are known, in the order in which reports list them. -/
abbrev BrowserTable := List Browser

namespace BrowserTable

/-- The browser with a name or an alias, in capitals or small letters. -/
def find? (table : BrowserTable) (name : String) : Option Browser :=
  List.find? (·.goesBy (Text.lower name)) table

/-- The place of a browser in the table, by its own name as it is written. -/
def position? (table : BrowserTable) (name : String) : Option Nat :=
  List.findIdx? (·.name == name) table

end BrowserTable
end VendorPrefixing
