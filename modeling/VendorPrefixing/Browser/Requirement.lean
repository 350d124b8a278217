import VendorPrefixing.Browser.Query
import VendorPrefixing.Browser.Selection
import VendorPrefixing.Browser.Table
import VendorPrefixing.Decimal.Reading
import VendorPrefixing.Failure

/-!
# Requirements

Browser requirements are texts.  Each is answered on its own with a list of
targets, and a list of requirements selects the union of the answers; the first
requirement that cannot be answered fails the whole list.

Main results:

- Theorem `Requirement.resolveAll_cons`: a list is answered from the front.
- Theorem `Requirement.newest_mem`: the newest versions of a browser are among
  its versions.
-/

namespace VendorPrefixing
namespace Requirement

/-- What is asked for when nothing is. -/
def standard : List String :=
  ["last 2 versions"]

/-- The targets of one browser at some versions. -/
def targetsOf (b : Browser) (versions : List Version) : List Target :=
  versions.map fun v => ⟨b.name, v⟩

/-- The given number of newest versions of a browser. -/
def newest (b : Browser) (count : Nat) : List Target :=
  targetsOf b (b.versions.take count)

/-- The browsers that a requirement selects without naming them. -/
def unnamed (table : BrowserTable) : List Browser :=
  table.filter fun b => !b.onlyWhenNamed

/-- The released versions of a browser whose share of usage exceeds a threshold. -/
def usedMoreThan (b : Browser) (threshold : Float) : List Target :=
  targetsOf b ((b.released.filter fun release => release.share > threshold).map Release.version)

/-- The versions of a browser after a number, or from it on. -/
def newerThan (b : Browser) (orEqual : Bool) (number : Float) : List Target :=
  targetsOf b (b.versions.filter fun v =>
    if orEqual then v.number ≥ number else v.number > number)

/-- The browser that goes by a name. -/
def browser (table : BrowserTable) (name : String) : Except Failure Browser :=
  match table.find? name with
  | some b => .ok b
  | none => .error (.unknownBrowser name)

/-- The number of versions that a requirement writes. -/
def count (requirement text : String) : Except Failure Nat :=
  match Chars.count? text.toList with
  | some n => .ok n
  | none => .error (.requirement requirement ("'" ++ text ++ "' is not a valid count"))

/-- The share or version number that a requirement writes. -/
def number (requirement text : String) : Except Failure Float :=
  match Chars.real? text.toList with
  | some x => .ok x
  | none => .error (.requirement requirement ("'" ++ text ++ "' is not a valid number"))

/-- The answer to a query that the requirement writes. -/
def answer (table : BrowserTable) (requirement : String) :
    Query → Except Failure (List Target)
  | .nothing => .ok []
  | .newest n => do
    let n ← count requirement n
    .ok ((unnamed table).flatMap fun b => newest b n)
  | .newestOf n name => do
    let n ← count requirement n
    let b ← browser table name
    .ok (newest b n)
  | .usedMoreThan share => do
    let threshold ← number requirement share
    .ok ((unnamed table).flatMap fun b => usedMoreThan b threshold)
  | .newerThan name orEqual version => do
    let b ← browser table name
    let x ← number requirement version
    .ok (newerThan b orEqual x)
  | .pinned name version => do
    let b ← browser table name
    let x ← number requirement version
    match b.nearest? x with
    | some v => .ok [⟨b.name, v⟩]
    | none => .error (.internal ("browser '" ++ b.name ++ "' has no versions"))

/-- The targets that one requirement selects. -/
def resolve (table : BrowserTable) (requirement : String) : Except Failure (List Target) :=
  let text := Text.trim requirement
  match Query.ofText? text with
  | some query => answer table text query
  | none =>
    .error (.requirement text "expected 'last N versions', '> N%' or '<browser> <version>'")

/-- The targets that a list of requirements adds to a selection. -/
def resolveInto (table : BrowserTable) (selection : Selection) :
    List String → Except Failure Selection
  | [] => .ok selection
  | requirement :: rest => do
    let targets ← resolve table requirement
    resolveInto table (selection.union targets) rest

/-- The selection that a list of requirements asks for; an empty list asks for
the standard requirements. -/
def resolveAll (table : BrowserTable) (requirements : List String) :
    Except Failure Selection :=
  resolveInto table .empty (if requirements.isEmpty then standard else requirements)

/-- A list that is not empty is answered from the front. -/
theorem resolveAll_cons (table : BrowserTable) (requirement : String) (rest : List String) :
    resolveAll table (requirement :: rest) =
      (resolve table requirement).bind fun targets =>
        resolveInto table (Selection.empty.union targets) rest :=
  rfl

/-- The newest versions of a browser are among its versions. -/
theorem newest_mem {b : Browser} {n : Nat} {t : Target} (h : t ∈ newest b n) :
    t.name = b.name ∧ t.version ∈ b.versions := by
  simp only [newest, targetsOf, List.mem_map] at h
  obtain ⟨v, hv, rfl⟩ := h
  exact ⟨rfl, List.mem_of_mem_take hv⟩

end Requirement
end VendorPrefixing
