import VendorPrefixing.Text.CharClass
import VendorPrefixing.Text.Fold
import VendorPrefixing.Text.WhiteSpace

/-!
# Queries

A browser requirement is written as one of six forms of query, words in any
case.  This module recognises the form and cuts out its parts; numbers stay text
here, because whether they can be read is asked only when the query is answered.

Main results:

- Theorem `Query.ofText?_nothing`: the word `none` asks for no browser.
-/

namespace VendorPrefixing

/-- The forms in which browser versions can be asked for. -/
inductive Query
  /-- `none`: no browser at all. -/
  | nothing
  /-- `last 2 versions`: the newest versions of every browser. -/
  | newest (count : String)
  /-- `last 2 opera versions`: the newest versions of one browser. -/
  | newestOf (count browser : String)
  /-- `> 5%`: the released versions with more than a share of usage. -/
  | usedMoreThan (share : String)
  /-- `ff > 20` and `ff >= 20`: the versions of one browser after another. -/
  | newerThan (browser : String) (orEqual : Bool) (version : String)
  /-- `opera 12.1`: one version of one browser. -/
  | pinned (browser version : String)
deriving DecidableEq, Repr

namespace Chars

/-- What follows the white space at the front of a text, if there is some. -/
def afterBlanks? : List Char → Option (List Char)
  | [] => none
  | c :: rest => if isBlank c then some (trimStart rest) else none

/-- The longest stretch at the front of a text whose characters satisfy a test,
and what follows, if the stretch is not empty. -/
def run? (test : Char → Bool) (s : List Char) : Option (List Char × List Char) :=
  match s.takeWhile test with
  | [] => none
  | taken => some (taken, s.dropWhile test)

/-- Digits of any script with an optional point and further digits. -/
def numeral? (s : List Char) : Option (List Char × List Char) := do
  let (whole, rest) ← run? isDecimalDigit s
  match rest with
  | '.' :: more =>
    match run? isDecimalDigit more with
    | some (fraction, rest') => some (whole ++ '.' :: fraction, rest')
    | none => some (whole, rest)
  | _ => some (whole, rest)

/-- A browser name at the front of a text: letters and underscores. -/
def browserName? (s : List Char) : Option (List Char × List Char) :=
  run? (fun c => isFoldedLetter c || c == '_') s

/-- Whether a text is the word `version` or `versions` in any case. -/
def isVersions (s : List Char) : Bool :=
  isFolded "version".toList s || isFolded "versions".toList s

end Chars

namespace Query

open Chars

/-- Reads `last N versions` and `last N BROWSER versions`. -/
def ofLast? (s : List Char) : Option Query := do
  let rest ← dropFolded? "last".toList s
  let rest ← afterBlanks? rest
  let (count, rest) ← run? isDecimalDigit rest
  let rest ← afterBlanks? rest
  if isVersions rest then
    some (.newest (.ofList count))
  else
    let (browser, rest) ← browserName? rest
    let rest ← afterBlanks? rest
    if isVersions rest then some (.newestOf (.ofList count) (.ofList browser)) else none

/-- Reads `> P%`. -/
def ofShare? (s : List Char) : Option Query :=
  match s with
  | '>' :: rest =>
    match numeral? (trimStart rest) with
    | some (share, ['%']) => some (.usedMoreThan (.ofList share))
    | _ => none
  | _ => none

/-- Reads `BROWSER > V`, `BROWSER >= V` and `BROWSER V`. -/
def ofBrowser? (s : List Char) : Option Query := do
  let (browser, rest) ← browserName? s
  let rest ← afterBlanks? rest
  let (make, rest) :=
    match rest with
    | '>' :: '=' :: rest => (Query.newerThan (.ofList browser) true, trimStart rest)
    | '>' :: rest => (Query.newerThan (.ofList browser) false, trimStart rest)
    | rest => (Query.pinned (.ofList browser), rest)
  match numeral? rest with
  | some (version, []) => some (make (.ofList version))
  | _ => none

/-- The query that a trimmed text writes. -/
def ofText? (text : String) : Option Query :=
  let s := text.toList
  if isFolded "none".toList s then some .nothing
  else ofLast? s <|> ofShare? s <|> ofBrowser? s

/-- The word `none` asks for no browser. -/
theorem ofText?_nothing : ofText? "none" = some .nothing := by
  decide

end Query
end VendorPrefixing
