import VendorPrefixing.Sheet.Node
import VendorPrefixing.Text.Find
import VendorPrefixing.Text.Fold

/-!
# Keywords of at-rules

An at-rule is told by its keyword in any case.  The keywords of animations and of
rules for some documents may carry a vendor mark; every other at-rule with a mark
is one that this library only passes on.

Main results:

- Theorem `AtKeyword.vendor_of_unmarked`: a bare keyword has no vendor mark.
-/

namespace VendorPrefixing

/-- What the keyword of an at-rule announces. -/
inductive AtKeyword
  | statement (s : Statement)
  | keyframes (vendor : Option String)
  | document (vendor : Option String)
  | media
  | supports
  | page
  /-- Some other at-rule, which has declarations of its own. -/
  | other (name : String)
deriving DecidableEq, Repr

namespace AtKeyword

/-- The vendor mark in front of `word`, if the keyword is `word` with or without
a mark. -/
def vendorMark? (word name : List Char) : Option (Option String) :=
  if Chars.isFolded word name then some none
  else
    match name with
    | '-' :: rest =>
      let letters := rest.takeWhile isFoldedLetter
      match rest.drop letters.length with
      | '-' :: bare =>
        if !letters.isEmpty && Chars.isFolded word bare then
          some (some (.ofList ('-' :: letters ++ ['-'])))
        else none
      | _ => none
    | _ => none

/-- What a keyword announces. -/
def ofName (name : String) : AtKeyword :=
  let lower := Text.lower name
  match vendorMark? "keyframes".toList lower.toList with
  | some vendor => keyframes vendor
  | none =>
    match vendorMark? "document".toList lower.toList with
    | some vendor => document vendor
    | none =>
      match lower with
      | "media" => media
      | "supports" => supports
      | "import" => statement .importRule
      | "charset" => statement .charsetRule
      | "namespace" => statement .namespaceRule
      | "page" => page
      | _ => other name

/-- A bare keyword has no vendor mark. -/
theorem vendor_of_unmarked {word name : List Char} (h : Chars.isFolded word name = true) :
    vendorMark? word name = some none := by
  unfold vendorMark?
  exact if_pos h

end AtKeyword
end VendorPrefixing
