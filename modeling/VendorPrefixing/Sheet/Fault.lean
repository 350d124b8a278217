import VendorPrefixing.Sheet.Node

/-!
# Faults in style sheets

What can be wrong with the text of a style sheet, one constructor per cause, and
how each is worded.  A fault is reported with a position; for something that is
never closed this is where it was opened.

Main definitions:

- `SyntaxFault` and `SyntaxFault.message`: the causes and their wording.
- `SyntaxError`: a fault with its position.
-/

namespace VendorPrefixing

/-- What is wrong with the text of a style sheet. -/
inductive SyntaxFault
  /-- A closing brace that closes nothing. -/
  | strayBrace
  | openBlock
  | openComment
  | openString
  /-- An at sign without a name after it. -/
  | noRuleName
  /-- An at-rule without a block that this library does not know. -/
  | unknownStatement (name : String)
  | noSemicolon (statement : Statement)
  /-- No block where one has to follow what is named. -/
  | noBlock (place : String)
  | noProperty
  | noColon (property : String)
deriving DecidableEq, Repr

/-- The fault in words. -/
def SyntaxFault.message : SyntaxFault → String
  | strayBrace => "Unexpected '\x7d'"
  | openBlock => "Unterminated block, missing '\x7d'"
  | openComment => "Unterminated comment"
  | openString => "Unterminated string"
  | noRuleName => "Expected at-rule name after '@'"
  | unknownStatement name => "Unsupported statement at-rule '@" ++ name ++ "'"
  | noSemicolon statement => "Expected ';' after @" ++ statement.keyword
  | noBlock place => "Expected '\x7b' after " ++ place
  | noProperty => "Expected property name"
  | noColon property => "Expected ':' after property '" ++ property ++ "'"

/-- A fault and where it is. -/
structure SyntaxError where
  position : Position
  fault : SyntaxFault
deriving DecidableEq, Repr

end VendorPrefixing
