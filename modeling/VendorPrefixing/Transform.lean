import VendorPrefixing.Browser.Requirement
import VendorPrefixing.Marking.Draft
import VendorPrefixing.Sheet.Parser
import VendorPrefixing.Sheet.Printer

/-!
# Transforming texts

From the text of a style sheet to the text of the same style sheet with the right
vendor marks, for a fixed plan and layout.  A transformer can be used for any
number of style sheets.  A text can be refused, and the program can end on it: that is no
refusal, since nobody is told of it.

Main results:

- Theorem `Transformer.attempt_of_error`: a text that cannot be read is refused.
-/

namespace VendorPrefixing

/-- Why there is no result for a text. -/
inductive Stop
  /-- The text is refused. -/
  | failure (f : Failure)
  /-- The program ends at once. -/
  | crash
deriving DecidableEq, Repr

/-- A plan together with the form of the output. -/
structure Transformer where
  plan : Plan
  layout : Layout
  /-- The name that failures give to the style sheet. -/
  file : Option String

namespace Transformer

/-- The transformer for a list of browser requirements, in the standard layout. -/
def ofRequirements (requirements : List String) : Except Failure Transformer :=
  (Requirement.resolveAll Browser.builtIn requirements).map fun selection =>
    { plan := .ofSelection selection, layout := .standard, file := none }

/-- The style sheet behind a text. -/
def read (t : Transformer) (css : String) : Except Failure Node :=
  Sheet.parse (t.file.getD Sheet.unnamed) css

/-- The text with the right vendor marks, and what has changed. -/
def attempt (t : Transformer) (css : String) : Except Stop (String × Statistics) :=
  match t.read css with
  | .error f => .error (.failure f)
  | .ok n =>
    match t.plan.processDraft (.ofNode n) with
    | none => .error .crash
    | some (d, statistics) => .ok (d.toNode.print t.layout, statistics)

/-- The same where nothing can end the program: a crash is an internal failure then. -/
def run (t : Transformer) (css : String) : Except Failure (String × Statistics) :=
  match t.attempt css with
  | .ok result => .ok result
  | .error (.failure f) => .error f
  | .error .crash => .error (.internal "a gradient stands inside of another one")

/-- A text that cannot be read is refused. -/
theorem attempt_of_error {t : Transformer} {css : String} {f : Failure}
    (h : t.read css = .error f) : t.attempt css = .error (.failure f) := by
  rw [attempt, h]

end Transformer
end VendorPrefixing
