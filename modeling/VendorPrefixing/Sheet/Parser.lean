import VendorPrefixing.Failure
import VendorPrefixing.Sheet.Comment
import VendorPrefixing.Sheet.Item

/-!
# Reading style sheets

A style sheet is read by a machine that keeps the blocks it is inside of on a
stack.  One step passes white space and then ends the innermost block, passes a
semicolon or reads an item; each step but the last consumes at least one
character, and so the machine stops.

Main results:

- Theorem `Reading.length_step_lt`: a step that is not the last consumes
  something.
- Theorem `Sheet.parse_eq_ok`: what is read is a whole style sheet.
- Theorem `Sheet.parse_eq_error`: every failure is one of the text and quotes it
  as it was given.
-/

namespace VendorPrefixing

/-- A block whose closing brace has not been read yet. -/
structure OpenBlock where
  head : Block
  /-- Where its opening brace is. -/
  brace : Position
  /-- The nodes before it in the block around it, last one first. -/
  before : List Node

/-- A style sheet of which a part has been read. -/
structure Reading where
  /-- The blocks around the cursor, innermost first. -/
  stack : List OpenBlock
  /-- The nodes read so far in the innermost of them, last one first. -/
  nodes : List Node
  cursor : Cursor

namespace Reading

/-- The beginning of a text. -/
def ofText (s : List Char) : Reading where
  stack := []
  nodes := []
  cursor := .ofText s

/-- What the innermost block is made of. -/
def content (r : Reading) : Content :=
  match r.stack with
  | [] => .rules
  | o :: _ => o.head.content

/-- What a step leads to. -/
inductive Outcome
  | done (nodes : List Node)
  | more (r : Reading)

/-- One step. -/
def step (r : Reading) : Except SyntaxError Outcome :=
  let c := r.cursor.skipBlanks
  match c.rest with
  | [] =>
    match r.stack with
    | [] => .ok (.done r.nodes.reverse)
    | o :: _ => .error ⟨o.brace, .openBlock⟩
  | '}' :: _ =>
    match r.stack with
    | [] => .error ⟨c.position, .strayBrace⟩
    | o :: stack =>
      .ok (.more ⟨stack, .block o.head r.nodes.reverse :: o.before, c.advance 1⟩)
  | ';' :: _ => .ok (.more { r with cursor := c.advance 1 })
  | _ =>
    match Item.read r.content c with
    | .ok (.leaf l, after) => .ok (.more ⟨r.stack, .leaf l :: r.nodes, after⟩)
    | .ok (.opening head brace, after) =>
      .ok (.more ⟨⟨head, brace, r.nodes⟩ :: r.stack, [], after⟩)
    | .error e => .error e

/-- A step that is not the last consumes something. -/
theorem length_step_lt {r r' : Reading} (h : r.step = .ok (.more r')) :
    r'.cursor.rest.length < r.cursor.rest.length := by
  have hblank := r.cursor.length_skipBlanks_le
  rw [step] at h
  split at h
  · split at h <;> cases h
  · rename_i hc
    split at h
    · cases h
    · injection h with h
      injection h with h
      subst h
      exact Nat.lt_of_lt_of_le
        (Cursor.length_advance_lt Nat.one_pos (by simp [hc])) hblank
  · rename_i hc
    injection h with h
    injection h with h
    subst h
    exact Nat.lt_of_lt_of_le
      (Cursor.length_advance_lt Nat.one_pos (by simp [hc])) hblank
  · rename_i hnil _ _
    have hne : r.cursor.skipBlanks.rest ≠ [] := hnil
    split at h
    · rename_i hr
      injection h with h
      injection h with h
      subst h
      exact Nat.lt_of_lt_of_le (Item.length_read_lt hne hr) hblank
    · rename_i hr
      injection h with h
      injection h with h
      subst h
      exact Nat.lt_of_lt_of_le (Item.length_read_lt hne hr) hblank
    · cases h

/-- Reads the rest of a style sheet. -/
def run (r : Reading) : Except SyntaxError (List Node) :=
  match _h : r.step with
  | .ok (.done nodes) => .ok nodes
  | .ok (.more r') => run r'
  | .error e => .error e
termination_by r.cursor.rest.length
decreasing_by exact length_step_lt _h

end Reading

namespace Sheet

/-- The name that stands for a style sheet without a file. -/
def unnamed : String :=
  "<css input>"

/-- Reads a style sheet.  A failure names `file` and quotes the text. -/
def parse (file css : String) : Except Failure Node :=
  match (Reading.ofText (Chars.settle css.toList)).run with
  | .ok nodes => .ok (.block .sheet nodes)
  | .error e =>
    .error (.stylesheet file e.position.line e.position.column e.fault.message css)

/-- What is read is a whole style sheet. -/
theorem parse_eq_ok {file css : String} {n : Node} (h : parse file css = .ok n) :
    ∃ nodes, n = .block .sheet nodes := by
  rw [parse] at h
  split at h
  · injection h with h
    exact ⟨_, h.symm⟩
  · cases h

/-- Every failure is one of the text and quotes it as it was given. -/
theorem parse_eq_error {file css : String} {f : Failure} (h : parse file css = .error f) :
    ∃ line column reason, f = .stylesheet file line column reason css := by
  rw [parse] at h
  split at h
  · cases h
  · injection h with h
    exact ⟨_, _, _, h.symm⟩

end Sheet
end VendorPrefixing
