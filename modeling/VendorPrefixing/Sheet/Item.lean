import VendorPrefixing.Sheet.AtKeyword
import VendorPrefixing.Sheet.Cursor
import VendorPrefixing.Text.CharClass
import VendorPrefixing.Text.Nesting

/-!
# Items of a block

Reading a block is reading one item after the other.  An item is a whole leaf or
the head of a further block together with its opening brace.  Which items are
possible depends on what the block is made of.

Main results:

- Theorem `Item.length_read_lt`: reading an item consumes something.
-/

namespace VendorPrefixing

/-- One item of a block. -/
inductive Item
  | leaf (l : Leaf)
  /-- The head of a block, with the position of its opening brace. -/
  | opening (head : Block) (brace : Position)
deriving DecidableEq, Repr

namespace Item

/-- The selectors in a prelude. -/
def selectors (text : List Char) : List String :=
  if text.isEmpty then []
  else (Chars.splitArguments text).map fun s => .ofList (Chars.trim s)

/-- Whether a character may stand in the name of a property. -/
def isPropertyChar (c : Char) : Bool :=
  !(c == ':' || c == ';' || c == '{' || c == '}' || isBlank c)

/-- Reads the brace that opens a block with the given head. -/
def openBlock (c : Cursor) (head : Block) (otherwise : SyntaxError) :
    Except SyntaxError (Item × Cursor) :=
  if c.sees '{' then .ok (opening head c.position, c.advance 1) else .error otherwise

/-- Reads a comment, from its opening mark on. -/
def comment (c : Cursor) : Except SyntaxError (Item × Cursor) :=
  let text := c.rest.drop 2
  match Chars.find? ['*', '/'] text with
  | some n => .ok (leaf (.comment (.ofList (text.take n))), c.advance (n + 4))
  | none => .error ⟨c.position, .openComment⟩

/-- Reads a declaration, with the semicolon after it if there is one. -/
def declaration (c : Cursor) : Except SyntaxError (Item × Cursor) :=
  let property := c.rest.takeWhile isPropertyChar
  if property.isEmpty then .error ⟨c.position, .noProperty⟩
  else
    let colon := (c.advance property.length).skipBlanks
    if colon.sees ':' then
      match (colon.advance 1).stretch .value with
      | .ok (value, after) =>
        .ok (leaf (.declaration ⟨.ofList property, .ofList value, c.position⟩), after.skip ';')
      | .error e => .error e
    else .error ⟨colon.position, .noColon (.ofList property)⟩

/-- Reads the head of a rule for selectors. -/
def rule (c : Cursor) : Except SyntaxError (Item × Cursor) :=
  match c.stretch .prelude with
  | .ok (text, after) =>
    openBlock after (.rule (selectors text))
      ⟨after.position, .noBlock ("selector '" ++ .ofList text ++ "'")⟩
  | .error e => .error e

/-- Reads the head of a frame of an animation. -/
def frame (c : Cursor) : Except SyntaxError (Item × Cursor) :=
  match c.stretch .prelude with
  | .ok (text, after) =>
    openBlock after (.frame (selectors text)) ⟨after.position, .noBlock "keyframe selector"⟩
  | .error e => .error e

/-- Reads what follows the keyword of an at-rule that begins at `start`. -/
def afterKeyword (start : Position) (k : AtKeyword) (c : Cursor) :
    Except SyntaxError (Item × Cursor) :=
  match c.stretch .prelude with
  | .error e => .error e
  | .ok (text, after) =>
    let here := fun place => SyntaxError.mk after.position (.noBlock place)
    match k with
    | .statement s =>
      if after.sees ';' then .ok (leaf (.statement s (.ofList text)), after.advance 1)
      else .error ⟨after.position, .noSemicolon s⟩
    | .keyframes vendor =>
      openBlock after (.keyframes (.ofList text) vendor) (here "@keyframes")
    | .document vendor => openBlock after (.document (.ofList text) vendor) (here "@document")
    | .media => openBlock after (.media (.ofList text)) (here "@media")
    | .supports => openBlock after (.supports (.ofList text)) (here "@supports")
    | .page => openBlock after (.page (selectors text)) (here "@page")
    | .other name =>
      let bare := "@" ++ name
      openBlock after
        (.rule [if text.isEmpty then bare else bare ++ " " ++ .ofList text])
        ⟨start, .unknownStatement name⟩

/-- Reads the head of an at-rule, or all of it if it is a statement. -/
def atRule (c : Cursor) : Except SyntaxError (Item × Cursor) :=
  let name := c.rest.tail.takeWhile isNameChar
  if name.isEmpty then .error ⟨c.position, .noRuleName⟩
  else afterKeyword c.position (.ofName (.ofList name)) (c.advance (name.length + 1))

/-- Reads one item of a block made of the given content. -/
def read (content : Content) (c : Cursor) : Except SyntaxError (Item × Cursor) :=
  if ['/', '*'].isPrefixOf c.rest then comment c
  else
    match content with
    | .rules => if c.sees '@' then atRule c else rule c
    | .frames => frame c
    | .declarations => declaration c

theorem length_openBlock_lt {c c' : Cursor} {head : Block} {e : SyntaxError} {i : Item}
    (h : openBlock c head e = .ok (i, c')) : c'.rest.length < c.rest.length := by
  rw [openBlock] at h
  split at h
  · rename_i hc
    injection h with h
    exact (Prod.mk.inj h).2 ▸
      Cursor.length_advance_lt Nat.one_pos (Cursor.ne_nil_of_sees hc)
  · cases h

theorem length_rule_lt {c c' : Cursor} {i : Item} (h : rule c = .ok (i, c')) :
    c'.rest.length < c.rest.length := by
  rw [rule] at h
  split at h
  · rename_i hs
    exact Nat.lt_of_lt_of_le (length_openBlock_lt h) (Cursor.length_stretch_le hs)
  · cases h

theorem length_frame_lt {c c' : Cursor} {i : Item} (h : frame c = .ok (i, c')) :
    c'.rest.length < c.rest.length := by
  rw [frame] at h
  split at h
  · rename_i hs
    exact Nat.lt_of_lt_of_le (length_openBlock_lt h) (Cursor.length_stretch_le hs)
  · cases h

theorem length_afterKeyword_lt {start : Position} {k : AtKeyword} {c c' : Cursor} {i : Item}
    (h : afterKeyword start k c = .ok (i, c')) : c'.rest.length < c.rest.length := by
  rw [afterKeyword] at h
  split at h
  · cases h
  · rename_i hs
    refine Nat.lt_of_lt_of_le ?_ (Cursor.length_stretch_le hs)
    cases k with
    | statement s =>
      dsimp only at h
      split at h
      · rename_i hc
        injection h with h
        exact (Prod.mk.inj h).2 ▸
          Cursor.length_advance_lt Nat.one_pos (Cursor.ne_nil_of_sees hc)
      · cases h
    | _ => exact length_openBlock_lt h

theorem length_atRule_lt {c c' : Cursor} {i : Item} (h : atRule c = .ok (i, c')) :
    c'.rest.length < c.rest.length := by
  rw [atRule] at h
  split at h
  · cases h
  · exact Nat.lt_of_lt_of_le (length_afterKeyword_lt h) (Cursor.length_advance_le _ _)

theorem length_declaration_lt {c c' : Cursor} {i : Item} (h : declaration c = .ok (i, c')) :
    c'.rest.length < c.rest.length := by
  rw [declaration] at h
  split at h
  · cases h
  · dsimp only at h
    split at h
    · rename_i hc
      split at h
      · rename_i hs
        injection h with h
        rw [← (Prod.mk.inj h).2]
        refine Nat.lt_of_le_of_lt (Cursor.length_skip_le _ _) ?_
        refine Nat.lt_of_le_of_lt (Cursor.length_stretch_le hs) ?_
        refine Nat.lt_of_lt_of_le
          (Cursor.length_advance_lt Nat.one_pos (Cursor.ne_nil_of_sees hc)) ?_
        exact Nat.le_trans (Cursor.length_skipBlanks_le _) (Cursor.length_advance_le _ _)
      · cases h
    · cases h

theorem length_comment_lt {c c' : Cursor} {i : Item} (hc : c.rest ≠ [])
    (h : comment c = .ok (i, c')) : c'.rest.length < c.rest.length := by
  rw [comment] at h
  split at h
  · injection h with h
    exact (Prod.mk.inj h).2 ▸ Cursor.length_advance_lt (Nat.succ_pos _) hc
  · cases h

/-- Reading an item consumes something. -/
theorem length_read_lt {content : Content} {c c' : Cursor} {i : Item} (hc : c.rest ≠ [])
    (h : read content c = .ok (i, c')) : c'.rest.length < c.rest.length := by
  unfold read at h
  split at h
  · exact length_comment_lt hc h
  · cases content with
    | rules =>
      dsimp only at h
      split at h
      · exact length_atRule_lt h
      · exact length_rule_lt h
    | frames => exact length_frame_lt h
    | declarations => exact length_declaration_lt h

end Item
end VendorPrefixing
