import VendorPrefixing.Text.CharClass
import VendorPrefixing.Text.Find
import VendorPrefixing.Text.WhiteSpace

/-!
# Comments in awkward places

A comment next to a brace, or one that touches the name of a property before its
colon, would hide where a declaration begins.  Such comments are settled before
a style sheet is read.  One in the middle of a name is cut out, so that the name
joins up again; the others become blanks of the same shape, so that every
character after them keeps its line and column.

What happens to a comment depends on the text around it as it was written, not
on what became of the comments before it.

Main results:

- Theorem `Chars.settleFrom_eq_self`: a text without a slash is left alone.
- Theorem `Chars.blanked_length`: blanks take as much room as the comment did.
-/

namespace VendorPrefixing

/-- What becomes of a comment. -/
inductive Treatment
  | keep
  /-- The comment is cut out. -/
  | cut
  /-- The comment becomes blanks, line feeds excepted. -/
  | blank
deriving DecidableEq, Repr

/-- What a place in a style sheet is inside of, as far as comments matter. -/
inductive CommentPlace
  | plain
  | quoted (quote : Char)
  /-- Inside a string, behind a backslash. -/
  | escaped (quote : Char)
  /-- Inside a comment that goes on for some more characters. -/
  | comment (treatment : Treatment) (left : Nat)
deriving DecidableEq, Repr

namespace Chars

/-- Whether the first character satisfies `p`. -/
def startsWith (p : Char → Bool) (s : List Char) : Bool :=
  s.head?.any p

/-- What becomes of a comment between two texts, the first of them with its last
character first. -/
def treatment (before after : List Char) : Treatment :=
  let touchesName := startsWith isNameChar before || startsWith isNameChar after
  let opensDeclaration :=
    startsWith (fun c => c == ';' || c == '{')
      ((before.dropWhile isNameChar).dropWhile isBlank)
  let reachesColon :=
    startsWith (· == ':') ((after.dropWhile isNameChar).dropWhile isBlank)
  if touchesName && opensDeclaration && reachesColon then
    if startsWith isNameChar before && startsWith isNameChar after then .cut else .blank
  else if startsWith (· == '{') (before.dropWhile isBlank) ||
      startsWith (· == '{') (after.dropWhile isBlank) then
    .blank
  else
    .keep

/-- The number of characters of a comment whose opening mark has just been read,
that mark not counted. -/
def commentTail? (s : List Char) : Option Nat :=
  (find? ['*', '/'] s).map (· + 2)

/-- What is left of one character of a comment. -/
def treated (t : Treatment) (c : Char) : List Char :=
  match t with
  | .keep => [c]
  | .cut => []
  | .blank => if c = '\n' then ['\n'] else [' ']

/-- Settles the comments in the rest of a text, after `before` with its last
character first.  From a comment that does not end on, nothing changes. -/
def settleFrom (place : CommentPlace) (before : List Char) : List Char → List Char
  | [] => []
  | c :: rest =>
    match place with
    | .comment t left =>
      treated t c ++
        settleFrom (if left ≤ 1 then .plain else .comment t (left - 1)) (c :: before) rest
    | .escaped q => c :: settleFrom (.quoted q) (c :: before) rest
    | .quoted q =>
      c :: settleFrom (if c = '\\' then .escaped q else if c = q then .plain else .quoted q)
        (c :: before) rest
    | .plain =>
      if c = '"' || c = '\'' then
        c :: settleFrom (.quoted c) (c :: before) rest
      else if c = '/' && startsWith (· == '*') rest then
        match commentTail? rest.tail with
        | none => c :: rest
        | some size =>
          let t := treatment before (rest.drop (size + 1))
          treated t c ++ settleFrom (.comment t (size + 1)) (c :: before) rest
      else
        c :: settleFrom .plain (c :: before) rest

/-- The text with its comments settled. -/
def settle (s : List Char) : List Char :=
  settleFrom .plain [] s

/-- A text without a slash has no comment to settle. -/
theorem settleFrom_eq_self {place : CommentPlace} {before s : List Char}
    (hplace : ∀ t left, place ≠ .comment t left) (h : '/' ∉ s) :
    settleFrom place before s = s := by
  induction s generalizing place before with
  | nil => rfl
  | cons c rest ih =>
    have hc : c ≠ '/' := fun e => h (e ▸ List.mem_cons_self)
    have hrest : '/' ∉ rest := fun m => h (List.mem_cons_of_mem c m)
    cases place with
    | comment t left => exact absurd rfl (hplace t left)
    | escaped q => rw [settleFrom, ih (by simp) hrest]
    | quoted q =>
      rw [settleFrom, ih _ hrest]
      split
      · simp
      · split <;> simp
    | plain =>
      rw [settleFrom]
      simp only [hc, decide_false, Bool.false_and, Bool.false_eq_true, if_false]
      split
      · rw [ih (by simp) hrest]
      · rw [ih (by simp) hrest]

/-- Blanks take as much room as the comment did. -/
theorem blanked_length (s : List Char) : (s.flatMap (treated .blank)).length = s.length := by
  induction s with
  | nil => rfl
  | cons c s ih =>
    rw [List.flatMap_cons, List.length_append, ih, treated]
    split <;> simp [Nat.add_comm]

end Chars

/-- The text with its comments settled. -/
def Text.settleComments (s : String) : String :=
  String.ofList (Chars.settle s.toList)

end VendorPrefixing
