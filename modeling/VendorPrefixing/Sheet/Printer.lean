import VendorPrefixing.Sheet.Node
import VendorPrefixing.Text.Find

/-!
# Printing style sheets

A style sheet is printed either for reading, with one declaration to a line and
the contents of blocks indented, or compactly, without white space that carries
no meaning.  Comments may be left out in both styles.

Main results:

- Theorem `Node.printAll_of_isComment`: where comments are left out, a comment
  leaves no trace in the list that holds it.
- Theorem `Layout.finish_compact`: the compact style adds nothing at the end.
-/

namespace VendorPrefixing

/-- How a style sheet is laid out. -/
inductive PrintStyle
  /-- With line breaks, and with `indent` once for each block around a line. -/
  | readable (indent : String)
  | compact
deriving DecidableEq, Repr

/-- How a style sheet is printed. -/
structure Layout where
  style : PrintStyle
  keepComments : Bool
deriving DecidableEq, Repr

namespace Layout

/-- The readable layout, which keeps comments. -/
def readable (indent : String) : Layout where
  style := .readable indent
  keepComments := true

/-- The compact layout, which leaves comments out. -/
def compact : Layout where
  style := .compact
  keepComments := false

/-- The readable layout with two spaces to a level. -/
def standard : Layout :=
  readable "  "

/-- What stands at the beginning of a line inside `depth` blocks. -/
def indentation (o : Layout) (depth : Nat) : String :=
  match o.style with
  | .readable indent => String.join (List.replicate depth indent)
  | .compact => ""

/-- The selectors of a rule. -/
def selectors (o : Layout) (depth : Nat) (texts : List String) : String :=
  match o.style with
  | .readable _ => Text.join (",\n" ++ o.indentation depth) texts
  | .compact => Text.join "," texts

/-- What stands before the braces of a block. -/
def heading (o : Layout) (depth : Nat) : Block → String
  | .sheet => ""
  | .rule texts | .frame texts => o.selectors depth texts
  | .page [] => "@page"
  | .page texts => "@page " ++ o.selectors depth texts
  | .media query => "@media " ++ query
  | .supports condition => "@supports " ++ condition
  | .keyframes name vendor => "@" ++ vendor.getD "" ++ "keyframes " ++ name
  | .document condition vendor => "@" ++ vendor.getD "" ++ "document " ++ condition

/-- A block around its printed contents, which are empty or have no line break at
their end. -/
def enclose (o : Layout) (depth : Nat) (head : Block) (body : String) : String :=
  match head with
  | .sheet => body
  | _ =>
    let front := o.indentation depth ++ o.heading depth head
    match o.style with
    | .readable _ =>
      front ++ " \x7b\n" ++ body ++ (if body.isEmpty then "" else "\n") ++
        o.indentation depth ++ "\x7d"
    | .compact => front ++ "\x7b" ++ body ++ "\x7d"

/-- The number of blocks around the contents of a block. -/
def depthWithin (depth : Nat) : Block → Nat
  | .sheet => depth
  | _ => depth + 1

/-- A leaf. -/
def leaf (o : Layout) (depth : Nat) (l : Leaf) : String :=
  o.indentation depth ++
    match l with
    | .declaration d =>
      match o.style with
      | .readable _ => d.property ++ ": " ++ d.value ++ ";"
      | .compact => d.property ++ ":" ++ d.value
    | .comment text => "/*" ++ text ++ "*/"
    | .statement kind text => "@" ++ kind.keyword ++ " " ++ text ++ ";"

/-- What stands between a node and the printed node before it in one list.  In
the compact style a semicolon only ends a declaration that something follows. -/
def separator (o : Layout) (content : Content) : Option Node → String
  | none => ""
  | some previous =>
    match o.style, content with
    | .readable _, .declarations => "\n"
    | .readable _, _ => "\n\n"
    | .compact, .declarations => if previous.declaration?.isSome then ";" else ""
    | .compact, _ => ""

/-- Whether a node in a list is left out. -/
def hides (o : Layout) (n : Node) : Bool :=
  !o.keepComments && n.isComment

/-- The whole text, with a line break at the end if it is to be read. -/
def finish (o : Layout) (text : String) : String :=
  match o.style with
  | .readable _ => if text.isEmpty || Text.endsWith text "\n" then text else text ++ "\n"
  | .compact => text

theorem finish_compact {o : Layout} (h : o.style = .compact) (text : String) :
    o.finish text = text := by
  rw [finish, h]

end Layout

namespace Node

mutual

/-- A node inside `depth` blocks. -/
def printAt (o : Layout) (depth : Nat) : Node → String
  | leaf l => o.leaf depth l
  | block head children =>
    o.enclose depth head
      (printAll o head.content (Layout.depthWithin depth head) none children)

/-- The nodes of a list after `previous`. -/
def printAll (o : Layout) (content : Content) (depth : Nat) (previous : Option Node) :
    List Node → String
  | [] => ""
  | n :: rest =>
    if o.hides n then printAll o content depth previous rest
    else
      o.separator content previous ++ printAt o depth n ++
        printAll o content depth (some n) rest

end

/-- The text of a tree. -/
def print (o : Layout) (n : Node) : String :=
  o.finish (n.printAt o 0)

/-- Where comments are left out, a comment leaves no trace in the list that holds
it. -/
theorem printAll_of_isComment {o : Layout} {content : Content} {depth : Nat}
    {previous : Option Node} {n : Node} {rest : List Node} (ho : o.keepComments = false)
    (hn : n.isComment = true) :
    printAll o content depth previous (n :: rest) =
      printAll o content depth previous rest := by
  rw [printAll, if_pos (by simp [Layout.hides, ho, hn])]

end Node
end VendorPrefixing
