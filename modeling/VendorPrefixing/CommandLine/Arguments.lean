import VendorPrefixing.Text.Find

/-!
# Arguments

What the program is asked to do by its arguments.  Options have a long name and
most of them a letter; letters may be written together.  A value follows its
option as the next argument, after an equals sign, or directly after a letter.
The next argument is no value when it begins with a hyphen, unless it is a single
one.  After two hyphens nothing is an option.

Main results:

- Theorem `Arguments.read_nil`: without arguments nothing is asked.
- Theorem `OptionForm.isWord_hyphen`: a single hyphen is an argument like any other.
-/

namespace VendorPrefixing

/-! ## Options -/

/-- What an option does. -/
inductive OptionKind
  /-- It is set at most once. -/
  | flag
  /-- It may be repeated. -/
  | counter
  /-- It takes a value, at most once. -/
  | value
  /-- It takes one of some values, at most once. -/
  | choice (values : List String)
  /-- It asks for the version and nothing else. -/
  | version
  /-- It asks for help and nothing else. -/
  | help
deriving DecidableEq, Repr

/-- An option. -/
structure OptionForm where
  name : String
  letter : Option Char
  kind : OptionKind
deriving DecidableEq, Repr

/-- Why reading the arguments stops before their end. -/
inductive ArgumentStop
  /-- The arguments are not as they should be. -/
  | misuse
  | version
  | help
deriving DecidableEq, Repr

/-- What the arguments of one level hold. -/
structure Arguments where
  flags : List String
  values : List (String × String)
  /-- The arguments that are no options, last one first. -/
  words : List String
deriving DecidableEq, Repr

/-- The options and words that are understood at one level. -/
structure ArgumentLevel where
  options : List OptionForm
  /-- The words that begin a level of their own. -/
  commands : List String
  /-- How many other words there may be. -/
  maxWords : Nat
deriving DecidableEq, Repr

namespace OptionForm

/-- Whether an argument is no option. -/
def isWord (arg : String) : Bool :=
  !Text.startsWith arg "-" || arg == "-"

/-- Whether an option takes a value. -/
def takesValue (o : OptionForm) : Bool :=
  match o.kind with
  | .value | .choice _ => true
  | _ => false

/-- A single hyphen is an argument like any other. -/
theorem isWord_hyphen : isWord "-" = true := by
  decide

end OptionForm

namespace Arguments

/-- No arguments. -/
def empty : Arguments where
  flags := []
  values := []
  words := []

/-- Whether a flag is set. -/
def isSet (a : Arguments) (name : String) : Bool :=
  a.flags.contains name

/-- The value of an option. -/
def value? (a : Arguments) (name : String) : Option String :=
  a.values.lookup name

/-- The arguments with an option that takes no value. -/
def withOption (a : Arguments) (o : OptionForm) : Except ArgumentStop Arguments :=
  match o.kind with
  | .flag => if a.isSet o.name then .error .misuse else .ok { a with flags := o.name :: a.flags }
  | .counter => .ok a
  | .version => .error .version
  | .help => .error .help
  | .value | .choice _ => .error .misuse

/-- The arguments with an option and its value. -/
def withValue (a : Arguments) (o : OptionForm) (value : String) :
    Except ArgumentStop Arguments :=
  let admitted :=
    match o.kind with
    | .value => true
    | .choice values => values.contains value
    | _ => false
  if !admitted || (a.value? o.name).isSome then .error .misuse
  else .ok { a with values := (o.name, value) :: a.values }

/-- The arguments with a word. -/
def withWord (level : ArgumentLevel) (a : Arguments) (word : String) :
    Except ArgumentStop Arguments :=
  if a.words.length < level.maxWords then .ok { a with words := word :: a.words }
  else .error .misuse

/-- The arguments with several words. -/
def withWords (level : ArgumentLevel) (a : Arguments) (words : List String) :
    Except ArgumentStop Arguments :=
  words.foldlM (withWord level) a

/-- The arguments with an option by its long name, and the option if its value is
still to come. -/
def withLong (level : ArgumentLevel) (a : Arguments) (text : List Char) :
    Except ArgumentStop (Arguments × Option OptionForm) :=
  let name := text.takeWhile (· != '=')
  let attached :=
    match text.drop name.length with
    | _ :: value => some (String.ofList value)
    | [] => none
  match level.options.find? (·.name == .ofList name) with
  | none => .error .misuse
  | some o =>
    match attached with
    | some value => (a.withValue o value).map (·, none)
    | none => if o.takesValue then .ok (a, some o) else (a.withOption o).map (·, none)

/-- The arguments with options by their letters, and the last of them if its value
is still to come. -/
def withLetters (level : ArgumentLevel) (a : Arguments) :
    List Char → Except ArgumentStop (Arguments × Option OptionForm)
  | [] => .ok (a, none)
  | c :: rest =>
    match level.options.find? (·.letter == some c) with
    | none => .error .misuse
    | some o =>
      if o.takesValue then
        match rest with
        | [] => .ok (a, some o)
        | '=' :: value => (a.withValue o (.ofList value)).map (·, none)
        | value => (a.withValue o (.ofList value)).map (·, none)
      else do
        let a ← a.withOption o
        a.withLetters level rest

/-- Reads arguments up to the end of a level.  If a command ends it, the answer
has its name and the arguments after it. -/
def read (level : ArgumentLevel) (a : Arguments) :
    List String → Except ArgumentStop (Arguments × Option (String × List String))
  | [] => .ok (a, none)
  | arg :: rest =>
    if level.commands.contains arg then .ok (a, some (arg, rest))
    else if arg = "--" then (a.withWords level rest).map (·, none)
    else if OptionForm.isWord arg then do
      let a ← a.withWord level arg
      a.read level rest
    else do
      let (a, pending) ←
        match arg.toList with
        | '-' :: '-' :: name => a.withLong level name
        | letters => a.withLetters level letters.tail
      match pending with
      | none => a.read level rest
      | some o =>
        match rest with
        | value :: rest =>
          if OptionForm.isWord value then do
            let a ← a.withValue o value
            a.read level rest
          else .error .misuse
        | [] => .error .misuse

/-- Without arguments nothing is asked. -/
theorem read_nil (level : ArgumentLevel) (a : Arguments) : a.read level [] = .ok (a, none) :=
  rfl

end Arguments
end VendorPrefixing
