import VendorPrefixing.CommandLine.Arguments

/-!
# Requests

What the program can be asked for, and how its arguments ask for it.  The options
for the configuration file and for more messages are understood both before and
after the command; a configuration file given after it counts.

Main results:

- Theorem `Invocation.read_nil`: without arguments nothing is asked.
-/

namespace VendorPrefixing

/-- A request to mark style sheets. -/
structure ProcessRequest where
  /-- A file or a directory, or a hyphen for the standard input. -/
  input : String
  output : Option String
  browsers : Option String
  compact : Bool
  indent : Option String
  dropComments : Bool
  showStatistics : Bool
  /-- Whether a directory is to be processed with everything below it. -/
  deep : Bool
deriving DecidableEq, Repr

/-- A request to show what browsers need. -/
structure InfoRequest where
  browsers : Option String
  asJson : Bool
deriving DecidableEq, Repr

/-- A request to tell whether style sheets are up to date. -/
structure CheckRequest where
  input : String
  browsers : Option String
  /-- Whether a directory is to be checked with everything below it. -/
  deep : Bool
deriving DecidableEq, Repr

/-- What the program is asked for. -/
inductive Request
  | nothing
  | process (r : ProcessRequest)
  | info (r : InfoRequest)
  | check (r : CheckRequest)
deriving DecidableEq, Repr

/-- A request with the configuration file that comes with it. -/
structure Invocation where
  configuration : Option String
  request : Request
deriving DecidableEq, Repr

namespace ArgumentLevel

/-- The options that are understood everywhere. -/
def sharedOptions : List OptionForm :=
  [⟨"config", some 'c', .value⟩, ⟨"verbose", some 'v', .counter⟩, ⟨"help", some 'h', .help⟩]

/-- The option that names browsers. -/
def browsersOption : OptionForm :=
  ⟨"browsers", some 'b', .value⟩

/-- What is understood before the command. -/
def top : ArgumentLevel where
  options := ⟨"version", some 'V', .version⟩ :: sharedOptions
  commands := ["process", "info", "check", "help"]
  maxWords := 0

/-- What is understood after `process`.  Watching the input and logging the phases
of the work are accepted and change nothing. -/
def process : ArgumentLevel where
  options :=
    sharedOptions ++
      [⟨"output", some 'o', .value⟩, browsersOption, ⟨"compact", none, .flag⟩,
        ⟨"indent", none, .value⟩, ⟨"no-comments", none, .flag⟩, ⟨"debug", some 'd', .flag⟩,
        ⟨"stats", none, .flag⟩, ⟨"recursive", some 'r', .flag⟩, ⟨"watch", some 'w', .flag⟩]
  commands := []
  maxWords := 1

/-- What is understood after `info`. -/
def info : ArgumentLevel where
  options := sharedOptions ++ [browsersOption, ⟨"format", some 'f', .choice ["text", "json"]⟩]
  commands := []
  maxWords := 0

/-- What is understood after `check`. -/
def check : ArgumentLevel where
  options := sharedOptions ++ [browsersOption, ⟨"recursive", some 'r', .flag⟩]
  commands := []
  maxWords := 1

end ArgumentLevel

namespace Invocation

/-- The request to mark style sheets that the arguments after `process` make. -/
def processRequest (a : Arguments) : Request :=
  .process
    { input := a.words.head?.getD "-"
      output := a.value? "output"
      browsers := a.value? "browsers"
      compact := a.isSet "compact"
      indent := a.value? "indent"
      dropComments := a.isSet "no-comments"
      showStatistics := a.isSet "stats"
      deep := a.isSet "recursive" }

/-- The request that the arguments after a command make. -/
def command (name : String) (rest : List String) :
    Except ArgumentStop (Arguments × Request) :=
  match name with
  | "process" => do
    let (a, _) ← Arguments.empty.read .process rest
    return (a, processRequest a)
  | "info" => do
    let (a, _) ← Arguments.empty.read .info rest
    return (a, .info ⟨a.value? "browsers", a.value? "format" == some "json"⟩)
  | "check" => do
    let (a, _) ← Arguments.empty.read .check rest
    match a.words with
    | input :: _ => return (a, .check ⟨input, a.value? "browsers", a.isSet "recursive"⟩)
    | [] => throw .misuse
  | _ => throw (if rest.all ArgumentLevel.top.commands.contains then .help else .misuse)

/-- What the arguments of the program ask for. -/
def read (args : List String) : Except ArgumentStop Invocation := do
  match ← Arguments.empty.read .top args with
  | (top, none) => return ⟨top.value? "config", .nothing⟩
  | (top, some (name, rest)) =>
    let (a, request) ← command name rest
    return ⟨a.value? "config" <|> top.value? "config", request⟩

/-- Without arguments nothing is asked. -/
theorem read_nil : read [] = .ok ⟨none, .nothing⟩ :=
  rfl

end Invocation
end VendorPrefixing
