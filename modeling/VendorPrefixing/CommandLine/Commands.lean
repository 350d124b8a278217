import VendorPrefixing.CommandLine.Configuration
import VendorPrefixing.CommandLine.Host
import VendorPrefixing.CommandLine.Path
import VendorPrefixing.CommandLine.Request
import VendorPrefixing.Plan.ReportJson
import VendorPrefixing.Transform

/-!
# Commands

What the program does on request, on any host.  A run ends with the first failure;
what has been written and printed until then stays.  Checking is different: there
the failure of one file only counts against it.  A crash ends every run at once.

Main results:

- Theorem `CommandLine.requirements_of_none`: without an option the configuration
  decides which browsers are meant.
- Theorem `CommandLine.processAll_nil`: without files there is nothing to do.
-/

namespace VendorPrefixing
namespace CommandLine

variable {m : Type → Type} [Monad m]

/-- A step of a command, which may fail or end the program. -/
abbrev Step (m : Type → Type) :=
  ExceptT Stop m

/-- A step that fails. -/
def fail {α : Type} (f : Failure) : Step m α :=
  throw (.failure f)

/-- The step that gives back a result which does not depend on the host. -/
def orFail {α : Type} (result : Except Failure α) : Step m α :=
  match result with
  | .ok a => return a
  | .error f => fail f

/-- The step that gives back the result for a text. -/
def orStop {α : Type} (result : Except Stop α) : Step m α :=
  result

/-! ## Settings -/

/-- The requirements between the commas of an option. -/
def splitRequirements (text : String) : List String :=
  ((Text.splitOn ',' text).map Text.trim).filter (· != "")

/-- The requirements of a command: those of its option, or else those of the
configuration. -/
def requirements (c : Configuration) (browsers : Option String) : List String :=
  match browsers with
  | some text => splitRequirements text
  | none => c.browsers.getD []

/-- The layout that a request and the configuration ask for. -/
def layout (c : Configuration) (r : ProcessRequest) : Layout :=
  let compact := r.compact || c.compact.getD false
  let base :=
    if compact then Layout.compact else .readable ((r.indent <|> c.indent).getD "  ")
  { base with keepComments := !r.dropComments && c.keepComments.getD !compact }

/-! ## Files -/

/-- The result of an operation on files, where a failure is one of the system. -/
def orIo {α : Type} (operation : m (Except FileError α)) : Step m α := do
  match ← operation with
  | .ok a => return a
  | .error e => fail (.io e.message)

/-- The text of a file that has to be there. -/
def readFile (h : Host m) (path : String) : Step m String := do
  match ← h.readFile path with
  | .ok text => return text
  | .error e => fail (.missingFile (path ++ ": " ++ e.message))

/-- The style sheet in a file with the right vendor marks, and what has changed. -/
def transformFile (h : Host m) (t : Transformer) (path : String) :
    Step m (String × Statistics) := do
  let css ← readFile h path
  orStop ({ t with file := some path }.attempt css)

/-- Marks a style sheet from one file into another, whose directory is made if it
is missing. -/
def processFile (h : Host m) (t : Transformer) (input output : String) :
    Step m Statistics := do
  let (css, statistics) ← transformFile h t input
  if Path.directory output != "" then
    orIo (h.makeDirectory (Path.directory output))
  orIo (h.writeFile output css)
  return statistics

/-- The style sheets below a directory, each as the names that lead to it. -/
def stylesheets (h : Host m) (directory : String) : Step m (List (List String)) := do
  match ← h.filesBelow directory with
  | .ok files => return files.filter fun names => names.getLast?.any Path.isStylesheet
  | .error e => fail (.io ("Directory traversal error: " ++ e.message))

/-- The path that names lead to from a directory. -/
def pathTo (directory : String) (names : List String) : String :=
  names.foldl Path.join directory

/-- Where the result for a style sheet below `root` is written: in the same place
below the output directory, or over the style sheet itself. -/
def target (root : String) (output : Option String) (names : List String) : String :=
  match output with
  | some directory => Path.join directory (Text.join "/" names)
  | none => pathTo root names

/-! ## Process -/

/-- What has changed, in lines. -/
def statisticsText (s : Statistics) : String :=
  "📊 Statistics:\n" ++
    "   Declarations added: " ++ toString s.declarationsAdded ++ "\n" ++
    "   Declarations removed: " ++ toString s.declarationsRemoved ++ "\n" ++
    "   Keyframes added: " ++ toString s.keyframesAdded ++ "\n" ++
    "   Keyframes removed: " ++ toString s.keyframesRemoved ++ "\n"

/-- Marks the standard input. -/
def processInput (h : Host m) (t : Transformer) (output : Option String) :
    Step m Statistics := do
  let css ← orIo h.readInput
  let (css, statistics) ← orStop (t.attempt css)
  match output with
  | some path => orIo (h.writeFile path css)
  | none => h.print css
  return statistics

/-- Marks one file.  Where the output is a directory, the result gets the name of
the input in it; without an output the result is printed. -/
def processOne (h : Host m) (t : Transformer) (input : String) (output : Option String) :
    Step m Statistics := do
  match output with
  | some output =>
    if ← h.isDirectory output then
      processFile h t input (Path.join output ((Path.fileName? input).getD input))
    else processFile h t input output
  | none =>
    let (css, statistics) ← transformFile h t input
    h.print css
    return statistics

/-- Marks style sheets below a directory one after the other, and adds up what has
changed. -/
def processAll (h : Host m) (t : Transformer) (root : String) (output : Option String)
    (total : Statistics) : List (List String) → Step m Statistics
  | [] => return total
  | names :: rest => do
    let input := pathTo root names
    let target := target root output names
    let statistics ← processFile h t input target
    h.print ("✅ " ++ input ++ " -> " ++ target ++ "\n")
    processAll h t root output (total.merge statistics) rest

/-- Marks every style sheet below a directory. -/
def processDirectory (h : Host m) (t : Transformer) (root : String)
    (output : Option String) : Step m Statistics := do
  let files ← stylesheets h root
  let total ← processAll h t root output .zero files
  h.print ("Processed " ++ toString files.length ++ " files\n")
  return total

/-- Carries out a request to mark style sheets. -/
def process (h : Host m) (c : Configuration) (r : ProcessRequest) : Step m Unit := do
  let output := r.output <|> c.outputDirectory
  let t ← orFail (Transformer.ofRequirements (requirements c r.browsers))
  let t := { t with layout := layout c r }
  let deep ← if r.deep && r.input != "-" then h.isDirectory r.input else pure false
  let statistics ←
    if r.input = "-" then processInput h t output
    else if deep then processDirectory h t r.input output
    else processOne h t r.input output
  if r.showStatistics then
    h.report (statisticsText statistics)

/-! ## Info -/

/-- Carries out a request to show what browsers need. -/
def info (h : Host m) (c : Configuration) (r : InfoRequest) : Step m Unit := do
  let t ← orFail (Transformer.ofRequirements (requirements c r.browsers))
  let report := t.plan.report
  h.print (if r.asJson then report.json ++ "\n" else report.text)

/-! ## Check -/

/-- What a check has found. -/
inductive Finding
  | upToDate
  | outdated
  | failed
deriving DecidableEq, Repr

/-- The line about one file, and what has been found. -/
def verdict (path : String) : Except Failure (String × Statistics) → String × Finding
  | .error e => ("❌ " ++ e.message, .failed)
  | .ok (_, s) =>
    if s.isEmpty then ("✅ " ++ path ++ " - up to date", .upToDate)
    else
      ("⚠️  " ++ path ++ " - " ++ toString (s.declarationsAdded + s.keyframesAdded) ++
          " to add, " ++ toString (s.declarationsRemoved + s.keyframesRemoved) ++ " to remove",
        .outdated)

/-- The result of a step, which may be a failure. -/
def failing {α : Type} (step : Step m α) : Step m (Except Failure α) :=
  tryCatch (Except.ok <$> step) fun
    | .failure f => return .error f
    | .crash => throw .crash

/-- Checks files one after the other, and prints a line about each. -/
def checkAll (h : Host m) (t : Transformer) : List String → Step m (List Finding)
  | [] => return []
  | path :: rest => do
    let (line, finding) := verdict path (← failing (transformFile h t path))
    h.print (line ++ "\n")
    let findings ← checkAll h t rest
    return finding :: findings

/-- Carries out a request to check style sheets. -/
def check (h : Host m) (c : Configuration) (r : CheckRequest) : Step m Unit := do
  let t ← orFail (Transformer.ofRequirements (requirements c r.browsers))
  let deep ← if r.deep then h.isDirectory r.input else pure false
  let files ←
    if deep then do
      let files ← stylesheets h r.input
      pure (files.map (pathTo r.input))
    else pure [r.input]
  let findings ← checkAll h t files
  let outdated := findings.count .outdated
  let failed := findings.count .failed
  h.print
    ("\n📊 Check Summary:\n" ++
      "   Total files: " ++ toString files.length ++ "\n" ++
      "   Need changes: " ++ toString outdated ++ "\n" ++
      "   Failed: " ++ toString failed ++ "\n")
  if outdated + failed > 0 then
    fail <| .invalidFormat <|
      toString (outdated + failed) ++ " of " ++ toString files.length ++
        " files are not up to date"

/-! ## The program -/

/-- The name of the program. -/
def programName : String :=
  "prefixr"

/-- Carries out an invocation.  The configuration is read whatever the request. -/
def perform (h : Host m) (i : Invocation) : Step m Unit := do
  let c ←
    match i.configuration with
    | none => pure Configuration.empty
    | some path => do
      match ← h.readFile path with
      | .error e => fail (.missingFile ("Config file " ++ path ++ ": " ++ e.message))
      | .ok text => orFail (Configuration.read path text)
  match i.request with
  | .nothing =>
    h.print "No subcommand specified. Use --help for usage information.\n"
  | .process r => process h c r
  | .info r => info h c r
  | .check r => check h c r

/-- A failure as the program reports it.  For a fault in a style sheet the line
follows, with a mark under the place. -/
def complaint : Failure → String
  | .io reason => "IO Error: " ++ reason ++ "\n"
  | .stylesheet file line column reason css =>
    let f := Failure.stylesheet file line column reason css
    "Parse error: " ++ f.message ++ "\n" ++
      match f.sourceLine? with
      | some line => "  " ++ line ++ "\n  " ++ "".pushn ' ' (column - 1) ++ "^\n"
      | none => ""
  | f => programName ++ ": " ++ f.message ++ "\n"

/-- How the program is used. -/
def usage : String :=
  "Usage: " ++ programName ++ " [OPTIONS] [COMMAND]\n\n" ++
    "Commands:\n" ++
    "  process  Add and remove vendor prefixes\n" ++
    "  info     Show selected browsers and the prefixes they need\n" ++
    "  check    Report CSS files that are missing prefixes or carry outdated ones\n"

/-- The exit code of a program that crashes. -/
def crashCode : Nat :=
  134

/-- Runs the program with its arguments.  The answer is its exit code.  What the system says
about a crash is left out. -/
def run (h : Host m) (args : List String) : m Nat := do
  match Invocation.read args with
  | .error .misuse =>
    h.report ("error: invalid arguments\n\n" ++ usage)
    return 2
  | .error .version =>
    h.print (programName ++ " 0.1.0\n")
    return 0
  | .error .help =>
    h.print usage
    return 0
  | .ok i =>
    match ← (perform h i).run with
    | .ok () => return 0
    | .error (.failure f) =>
      h.report (complaint f)
      return 1
    | .error .crash => return crashCode

/-- Without an option the configuration decides which browsers are meant. -/
theorem requirements_of_none (c : Configuration) :
    requirements c none = c.browsers.getD [] :=
  rfl

/-- Without files there is nothing to do. -/
theorem processAll_nil (h : Host m) (t : Transformer) (root : String)
    (output : Option String) (total : Statistics) :
    processAll h t root output total [] = pure total :=
  rfl

end CommandLine
end VendorPrefixing
