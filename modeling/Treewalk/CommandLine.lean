/-
# The command

What the command does with its arguments, over any surroundings that can
read files, print and tell the time. A source is run and its report printed:
the lines of the program to the output, the diagnostics to the error output;
or as JSON. As tests, a source or all sources of a directory are run one by
one, and the number of those that passed is printed.

Key definitions: `Surroundings`, `CommandLine.run`, `CommandLine.start`.
-/
import Treewalk.CommandLine.Options
import Treewalk.Outline
import Treewalk.Report.View

namespace Treewalk

/-- Why something could not be read. -/
inductive ReadFault where
  /-- A refusal of the system, with its number. -/
  | system (description : String) (code : Nat)
  /-- Bytes that are no text. -/
  | notText
  deriving DecidableEq, Repr

namespace ReadFault

def message : ReadFault → String
  | system description code => s!"{description} (os error {code})"
  | notText => "stream did not contain valid UTF-8"

def notFound : ReadFault := .system "No such file or directory" 2

def notDirectory : ReadFault := .system "Not a directory" 20

def isDirectory : ReadFault := .system "Is a directory" 21

def nameTooLong : ReadFault := .system "File name too long" 36

end ReadFault

/-- What the command finds around it. -/
structure Surroundings (m : Type → Type) where
  inputText : m (Except ReadFault String)
  fileText : String → m (Except ReadFault String)
  isFile : String → m Bool
  /-- The names of what a directory holds, in any order. -/
  entries : String → m (Except ReadFault (List String))
  out : String → m Unit
  err : String → m Unit
  /-- The time of day. -/
  time : m String
  /-- Runs a computation, and gives the milliseconds it took. -/
  timed : (Unit → Report) → m (Report × String)

/-- How the command ends. -/
inductive ExitStatus where
  | success
  | failure
  /-- Something could not be read, or the arguments could not be taken. -/
  | misuse
  deriving DecidableEq, Repr

def ExitStatus.code : ExitStatus → UInt8
  | success => 0
  | failure => 1
  | misuse => 2

def ExitStatus.ofPassed (passed : Bool) : ExitStatus := if passed then success else failure

/-- What could not be read. -/
inductive CommandFault where
  | file (path : String) (fault : ReadFault)
  | directory (path : String) (fault : ReadFault)
  | input (fault : ReadFault)
  deriving DecidableEq, Repr

def CommandFault.message : CommandFault → String
  | file path fault => s!"can't read source file '{path}': {fault.message}"
  | directory path fault => s!"can't read test directory '{path}': {fault.message}"
  | input fault => s!"can't read from stdin: {fault.message}"

/-- The file a name stands for in a directory. -/
def joinPath (directory name : String) : String :=
  if directory.endsWith "/" then directory ++ name else directory ++ "/" ++ name

/-- Whether a file name has the ending of sources, and something before it. -/
def isSourceName (name : String) : Bool := name.endsWith ".glt" && name.length > ".glt".length

def Options.limits (o : Options) : Limits := ⟨o.maxDepth.getD 1000, o.maxSteps⟩

def helpText : String :=
  "Interpreter for the golite teaching language\n\n" ++
  "Usage: golite [OPTIONS]\n\n" ++
  "Options:\n" ++
  "  -f, --file <FILE>            Path to the file to run, stdin when absent\n" ++
  "  -j, --json                   Prints the whole run report as JSON\n" ++
  "  -s, --symbols                Prints the symbol table after the run\n" ++
  "  -a, --ast-print              Prints the AST tree\n" ++
  "  -t, --test <DIR|FILE>        Batch mode: runs a .glt file, or every .glt file of a " ++
  "directory\n" ++
  "      --max-depth <MAX_DEPTH>  Maximum depth of nested function calls [default: 1000]\n" ++
  "      --max-steps <MAX_STEPS>  Maximum number of executed statements\n" ++
  "      --log-level <LOG_LEVEL>  [possible values: error, warn, info, debug, trace]\n" ++
  "      --no-color               \n" ++
  "  -h, --help                   Print help\n" ++
  "  -V, --version                Print version\n"

def versionText : String := "golite 0.1.0\n"

namespace CommandLine

variable {m : Type → Type} [Monad m]

/-- The actions of the command, which end early when something cannot be read. -/
abbrev Action (m : Type → Type) := ExceptT CommandFault m

variable (env : Surroundings m)

/-- Prints a line. -/
def line (text : String) : Action m Unit := env.out (text ++ "\n")

/-- Prints a line to the error output. -/
def errorLine (text : String) : Action m Unit := env.err (text ++ "\n")

/-- What was read, or the fault of the command. -/
def reading {α : Type} (fault : ReadFault → CommandFault) (x : m (Except ReadFault α)) :
    Action m α := do
  match ← (x : Action m (Except ReadFault α)) with
  | .ok a => return a
  | .error e => throw (fault e)

/-- Runs a source. -/
def runSource (limits : Limits) (source : String) : Action m (Report × String) := do
  let config : Config := ⟨limits, ← env.time⟩
  env.timed fun _ => Report.ofText config source

/-- Prints a report as text. -/
def printReport (palette : Palette) (symbols : Bool) (r : Report) : Action m Unit := do
  r.output.forM (line env)
  unless r.errors.isEmpty do
    errorLine env ""
    r.errors.forM fun d => errorLine env (d.render palette)
  if symbols then
    line env ""
    line env (palette.paint "1;33" "Symbol table")
    r.symbolLines.forM (line env)

/-- Runs a source and prints what is wanted of it. Whether it passed. -/
def interpret (palette : Palette) (o : Options) (source : String) : Action m Bool := do
  if o.tree then
    line env ("\nAST:\n" ++ (Parsed.ofText source).program.outline.render)
  let (r, elapsed) ← runSource env o.limits source
  if o.json then
    line env (if o.symbols then r.symbolsJson else r.fullJson elapsed).render
  else printReport env palette o.symbols r
  return r.success

/-- The sources to test: the file itself, or the sources of the directory by name. -/
def testFiles (path : String) : Action m (List String) := do
  if ← env.isFile path then return [path]
  let names ← reading (.directory path) (env.entries path)
  return ((names.filter isSourceName).mergeSort (fun a b => a ≤ b)).map (joinPath path)

/-- Runs one source as a test. Whether it passed. -/
def testFile (palette : Palette) (o : Options) (path : String) : Action m Bool := do
  unless o.json do line env ("\n" ++ palette.paint "1;36" "Running" ++ " " ++ path)
  let source ← reading (.file path) (env.fileText path)
  if o.json then
    let (r, _) ← runSource env o.limits source
    line env r.errorsJson.render
    return r.success
  else interpret env palette o source

/-- Runs tests and prints how many passed. Whether all did. -/
def test (palette : Palette) (o : Options) (path : String) : Action m Bool := do
  let files ← testFiles env path
  let failed ← files.filterM fun file => return !(← testFile env palette o file)
  unless o.json do
    let summary := s!"{files.length - failed.length}/{files.length} passed"
    line env ("\n" ++ palette.paint (if failed.isEmpty then "1;32" else "1;31") summary)
    failed.forM fun file => line env ("  " ++ palette.paint "31" "failed:" ++ " " ++ file)
  return failed.isEmpty

/-- Does what the options ask for. Whether all went well. -/
def start (palette : Palette) (o : Options) : Action m Bool := do
  match o.test with
  | some path => test env palette o path
  | none =>
    let source ← match o.file with
      | some path => reading (.file path) (env.fileText path)
      | none => reading .input env.inputText
    interpret env palette o source

/-- The command. Colours are used if the palette has them and they are not switched off. -/
def run (palette : Palette) (args : List String) : m ExitStatus := do
  match Options.read args with
  | .error refusal =>
    env.err ("error: " ++ refusal.message ++ "\n")
    return .misuse
  | .ok .help =>
    env.out helpText
    return .success
  | .ok .version =>
    env.out versionText
    return .success
  | .ok (.run o) =>
    let palette := if o.plain then .plain else palette
    match ← (start env palette o).run with
    | .ok passed => return .ofPassed passed
    | .error fault =>
      env.err (palette.paint "1;31" "error:" ++ " " ++ fault.message ++ "\n")
      return .misuse

end CommandLine

end Treewalk
