/-
# Options

The arguments of the command, read from left to right. The first argument
that cannot be taken refuses the whole line; a demand for help or for the
version settles it. Flags and settings may be given once each. Short flags
may be joined behind one dash, and the value of a setting may be the next
argument, or follow directly, or follow an equals sign.

Key definitions: `Options`, `Request`, `Refusal`, `Options.read`.
-/

namespace Treewalk

inductive LogLevel where
  | error
  | warn
  | info
  | debug
  | trace
  deriving DecidableEq, Repr

def LogLevel.named? : String → Option LogLevel
  | "error" => some error
  | "warn" => some warn
  | "info" => some info
  | "debug" => some debug
  | "trace" => some trace
  | _ => none

structure Options where
  /-- The source to run; standard input if there is none. -/
  file : Option String := none
  /-- A source, or a directory of sources, to run as tests. -/
  test : Option String := none
  json : Bool := false
  symbols : Bool := false
  /-- Whether the tree is listed before the run. -/
  tree : Bool := false
  /-- Whether colours are switched off. -/
  plain : Bool := false
  maxDepth : Option Nat := none
  maxSteps : Option Nat := none
  logLevel : Option LogLevel := none
  deriving DecidableEq, Repr

/-- An option without a value. -/
inductive Flag where
  | json
  | symbols
  | tree
  | plain
  | help
  | version
  deriving DecidableEq, Repr

/-- An option with a value. -/
inductive Setting where
  | file
  | test
  | maxDepth
  | maxSteps
  | logLevel
  deriving DecidableEq, Repr

inductive OptionKey where
  | flag (f : Flag)
  | setting (s : Setting)
  deriving DecidableEq, Repr

/-- What an accepted command line asks for. -/
inductive Request where
  | run (o : Options)
  | help
  | version
  deriving DecidableEq, Repr

/-- Why a command line is not accepted. -/
inductive Refusal where
  | unexpected (argument : String)
  | repeated (name : String)
  | valueMissing (name : String)
  | valueUnexpected (name value : String)
  | valueInvalid (name value : String)
  deriving DecidableEq, Repr

def Refusal.message : Refusal → String
  | unexpected argument => s!"unexpected argument '{argument}' found"
  | repeated name => s!"the argument '{name}' cannot be used multiple times"
  | valueMissing name => s!"a value is required for '{name}' but none was supplied"
  | valueUnexpected name value => s!"unexpected value '{value}' for '{name}' found"
  | valueInvalid name value => s!"invalid value '{value}' for '{name}'"

namespace OptionKey

def long? : String → Option OptionKey
  | "json" => some (.flag .json)
  | "symbols" => some (.flag .symbols)
  | "ast-print" => some (.flag .tree)
  | "no-color" => some (.flag .plain)
  | "help" => some (.flag .help)
  | "version" => some (.flag .version)
  | "file" => some (.setting .file)
  | "test" => some (.setting .test)
  | "max-depth" => some (.setting .maxDepth)
  | "max-steps" => some (.setting .maxSteps)
  | "log-level" => some (.setting .logLevel)
  | _ => none

def short? : Char → Option OptionKey
  | 'j' => some (.flag .json)
  | 's' => some (.flag .symbols)
  | 'a' => some (.flag .tree)
  | 'h' => some (.flag .help)
  | 'V' => some (.flag .version)
  | 'f' => some (.setting .file)
  | 't' => some (.setting .test)
  | _ => none

end OptionKey

def Flag.name : Flag → String
  | json => "--json"
  | symbols => "--symbols"
  | tree => "--ast-print"
  | plain => "--no-color"
  | help => "--help"
  | version => "--version"

def Setting.name : Setting → String
  | file => "--file"
  | test => "--test"
  | maxDepth => "--max-depth"
  | maxSteps => "--max-steps"
  | logLevel => "--log-level"

/-- A count of at most 64 bits: decimal digits, with a plus sign before them or without. -/
def readCount? (s : String) : Option Nat :=
  let digits := match s.toList with
    | '+' :: ds => ds
    | ds => ds
  if digits.isEmpty || !digits.all Char.isDigit then none
  else
    let n := digits.foldl (fun n d => 10 * n + (d.toNat - '0'.toNat)) 0
    if n < UInt64.size then some n else none

/-- A path is any text but the empty one. -/
def readPath? (s : String) : Option String := if s.isEmpty then none else some s

namespace Options

/-- What has been read of a command line: so far, or all that matters. -/
inductive Progress where
  /-- The options up to here, and the setting that still wants its value. -/
  | more (o : Options) (pending : Option Setting)
  | settled (r : Request)

/-- Takes a flag. -/
def raise (o : Options) (f : Flag) : Except Refusal Progress :=
  match f with
  | .json => if o.json then again else go { o with json := true }
  | .symbols => if o.symbols then again else go { o with symbols := true }
  | .tree => if o.tree then again else go { o with tree := true }
  | .plain => if o.plain then again else go { o with plain := true }
  | .help => .ok (.settled .help)
  | .version => .ok (.settled .version)
where
  again : Except Refusal Progress := .error (.repeated f.name)
  go (o : Options) : Except Refusal Progress := .ok (.more o none)

/-- Takes the value of a setting. -/
def assign (o : Options) (s : Setting) (v : String) : Except Refusal Options :=
  match s with
  | .file => put o.file (readPath? v) fun x => { o with file := x }
  | .test => put o.test (readPath? v) fun x => { o with test := x }
  | .maxDepth => put o.maxDepth (readCount? v) fun x => { o with maxDepth := x }
  | .maxSteps => put o.maxSteps (readCount? v) fun x => { o with maxSteps := x }
  | .logLevel => put o.logLevel (LogLevel.named? v) fun x => { o with logLevel := x }
where
  put {α : Type} (old new : Option α) (set : Option α → Options) : Except Refusal Options :=
    if old.isSome then .error (.repeated s.name)
    else if new.isNone then .error (.valueInvalid s.name v)
    else .ok (set new)

/-- Takes joined short options. -/
def readShorts (o : Options) : List Char → Except Refusal Progress
  | [] => .ok (.more o none)
  | c :: cs =>
    match OptionKey.short? c with
    | none => .error (.unexpected (String.ofList ['-', c]))
    | some (.setting s) =>
      match cs with
      | [] => .ok (.more o (some s))
      | '=' :: v => (o.assign s (String.ofList v)).map (.more · none)
      | v => (o.assign s (String.ofList v)).map (.more · none)
    | some (.flag f) => do
      match ← o.raise f with
      | .more o _ => readShorts o cs
      | .settled r => return .settled r

/-- Takes a long option, its two dashes left out. -/
def readLong (o : Options) (arg : List Char) : Except Refusal Progress :=
  let name := String.ofList (arg.takeWhile (· ≠ '='))
  match OptionKey.long? name, arg.dropWhile (· ≠ '=') with
  | none, _ => .error (.unexpected ("--" ++ name))
  | some (.flag f), [] => o.raise f
  | some (.flag f), _ :: v => .error (.valueUnexpected f.name (String.ofList v))
  | some (.setting s), [] => .ok (.more o (some s))
  | some (.setting s), _ :: v => (o.assign s (String.ofList v)).map (.more · none)

/-- Takes an argument that is no value of a setting. -/
def readArgument (o : Options) (arg : String) : Except Refusal Progress :=
  match arg.toList with
  | '-' :: '-' :: long => readLong o long
  | '-' :: c :: cs => readShorts o (c :: cs)
  | _ => .error (.unexpected arg)

/-- Whether an argument can be the value of the setting before it. -/
def isValue (arg : String) : Bool := arg == "-" || !arg.startsWith "-"

/-- Reads the arguments behind those already read. Two dashes end the options; nothing may follow
them. -/
def readFrom (o : Options) : Option Setting → List String → Except Refusal Request
  | none, [] => .ok (.run o)
  | some s, [] => .error (.valueMissing s.name)
  | some s, arg :: rest => do
    if !isValue arg then throw (.valueMissing s.name)
    readFrom (← o.assign s arg) none rest
  | none, "--" :: rest =>
    match rest with
    | [] => .ok (.run o)
    | arg :: _ => .error (.unexpected arg)
  | none, arg :: rest => do
    match ← o.readArgument arg with
    | .more o pending => readFrom o pending rest
    | .settled r => return r

/-- Reads a command line. -/
def read (args : List String) : Except Refusal Request := readFrom {} none args

end Options

end Treewalk
