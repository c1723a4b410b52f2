/-
# Sessions

A program runs in three passes: its functions are made known, its other
top-level declarations are executed in order, and `main` is called. Several
programs may run one after the other on the same machine; functions, globals,
symbols, output, diagnostics and steps stay.

Key definitions: `Eval.program`, `Machine.execute`, `Machine.executeParsed`.
-/
import Treewalk.Eval.Call
import Treewalk.Grammar.Program

namespace Treewalk

/-- A function and the position of its declaration. -/
structure Declared where
  func : FuncDecl
  pos : Position

/-- The function a top-level statement declares. -/
def Stmt.declared? : Stmt → Option Declared
  | .func f pos => some ⟨f, pos⟩
  | _ => none

namespace Program

/-- The functions a program declares, in order. -/
def functions (p : Program) : List Declared := p.declarations.filterMap Stmt.declared?

/-- The top-level statements that are no functions. -/
def globals (p : Program) : List Stmt := p.declarations.filter (·.declared?.isNone)

/-- The function a program starts with: the first of that name. -/
def main? (p : Program) : Option Declared := p.functions.find? (·.func.name == "main")

end Program

namespace Eval

/-- Records the declaration of a function. -/
def declareFunction (d : Declared) : Eval Unit := do
  let _ ← onSymbols (·.declare d.func.name "function" "nil" d.pos)

/-- Makes a function known by its name. -/
def hoist (d : Declared) : Eval Unit := do
  if ((← get).functions.lookup d.func.name).isSome then
    report (.functionRedeclared d.func.name) d.pos
  else
    declareFunction d
    modify fun m => { m with functions := m.functions.put d.func.name d.func }

/-- Makes the functions of a program known. `main` is not called by its name; a second one is
reported. -/
def hoistAll : List Declared → Bool → Eval Unit
  | [], _ => pure ()
  | d :: ds, mainSeen => do
    if d.func.name = "main" then
      if mainSeen then report (.functionRedeclared "main") d.pos
      hoistAll ds true
    else
      hoist d
      hoistAll ds mainSeen

/-- Runs a program. -/
def program (ctx : Context) (p : Program) : Eval Unit := do
  hoistAll p.functions false
  p.globals.forM fun s => s.exec ctx Frames.globalId
  match p.main? with
  | some d =>
    declareFunction d
    let _ ← ctx.call d.func [] d.pos
  | none => pure ()

end Eval

/-- The context of a run: levels of calls and rounds of loops up to the limits. Without a limit on
steps, the rounds are more than any run can make. -/
def Config.context (config : Config) : Context :=
  .ofLevels config (config.limits.maxSteps.getD UInt64.size + 1) (config.limits.maxDepth + 1)

namespace Machine

/-- Runs a program. What stops the run is reported last. -/
def execute (config : Config) (p : Program) (m : Machine) : Machine :=
  match (Eval.program config.context p).run m with
  | .error (.abort a pos) m => m.reportAbort a pos
  | .ok _ m | .error _ m => m

/-- Runs what was read of a source text. The errors of the reading are reported first. -/
def executeParsed (config : Config) (parsed : Parsed) (m : Machine) : Machine :=
  { m with errors := m.errors.append parsed.errors }.execute config parsed.program

end Machine

end Treewalk
