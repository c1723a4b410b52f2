/-
# Calls

A call runs the body of a function in a frame of its own inside the global
frame, so that it sees its parameters and the globals, and nothing of its
caller. Arrays are copied into parameters; pointers are passed as they are.

Calls nest, and so evaluation is defined by the number of levels below it. It
is enough for that number to be as large as the greatest depth allowed.

Key definitions: `Eval.bindParams`, `Eval.invoke`, `Context.ofLevels`.
-/
import Treewalk.Eval.Statement

namespace Treewalk

namespace Eval

/-- Binds a parameter to an argument. -/
def bindParam (ctx : Context) (frame : FrameId) (p : Param) (v : Value) : Eval Unit := do
  let t ← p.type.eval ctx frame
  let v ← if p.byPointer then pure v else t.convert <$> copy v
  if t.accepts v then declare frame p.name (some t) v p.pos .parameter
  else fault (.typeMismatch p.name t.label ((← get).typeLabel v)) p.pos

/-- Runs a function on its arguments. -/
def runFunction (ctx : Context) (func : FuncDecl) (args : List Value) (pos : Position) :
    Eval Value := do
  unless args.length = func.params.length do
    fault (.argumentCount func.name func.params.length args.length) pos
  let max := ctx.config.limits.maxDepth
  if max ≤ (← get).depth then abort (.callDepth max) pos
  inScope (.function func.name) <| inCall <| inFrame Frames.globalId fun frame =>
    returnValue do
      (func.params.zip args).forM fun (p, v) => bindParam ctx frame p v
      Stmt.execAll ctx func.body frame

/-- Calls a function, with a number of levels of calls below it. -/
def invoke (config : Config) (rounds : Nat) : Nat → FuncDecl → List Value → Position → Eval Value
  | 0, _, _, _ => signal .exhausted
  | levels + 1, func, args, pos =>
    runFunction ⟨config, rounds, invoke config rounds levels⟩ func args pos

end Eval

/-- Evaluation with a number of levels of calls. -/
def Context.ofLevels (config : Config) (rounds levels : Nat) : Context :=
  ⟨config, rounds, Eval.invoke config rounds levels⟩

end Treewalk
