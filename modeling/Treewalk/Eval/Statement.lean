/-
# Statements

Every statement costs a step before it does anything, and so does every round
of a loop. A fault inside a statement is reported by that statement, which
ends there; the statements behind it go on. Loops and switches stop `break`
and `continue`; all else goes up.

Key definitions: `Stmt.raw`, `Stmt.exec`, `Stmt.execAll`, `Eval.rounds`.
-/
import Treewalk.Eval.Expression

namespace Treewalk

namespace Eval

/-- A value for a declared type. Nil fits every type; a value of another type is reported, and the
zero value taken. -/
def typedValue (name : String) (t : Ty) (v : Value) (pos : Position) : Eval Value := do
  let v := t.convert v
  if v.isNil || t.accepts v then return v
  report (.typeMismatch name t.label ((← get).typeLabel v)) pos
  zero t

/-- The first value of a variable, with a declared type or a given value or both. -/
def firstValue (name : String) (t : Option Ty) (v : Option Value) (pos : Position) :
    Eval Value :=
  match t, v with
  | some t, some v => typedValue name t v pos
  | some t, none => zero t
  | none, some v => pure v
  | none, none => pure .nil

/-- Declares variables. A name that the frame already binds is reported and left alone. -/
def declareVars (frame : FrameId) (t : Option Ty) : List Binder → List Value → Eval Unit
  | [], _ => pure ()
  | x :: xs, vs => do
    if (← get).frames.hasLocal frame x.name then report (.redeclared x.name) x.pos
    else
      let v ← firstValue x.name t vs.head? x.pos
      declare frame x.name t v x.pos .variable
    declareVars frame t xs vs.tail

/-- Gives a name of a short declaration its value: a new variable, or an assignment. -/
def declareShort (frame : FrameId) (x : Binder) (v : Value) : Eval Unit := do
  let m ← get
  if !m.frames.hasLocal frame x.name then declare frame x.name none v x.pos .variable
  else if m.frames.isConst frame x.name then report (.name (.assignConstant x.name)) x.pos
  else
    let current := (m.frames.value? frame x.name).getD .nil
    let slot := (m.frames.kind? frame x.name).getD current.kind
    match slot.coerce v with
    | some v => store ⟨frame, x.name⟩ v x.pos
    | none => report (.typeMismatch x.name (m.slotLabel slot current) (m.typeLabel v)) x.pos

/-- The values of a declaration for a number of names. -/
def values (ctx : Context) (es : List Expr) (count : Nat) (frame : FrameId) (pos : Position) :
    Eval (List Value) := do
  match es with
  | [e] =>
    match ← e.eval ctx frame with
    | .multi vs =>
      if vs.length = count then return vs else fault (.countMismatch count vs.length) pos
    | v => if count = 1 then return [v] else fault (.countMismatch count 1) pos
  | es =>
    if es.length = count then Expr.operands ctx es frame
    else fault (.countMismatch count es.length) pos

/-- The type of a declaration. -/
def declaredType (ctx : Context) (t : Option TypeExpr) (frame : FrameId) : Eval (Option Ty) := do
  match t with
  | some t => return some (← t.eval ctx frame)
  | none => return none

/-- The place a target stands for. -/
def placeOf (ctx : Context) (target : Target) (frame : FrameId) (pos : Position) :
    Eval Place := do
  match target with
  | .name x => return .var ⟨← writableOwner x frame pos, x⟩
  | .deref x =>
    let v ← lookup x frame pos
    return .var (← follow x v pos)
  | .index x indices =>
    let owner ← writableOwner x frame pos
    let path ← Expr.path ctx indices frame
    element ⟨owner, x⟩ path pos

/-- Whether a condition holds. -/
def condition (ctx : Context) (e : Expr) (frame : FrameId) : Eval Bool := do
  let v ← e.eval ctx frame
  if v.isMulti then fault (.conditionKind .multi) e.pos
  return v.truthy

/-- Whether a loop goes into a further round, which costs a step. -/
def loopCheck (ctx : Context) (e : Option Expr) (pos : Position) (frame : FrameId) :
    Eval Bool := do
  tick ctx.config.limits pos
  match e with
  | some e => condition ctx e frame
  | none => return true

/-- Whether a `case` has a value equal to the subject. Values behind it are not evaluated. -/
def caseMatches (ctx : Context) (subject : Value) (frame : FrameId) : List Expr → Eval Bool
  | [] => return false
  | e :: es => do
    let v ← e.operand ctx frame
    if subject.equal? v = some true then return true
    caseMatches ctx subject frame es

/-- What a `return` gives back. -/
def returned (ctx : Context) (es : List Expr) (frame : FrameId) : Eval Value := do
  match es with
  | [] => return .nil
  | [e] => e.operand ctx frame
  | es => return .multi (← Expr.operands ctx es frame)

/-- Runs a loop: `check`, and while it holds, `body` and `post`, for as many rounds at most. -/
def rounds (check : Eval Bool) (body post : Eval Unit) : Nat → Eval Unit
  | 0 => signal .exhausted
  | n + 1 => do
    if ← check then
      if ← goesOn body then
        post
        rounds check body post n

/-- Executes a statement: one step, and the statement; a fault is reported. -/
def statement (limits : Limits) (pos : Position) (x : Eval Unit) : Eval Unit := do
  tick limits pos
  orElseReport x ()

end Eval

open Eval

mutual

/-- Executes a statement, or gives its fault. -/
def Stmt.raw (ctx : Context) : Stmt → FrameId → Eval Unit
  | .varDecl names type es pos, frame => do
    let t ← declaredType ctx type frame
    let vs ← if es.isEmpty then pure [] else values ctx es names.length frame pos
    declareVars frame t names vs
  | .constDecl x type e pos, frame => do
    if (← get).frames.hasLocal frame x then fault (.redeclared x) pos
    let t ← declaredType ctx type frame
    let vs ← values ctx [e] 1 frame pos
    let v ← firstValue x t vs.head? pos
    declare frame x t v pos .constant
  | .shortDecl names es pos, frame => do
    let m ← get
    if m.symbols.atGlobal then fault .shortAtGlobal pos
    if names.all fun x => m.frames.hasLocal frame x.name then fault .nothingNew pos
    let vs ← values ctx es names.length frame pos
    (names.zip vs).forM fun (x, v) => declareShort frame x v
  | .assign target op e pos, frame => do
    let p ← placeOf ctx target frame pos
    let v ← e.operand ctx frame
    assignTo p target.variable op v pos
  | .step target op pos, frame => do
    let p ← placeOf ctx target frame pos
    stepBy p op pos
  | .expr e _, frame => do
    let _ ← e.eval ctx frame
  | .block body _, frame => inScope .block (inFrame frame fun inner => Stmt.execAll ctx body inner)
  | .ifElse branches otherwise _, frame => do
    unless ← Stmt.execBranches ctx branches frame do
      inScope .elseBlock (Stmt.execOtherwise ctx otherwise frame)
  | .loop init check post body pos, frame =>
    inScope .loop <| inFrame frame fun frame => do
      Stmt.execOptional ctx init frame
      rounds (loopCheck ctx check pos frame)
        (inFrame frame fun inner => Stmt.execAll ctx body inner)
        (Stmt.execOptional ctx post frame) ctx.rounds
  | .switch subject clauses otherwise _, frame =>
    inScope .switch <| inFrame frame fun frame => untilBreak do
      let v ← subject.operand ctx frame
      unless ← Stmt.execClauses ctx v clauses false frame do
        Stmt.execOtherwise ctx otherwise frame
  | .breakStmt pos, _ => do
    if (← get).symbols.canBreak then signal .broke else fault .misplacedBreak pos
  | .continueStmt pos, _ => do
    if (← get).symbols.canContinue then signal .continued else fault .misplacedContinue pos
  | .returnStmt es pos, frame => do
    unless (← get).symbols.canReturn do fault .misplacedReturn pos
    signal (.returned (← returned ctx es frame))
  | .func _ _, _ => pure ()

/-- Executes statements one after the other. -/
def Stmt.execAll (ctx : Context) : List Stmt → FrameId → Eval Unit
  | [], _ => pure ()
  | s :: ss, frame => do
    statement ctx.config.limits s.pos (s.raw ctx frame)
    Stmt.execAll ctx ss frame

/-- Executes a clause of a loop, if there is one. -/
def Stmt.execOptional (ctx : Context) : Option Stmt → FrameId → Eval Unit
  | none, _ => pure ()
  | some s, frame => statement ctx.config.limits s.pos (s.raw ctx frame)

/-- Executes what stands for all other cases, if there is such a thing, in a frame of its own. -/
def Stmt.execOtherwise (ctx : Context) : Option (List Stmt) → FrameId → Eval Unit
  | none, _ => pure ()
  | some body, frame => inFrame frame fun inner => Stmt.execAll ctx body inner

/-- Executes the first branch whose condition holds; whether there is one. -/
def Stmt.execBranches (ctx : Context) : List (Branch Stmt) → FrameId → Eval Bool
  | [], _ => return false
  | ⟨e, body⟩ :: rest, frame => do
    if ← condition ctx e frame then
      inScope .ifBlock (inFrame frame fun inner => Stmt.execAll ctx body inner)
      return true
    Stmt.execBranches ctx rest frame

/-- Executes the first matching case and all cases behind it; whether there is one. -/
def Stmt.execClauses (ctx : Context) (subject : Value) :
    List (Clause Stmt) → Bool → FrameId → Eval Bool
  | [], found, _ => return found
  | ⟨es, body, _⟩ :: rest, found, frame => do
    let found ← if found then pure true else caseMatches ctx subject frame es
    if found then inFrame frame fun inner => Stmt.execAll ctx body inner
    Stmt.execClauses ctx subject rest found frame

end

/-- Executes a statement. -/
def Stmt.exec (ctx : Context) (s : Stmt) (frame : FrameId) : Eval Unit :=
  statement ctx.config.limits s.pos (s.raw ctx frame)

end Treewalk
