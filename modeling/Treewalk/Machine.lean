/-
# The machine

The state of a run, and the actions that all of evaluation is made of. An
action ends in a result or in a signal, and keeps the state in both cases:
what was printed, reported or written before a signal stays.

Actions that open something (`inFrame`, `inScope`, `inCall`) close it again
on every outcome.

An action also says which machines it goes through (`Eval.passes`), so that
what holds at every point of a run can be stated, and which moments these are
in their order (`Eval.trace`), so that a run can be followed from one point to
the next.

Key definitions: `Limits`, `Config`, `Signal`, `Machine`, `Event`, `Moment`,
`Eval`, `Eval.signal`, `Eval.handle`, `Eval.orElseReport`, `Eval.tick`,
`Eval.note`, `Eval.inFrame`, `Eval.inScope`.
-/
import Treewalk.Diagnostic
import Treewalk.Fault
import Treewalk.Symbol

namespace Treewalk

/-- The limits of a run: how deep calls may nest, and how many steps may be made. -/
structure Limits where
  maxDepth : Nat := 1000
  maxSteps : Option Nat := none
  deriving DecidableEq, Repr, Inhabited

/-- What a run is given besides its program. -/
structure Config where
  limits : Limits := {}
  /-- The time of day, as the program sees it. -/
  time : String
  deriving Inhabited

/-- Why an action ended without a result. -/
inductive Signal where
  | broke
  | continued
  | returned (value : Value)
  | fault (fault : Fault) (pos : Position)
  | abort (abort : Abort) (pos : Position)
  /-- A loop or a chain of calls went beyond the bound set for the evaluation itself. -/
  | exhausted
  deriving Inhabited

/-- The state of a run. -/
structure Machine where
  frames : Frames
  heap : Heap
  functions : Names FuncDecl
  symbols : SymbolTable
  errors : ErrorLog
  output : Array String
  /-- How many calls are running. -/
  depth : Nat
  /-- How many steps have been made. -/
  steps : Nat
  deriving Inhabited

namespace Machine

/-- The state before anything has run. -/
def initial : Machine where
  frames := .initial
  heap := .empty
  functions := []
  symbols := .empty
  errors := .empty
  output := #[]
  depth := 0
  steps := 0

def typeLabel (m : Machine) (v : Value) : String := m.frames.typeLabel m.heap v

/-- Adds a diagnostic. -/
def record (m : Machine) (d : Diagnostic) : Machine := { m with errors := m.errors.push d }

/-- Adds a fault to the diagnostics. -/
def report (m : Machine) (f : Fault) (pos : Position) : Machine :=
  m.record ⟨.semantic, f.message, pos⟩

/-- Adds an abort to the diagnostics. -/
def reportAbort (m : Machine) (a : Abort) (pos : Position) : Machine :=
  m.record ⟨.fatal, a.message, pos⟩

end Machine

/-- How an action ends: in a result or in a signal, with the machine it leaves. -/
abbrev Outcome (α : Type) := EStateM.Result Signal Machine α

/-- The machine an action leaves. -/
def Outcome.machine {α : Type} : Outcome α → Machine
  | .ok _ m | .error _ m => m

/-- What a name is declared as. -/
inductive Role where
  | variable
  | constant
  | parameter
  deriving DecidableEq, Repr

/-- What is done in a run beyond what the machine shows of it. -/
inductive Event where
  | raised (signal : Signal)
  /-- Arguments are handed to a function. -/
  | passed (args : List Value)
  /-- A compound assignment has its value and writes it next. -/
  | combined
  | declared (frame : FrameId) (name : String) (role : Role)
  /-- A variable that is there is given a value. -/
  | assigned (frame : FrameId) (name : String)

/-- A moment of a run. -/
structure Moment where
  machine : Machine
  /-- The frames of what is being executed, the innermost first. -/
  frames : List FrameId := []
  event : Option Event := none

/-- The moment, met in the course of something that has opened the frames. -/
def Moment.within (opened : List FrameId) (e : Moment) : Moment :=
  { e with frames := e.frames ++ opened }

/-- What comes after an outcome: the moments of the action that is given the result, and none after
a signal. -/
def Outcome.Continues {α : Type} (next : α → Machine → List Moment → Prop) (es : List Moment) :
    Outcome α → Prop
  | .ok a m => next a m es
  | .error _ _ => es = []

/-- An action. Besides what it does to a machine it says which machines it goes through: those that
its elementary parts are given and those that they leave; and which moments these are, one after the
other. The latter is there for reasoning only, and nothing of it is left when an action runs. -/
structure Eval (α : Type) where
  run : Machine → Outcome α
  passes : Machine → Machine → Prop
  trace : Machine → List Moment → Prop
  traced : ∀ m, ∃ es, trace m es
  /-- A trace shows the machines that are passed, and no others. -/
  covers : ∀ {m es}, trace m es → ∀ p, passes m p ↔ ∃ e ∈ es, e.machine = p

namespace Eval

/-- Ends in a signal. -/
@[inline] def signal {α : Type} (s : Signal) : Eval α where
  run m := .error s m
  passes m p := p = m
  trace m es := es = [{ machine := m, event := some (.raised s) }]
  traced _ := ⟨_, rfl⟩
  covers := by rintro m _ rfl p; simp [eq_comm]

@[always_inline] instance : Monad Eval where
  pure a :=
    { run := fun m => .ok a m
      passes := fun _ _ => False
      trace := fun _ es => es = []
      traced := fun _ => ⟨_, rfl⟩
      covers := by rintro m _ rfl p; simp }
  bind x f :=
    { run := fun m =>
        match x.run m with
        | .ok a m => (f a).run m
        | .error s m => .error s m
      passes := fun m p => x.passes m p ∨ ∃ a m', x.run m = .ok a m' ∧ (f a).passes m' p
      trace := fun m es => ∃ es₁ es₂, x.trace m es₁ ∧
        (x.run m).Continues (fun a => (f a).trace) es₂ ∧ es = es₁ ++ es₂
      traced := fun m => by
        obtain ⟨es₁, h₁⟩ := x.traced m
        cases hr : x.run m with
        | ok a m' =>
          obtain ⟨es₂, h₂⟩ := (f a).traced m'
          exact ⟨_, es₁, es₂, h₁, h₂, rfl⟩
        | error s m' => exact ⟨_, es₁, [], h₁, rfl, rfl⟩
      covers := by
        rintro m _ ⟨es₁, es₂, h₁, h₂, rfl⟩ p
        rw [x.covers h₁]
        cases hr : x.run m with
        | ok a m' =>
          rw [hr] at h₂
          simp [and_assoc, or_and_right, exists_or, (f a).covers h₂]
        | error s m' =>
          rw [hr] at h₂
          cases h₂
          simp }

@[always_inline] instance : MonadStateOf Machine Eval where
  get :=
    { run := fun m => .ok m m
      passes := fun m p => p = m
      trace := fun m es => es = [{ machine := m }]
      traced := fun _ => ⟨_, rfl⟩
      covers := by rintro m _ rfl p; simp [eq_comm] }
  set m' :=
    { run := fun _ => .ok () m'
      passes := fun m p => p = m ∨ p = m'
      trace := fun m es => es = [{ machine := m }, { machine := m' }]
      traced := fun _ => ⟨_, rfl⟩
      covers := by rintro m _ rfl p; simp [eq_comm] }
  modifyGet f :=
    { run := fun m =>
        match f m with
        | (a, m) => .ok a m
      passes := fun m p => p = m ∨ p = (f m).2
      trace := fun m es => es = [{ machine := m }, { machine := (f m).2 }]
      traced := fun _ => ⟨_, rfl⟩
      covers := by rintro m _ rfl p; simp [eq_comm] }

/-- Changes the machine, which makes an event. -/
@[inline] def note (e : Event) (f : Machine → Machine) : Eval Unit where
  run m := .ok () (f m)
  passes m p := p = m ∨ p = f m
  trace m es := es = [{ machine := m }, { machine := f m, event := some e }]
  traced _ := ⟨_, rfl⟩
  covers := by rintro m _ rfl p; simp [eq_comm]

section Run

variable {α β : Type} {x : Eval α} {f : α → Eval β} {m m' : Machine}

theorem run_bind (x : Eval α) (f : α → Eval β) (m : Machine) :
    (x >>= f).run m = match x.run m with
      | .ok a m' => (f a).run m'
      | .error s m' => .error s m' :=
  rfl

theorem run_bind_of_ok {a : α} (h : x.run m = .ok a m') : (x >>= f).run m = (f a).run m' := by
  rw [run_bind, h]

theorem run_bind_of_error {s : Signal} (h : x.run m = .error s m') :
    (x >>= f).run m = .error s m' := by
  rw [run_bind, h]

end Run

/-- Ends the statement or expression in a fault. -/
def fault {α : Type} (f : Fault) (pos : Position) : Eval α := signal (.fault f pos)

/-- Ends the run. -/
def abort {α : Type} (a : Abort) (pos : Position) : Eval α := signal (.abort a pos)

/-- Reports a fault and goes on. -/
def report (f : Fault) (pos : Position) : Eval Unit := modify (·.report f pos)

/-- The result of an operation, or its fault at a position. -/
def lift {α ε : Type} [Coe ε Fault] (r : Except ε α) (pos : Position) : Eval α :=
  match r with
  | .ok a => pure a
  | .error e => fault e pos

/-- What is there, or a fault. -/
def require {α : Type} (a? : Option α) (f : Fault) (pos : Position) : Eval α :=
  match a? with
  | some a => pure a
  | none => fault f pos

/-- Goes on from every outcome of an action: how, is read off the outcome. -/
@[inline] def handle {α β : Type} (x : Eval α) (next : Outcome α → Outcome β) : Eval β where
  run m := next (x.run m)
  passes m p := x.passes m p ∨ p = (next (x.run m)).machine
  trace m es := ∃ es₁, x.trace m es₁ ∧ es = es₁ ++ [{ machine := (next (x.run m)).machine }]
  traced m := by
    obtain ⟨es₁, h₁⟩ := x.traced m
    exact ⟨_, es₁, h₁, rfl⟩
  covers := by
    rintro m _ ⟨es₁, h₁, rfl⟩ p
    simp [x.covers h₁, or_and_right, exists_or, eq_comm]

/-- Runs an action; a fault is reported, and `a` is the result then. -/
def orElseReport {α : Type} (x : Eval α) (a : α) : Eval α :=
  x.handle fun
    | .error (.fault f pos) m => .ok a (m.report f pos)
    | r => r

/-- Makes one step, or ends the run if none is left. -/
def tick (limits : Limits) (pos : Position) : Eval Unit := do
  modify fun m => { m with steps := m.steps + 1 }
  match limits.maxSteps with
  | some max => if max < (← get).steps then abort (.stepBudget max) pos
  | none => pure ()

/-- Runs an action between two changes of the state, the second made on every outcome. The first
opens the frames. -/
def bracket {α : Type} (opened : List FrameId) (before after : Machine → Machine) (x : Eval α) :
    Eval α where
  run m :=
    match x.run (before m) with
    | .ok a m => .ok a (after m)
    | .error s m => .error s (after m)
  passes m p := x.passes (before m) p
  trace m es := ∃ es', x.trace (before m) es' ∧ es = es'.map (Moment.within opened)
  traced m := by
    obtain ⟨es', h⟩ := x.traced (before m)
    exact ⟨_, es', h, rfl⟩
  covers := by
    rintro m _ ⟨es', h, rfl⟩ p
    simp only [x.covers h, List.mem_map]
    exact ⟨fun ⟨e, he, hp⟩ => ⟨_, ⟨e, he, rfl⟩, hp⟩, fun ⟨_, ⟨e, he, rfl⟩, hp⟩ => ⟨e, he, hp⟩⟩

/-- Runs an action in a new frame, which ends with it. -/
def inFrame {α : Type} (parent : FrameId) (x : FrameId → Eval α) : Eval α := do
  let id := (← get).frames.nextId
  bracket [id] (fun m => { m with frames := m.frames.openIn parent })
    (fun m => { m with frames := m.frames.close id }) (x id)

/-- Runs an action in a scope of the symbol table. -/
def inScope {α : Type} (s : Scope) (x : Eval α) : Eval α :=
  bracket [] (fun m => { m with symbols := m.symbols.push s })
    (fun m => { m with symbols := m.symbols.pop }) x

/-- Runs an action one call deeper. -/
def inCall {α : Type} (x : Eval α) : Eval α :=
  bracket [] (fun m => { m with depth := m.depth + 1 })
    (fun m => { m with depth := m.depth - 1 }) x

/-- Runs an action; whether the loop around it goes on after it. -/
def goesOn (x : Eval Unit) : Eval Bool :=
  x.handle fun
    | .ok _ m | .error .continued m => .ok true m
    | .error .broke m => .ok false m
    | .error s m => .error s m

/-- Runs an action, which a `break` may end early. -/
def untilBreak (x : Eval Unit) : Eval Unit :=
  x.handle fun
    | .error .broke m => .ok () m
    | r => r

/-- The result of a function body: what it returns, or nil at its end. -/
def returnValue (x : Eval Unit) : Eval Value :=
  x.handle fun
    | .ok _ m => .ok .nil m
    | .error (.returned v) m => .ok v m
    | .error s m => .error s m

/-- A value where only one may stand. -/
def single (pos : Position) (v : Value) : Eval Value :=
  if v.isMulti then fault .multipleValues pos else pure v

/-- The value of an expression that gives the action; nil after a fault, which is reported. -/
def settled (x : Eval Value) : Eval Value := orElseReport x .nil

/-- The value of an expression at a position where only one may stand. -/
def one (pos : Position) (x : Eval Value) : Eval Value := settled x >>= single pos

/-- Runs an operation of the heap. -/
def onHeap {α : Type} (f : Heap → α × Heap) : Eval α :=
  modifyGet fun m =>
    let (a, heap) := f m.heap
    (a, { m with heap })

/-- Runs an operation of the symbol table. -/
def onSymbols {α : Type} (f : SymbolTable → α × SymbolTable) : Eval α :=
  modifyGet fun m =>
    let (a, symbols) := f m.symbols
    (a, { m with symbols })

/-- The value of a variable of the type that was given none. -/
def zero (t : Ty) : Eval Value := onHeap (·.zero t)

/-- A copy that shares no storage. -/
def copy (v : Value) : Eval Value := onHeap (·.copy v)

end Eval

end Treewalk
