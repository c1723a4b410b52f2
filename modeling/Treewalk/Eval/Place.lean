/-
# Places

What an assignment writes to: a variable in the frame that binds it, or an
element of a storage. A write to an element also renews the symbol-table
entry of the variable through which the array was reached, its holder.

Key definitions: `Place`, `Eval.follow`, `Eval.arrayBehind`, `Heap.walk`,
`Eval.read`, `Eval.write`, `Kind.coerce`.
-/
import Treewalk.Machine
import Treewalk.Operator

namespace Treewalk

/-- A variable, in the frame that binds it. -/
structure Variable where
  owner : FrameId
  name : String
  deriving DecidableEq, Repr

inductive Place where
  | var (x : Variable)
  | element (storage : StorageId) (index : Int) (holder : Variable)
  deriving DecidableEq, Repr

/-- The value as a variable of the kind takes it in a plain assignment: of the same kind, an
integer where a float is kept, and nil anywhere; where nil is kept, also a pointer. -/
def Kind.coerce (slot : Kind) (v : Value) : Option Value :=
  match slot, v with
  | _, .nil => some .nil
  | .float32, .int n => some (.float (Binary32.ofInt n.toInt))
  | .nil, .pointer frame name => some (.pointer frame name)
  | slot, v => if slot = v.kind then some v else none

/-- A rune stays a rune under arithmetic. -/
def Value.keepRune (current result : Value) : Value :=
  match current, result with
  | .rune _, .int n => .rune n
  | _, result => result

/-- The storage and the place of the element at the end of a path of indices. Every index is
checked; the element itself is not looked into. -/
def Heap.walk (h : Heap) (id : StorageId) : List Int → Except ValueFault (StorageId × Int)
  | [] => .error (.notIndexable .array)
  | [last] => do
    let _ ← h.read id last
    return (id, last)
  | index :: rest => do
    match ← h.read id index with
    | .array inner => h.walk inner rest
    | v => .error (.notIndexable v.kind)

/-- Binds a name as what it is declared, with the kind of the declared type if there is one. -/
def Frames.introduce (fs : Frames) (frame : FrameId) (name : String) (declared : Option Ty)
    (v : Value) (role : Role) : Frames :=
  let fs :=
    match role with
    | .constant => fs.defineConst frame name v
    | _ => fs.define frame name v
  match declared with
  | some t => fs.setKind frame name t.kind
  | none => fs

namespace Machine

/-- The text of the type a slot expects: that of its content, if that is of the slot's kind. -/
def slotLabel (m : Machine) (slot : Kind) (current : Value) : String :=
  if current.kind = slot then m.typeLabel current else slot.label

/-- Renews the symbol-table entry of the declaration a name stands for. -/
def refresh (m : Machine) (x : Variable) : Machine :=
  match m.frames.symbol? x.owner x.name, m.frames.value? x.owner x.name with
  | some entry, some v => { m with symbols := m.symbols.update entry (m.heap.text v) }
  | _, _ => m

end Machine

namespace Eval

/-- The content of the variable a name stands for. -/
def lookup (name : String) (frame : FrameId) (pos : Position) : Eval Value := do
  require ((← get).frames.value? frame name) (.name (.undeclared name)) pos

/-- The frame that binds a name which may be assigned to. -/
def writableOwner (name : String) (frame : FrameId) (pos : Position) : Eval FrameId := do
  let fs := (← get).frames
  let owner ← require (fs.resolve frame name) (.name (.assignUndeclared name)) pos
  if fs.isConst owner name then fault (.name (.assignConstant name)) pos
  return owner

/-- The variable a pointer designates. A pointer into a frame that is gone ends the run. -/
def follow (label : String) (v : Value) (pos : Position) : Eval Variable := do
  match v with
  | .pointer frame name =>
    if (← get).frames.hasLocal frame name then return ⟨frame, name⟩
    else abort (.danglingPointer name) pos
  | .nil => fault .nilPointer pos
  | v => fault (.notPointer label v.kind) pos

/-- The storage of the array a variable holds, and the variable that holds it. A pointer to an
array is followed once. -/
def arrayBehind (x : Variable) (pos : Position) : Eval (StorageId × Variable) := do
  match ← lookup x.name x.owner pos with
  | .array id => return (id, x)
  | .pointer frame name =>
    let y ← follow x.name (.pointer frame name) pos
    match ← lookup y.name y.owner pos with
    | .array id => return (id, y)
    | v => fault (.value (.notIndexable v.kind)) pos
  | v => fault (.value (.notIndexable v.kind)) pos

/-- The place of an element. -/
def element (x : Variable) (indices : List Int) (pos : Position) : Eval Place := do
  let (id, holder) ← arrayBehind x pos
  let (id, last) ← lift ((← get).heap.walk id indices) pos
  return .element id last holder

/-- The content of a place. -/
def read (p : Place) (pos : Position) : Eval Value := do
  match p with
  | .var x => lookup x.name x.owner pos
  | .element id index _ => lift ((← get).heap.read id index) pos

/-- The kind an assignment to a place has to keep. -/
def slotKind (p : Place) (current : Value) : Eval Kind := do
  let m ← get
  match p with
  | .var x => return (m.frames.kind? x.owner x.name).getD current.kind
  | .element id _ _ => return (m.heap.get id).elem.kind

/-- Sets a variable. -/
def store (x : Variable) (v : Value) (pos : Position) : Eval Unit := do
  let owner ← require ((← get).frames.resolve x.owner x.name) (.name (.assignUndeclared x.name)) pos
  note (.assigned owner x.name) fun m =>
    { m with frames := (m.frames.assign x.owner x.name v).2 }.refresh x

/-- Refuses to put an array inside itself. -/
def checkAcyclic (storage : StorageId) (v : Value) (holder : Variable) (pos : Position) :
    Eval Unit := do
  match v with
  | .array stored =>
    if stored = storage ∨ (← get).heap.holds stored storage then
      fault (.arrayInsideItself holder.name) pos
  | _ => pure ()

/-- Writes to a place. -/
def write (p : Place) (v : Value) (pos : Position) : Eval Unit := do
  match p with
  | .var x => store x v pos
  | .element id index holder =>
    checkAcyclic id v holder pos
    let i ← lift (((← get).heap.get id).position index) pos
    modify fun m => { m with heap := m.heap.put id i v }.refresh holder

/-- Assigns a value: as the place takes it, or combined with what the place holds. -/
def assignTo (p : Place) (target : String) (op : AssignOp) (v : Value) (pos : Position) :
    Eval Unit := do
  let current ← read p pos
  match op with
  | .plain =>
    let slot ← slotKind p current
    match slot.coerce v with
    | some v => write p v pos
    | none =>
      let m ← get
      fault (.typeMismatch target (m.slotLabel slot current) (m.typeLabel v)) pos
  | .compound op => do
    let v ← lift (current.apply op v) pos
    note .combined id
    write p (current.keepRune v) pos

/-- Adds one to a place, or takes one away. -/
def stepBy (p : Place) (op : StepOp) (pos : Position) : Eval Unit := do
  let one : Int32 := match op with
    | .increment => 1
    | .decrement => -1
  match ← read p pos with
  | .int n => write p (.int (n + one)) pos
  | .rune n => write p (.rune (n + one)) pos
  | v => fault (.stepKind op v.kind) pos

/-- Declares a name in a frame, and records the declaration. The kind and the type label come from
the declared type, and from the value if there is none. -/
def declare (frame : FrameId) (name : String) (declared : Option Ty) (v : Value) (pos : Position)
    (role : Role) : Eval Unit := do
  let m ← get
  let label := declared.elim (m.typeLabel v) Ty.label
  let text := m.heap.text v
  let entry ← onSymbols (·.declare name label text pos)
  note (.declared frame name role) fun m =>
    { m with frames := (m.frames.introduce frame name declared v role).bindSymbol frame name entry }

end Eval

end Treewalk
