/-
# Frames

A frame holds the variables of one block, loop, switch or call while it runs.
Frames form a tree: a name that a frame does not bind is looked up in the
frame around it. A frame that is closed is gone, and its number is never used
again, so a pointer into it can be told from every other pointer.

What a frame knows of its names stands in tables beside each other, for the
values, the kinds, the constants and the entries of the symbol table, and each
lookup goes outward through the frames by itself.

Key definitions: `Frame`, `Frame.define`, `Frames`, `Frames.resolve`,
`Frames.value?`, `Frames.kind?`, `Frames.isConst`, `Frames.symbol?`,
`Frames.assign`, `Frames.openIn`, `Frames.close`, `Frames.forget`.
-/
import Treewalk.Heap
import Treewalk.Table

namespace Treewalk

/-- What can be wrong with the use of a name. -/
inductive NameFault where
  | undeclared (name : String)
  | assignUndeclared (name : String)
  | assignConstant (name : String)
  deriving DecidableEq, Repr

def NameFault.message : NameFault → String
  | undeclared name => s!"undeclared variable: '{name}'"
  | assignUndeclared name => s!"assignment to undeclared variable: '{name}'"
  | assignConstant name => s!"cannot assign to constant '{name}'"

/-- The names of one block, loop, switch or call. What is known of a name stands in several tables,
and a lookup reads the one it is about. -/
structure Frame where
  /-- The frame around it. -/
  parent : Option FrameId
  vars : Names Value
  /-- Those of the names that are constants. -/
  constants : List String
  /-- The kinds that assignments have to keep, also while a variable holds nil. -/
  kinds : Names Kind
  /-- The symbol-table entries of the names declared here. -/
  symbols : Names Nat
  /-- Whether the frame is in use by itself, and not only by frames inside it. -/
  held : Bool
  deriving Inhabited

namespace Frame

/-- A frame that binds nothing yet. -/
def empty (parent : Option FrameId) : Frame := ⟨parent, [], [], [], [], true⟩

def binds (f : Frame) (name : String) : Bool := (f.vars.lookup name).isSome

/-- Binds a variable, in place of any earlier binding. It keeps the kind of its first value. -/
def define (f : Frame) (name : String) (v : Value) : Frame :=
  { f with
    constants := f.constants.filter (· != name)
    kinds := f.kinds.put name v.kind
    vars := f.vars.put name v }

def defineConst (f : Frame) (name : String) (v : Value) : Frame :=
  { f with
    kinds := f.kinds.put name v.kind
    vars := f.vars.put name v
    constants := f.constants.insert name }

/-- Gives a variable a declared kind, for a value that does not tell it. -/
def setKind (f : Frame) (name : String) (kind : Kind) : Frame :=
  if f.binds name then { f with kinds := f.kinds.put name kind } else f

/-- Notes the symbol-table entry of a name. -/
def bindSymbol (f : Frame) (name : String) (entry : Nat) : Frame :=
  { f with symbols := f.symbols.put name entry }

def setValue (f : Frame) (name : String) (v : Value) : Frame :=
  { f with vars := f.vars.put name v }

end Frame

structure Frames where
  /-- The frames by their numbers; those that are gone have left nothing. -/
  frames : Array (Option Frame)
  /-- How many variables have been defined so far. -/
  defined : Nat
  deriving Inhabited

namespace Frames

/-- The number of the frame around all others. -/
def globalId : FrameId := 0

/-- Only the global frame. -/
def initial : Frames := ⟨#[some (.empty none)], 0⟩

def get? (fs : Frames) (id : FrameId) : Option Frame := fs.frames[id]?.join

def isLive (fs : Frames) (id : FrameId) : Bool := (fs.get? id).isSome

def modify (fs : Frames) (id : FrameId) (f : Frame → Frame) : Frames :=
  { fs with frames := fs.frames.modify id (·.map f) }

/-- The number of the next frame to be opened. -/
def nextId (fs : Frames) : FrameId := fs.frames.size

/-- Opens a frame inside another. -/
def openIn (fs : Frames) (parent : FrameId) : Frames :=
  { fs with frames := fs.frames.push (some (.empty (some parent))) }

/-- Ends a frame that no other lies in. -/
def close (fs : Frames) (id : FrameId) : Frames :=
  { fs with frames := fs.frames.setIfInBounds id none }

/-! ### Lookups

A frame lies inside frames of smaller numbers, so there are at most as many of them as its own
number, and a lookup that is given one step more than that ends by itself. -/

/-- Whether a frame itself binds a name. -/
def hasLocal (fs : Frames) (id : FrameId) (name : String) : Bool :=
  (fs.get? id).any (·.binds name)

def resolveIn (fs : Frames) (name : String) : Nat → FrameId → Option FrameId
  | 0, _ => none
  | n + 1, id => do
    let f ← fs.get? id
    if f.binds name then some id else f.parent.bind (fs.resolveIn name n)

/-- The nearest frame that binds a name. -/
def resolve (fs : Frames) (id : FrameId) (name : String) : Option FrameId :=
  fs.resolveIn name (id + 1) id

def valueIn (fs : Frames) (name : String) : Nat → FrameId → Option Value
  | 0, _ => none
  | n + 1, id => do
    let f ← fs.get? id
    match f.vars.lookup name with
    | some v => some v
    | none => f.parent.bind (fs.valueIn name n)

/-- The value of a name, seen from a frame. -/
def value? (fs : Frames) (id : FrameId) (name : String) : Option Value :=
  fs.valueIn name (id + 1) id

def kindIn (fs : Frames) (name : String) : Nat → FrameId → Option Kind
  | 0, _ => none
  | n + 1, id => do
    let f ← fs.get? id
    if f.binds name then f.kinds.lookup name else f.parent.bind (fs.kindIn name n)

/-- The kind that an assignment to a name has to keep. -/
def kind? (fs : Frames) (id : FrameId) (name : String) : Option Kind :=
  fs.kindIn name (id + 1) id

def existsIn (fs : Frames) (name : String) : Nat → FrameId → Bool
  | 0, _ => false
  | n + 1, id => (fs.get? id).any fun f => f.binds name || f.parent.any (fs.existsIn name n)

def exists? (fs : Frames) (id : FrameId) (name : String) : Bool := fs.existsIn name (id + 1) id

def isConstIn (fs : Frames) (name : String) : Nat → FrameId → Bool
  | 0, _ => false
  | n + 1, id => (fs.get? id).any fun f =>
    if f.binds name then f.constants.contains name else f.parent.any (fs.isConstIn name n)

def isConst (fs : Frames) (id : FrameId) (name : String) : Bool := fs.isConstIn name (id + 1) id

def symbolIn (fs : Frames) (name : String) : Nat → FrameId → Option Nat
  | 0, _ => none
  | n + 1, id => do
    let f ← fs.get? id
    if f.binds name then f.symbols.lookup name else f.parent.bind (fs.symbolIn name n)

/-- The symbol-table entry of the declaration a name stands for. -/
def symbol? (fs : Frames) (id : FrameId) (name : String) : Option Nat :=
  fs.symbolIn name (id + 1) id

def assignIn (name : String) (v : Value) : Nat → FrameId → Frames → Except NameFault Unit × Frames
  | 0, _, fs => (.error (.assignUndeclared name), fs)
  | n + 1, id, fs =>
    match fs.get? id with
    | none => (.error (.assignUndeclared name), fs)
    | some f =>
      if f.binds name then (.ok (), fs.modify id (·.setValue name v))
      else
        match f.parent with
        | some parent => assignIn name v n parent fs
        | none => (.error (.assignUndeclared name), fs)

/-- Sets the variable a name stands for, in the nearest frame that binds the name: how that went,
and the frames it leaves. -/
def assign (fs : Frames) (id : FrameId) (name : String) (v : Value) :
    Except NameFault Unit × Frames :=
  assignIn name v (id + 1) id fs

/-- The frames after an assignment, if it can be made. -/
def set (fs : Frames) (id : FrameId) (name : String) (v : Value) : Except NameFault Frames :=
  match fs.assign id name v with
  | (.ok _, fs) => .ok fs
  | (.error e, _) => .error e

/-! ### Changes of a frame -/

def define (fs : Frames) (id : FrameId) (name : String) (v : Value) : Frames :=
  { fs.modify id (·.define name v) with defined := fs.defined + 1 }

def defineConst (fs : Frames) (id : FrameId) (name : String) (v : Value) : Frames :=
  { fs.modify id (·.defineConst name v) with defined := fs.defined + 1 }

def setKind (fs : Frames) (id : FrameId) (name : String) (kind : Kind) : Frames :=
  fs.modify id (·.setKind name kind)

def bindSymbol (fs : Frames) (id : FrameId) (name : String) (entry : Nat) : Frames :=
  fs.modify id (·.bindSymbol name entry)

/-! ### Letting go of a frame -/

/-- The frames around a frame, itself first. -/
def chain (fs : Frames) : Nat → FrameId → List FrameId
  | 0, _ => []
  | n + 1, id =>
    match (fs.get? id).map Frame.parent with
    | none => []
    | some none => [id]
    | some (some parent) => id :: chain fs n parent

def isHeld (fs : Frames) (id : FrameId) : Bool := (fs.get? id).any Frame.held

/-- The frames in use: those held, and those around them. -/
def inUse (fs : Frames) : List FrameId :=
  (List.range fs.frames.size).flatMap fun id =>
    if fs.isHeld id then fs.chain (id + 1) id else []

/-- Lets go of a frame. It is gone unless a frame inside it is still in use, and so are the frames
around it that only it kept. -/
def forget (fs : Frames) (id : FrameId) : Frames :=
  let fs := fs.modify id ({ · with held := false })
  let used := fs.inUse
  { fs with frames := fs.frames.mapIdx fun i f => if used.contains i then f else none }

/-- The type label of a value, with `n` pointers followed. -/
def typeLabelTo (fs : Frames) (h : Heap) : Nat → Value → String
  | _, .array id => (h.get id).type.label
  | n + 1, .pointer frame name =>
    match fs.value? frame name with
    | some v => "*" ++ fs.typeLabelTo h n v
    | none => Kind.label .pointer
  | 0, .pointer _ _ => Kind.label .pointer
  | _, v => v.kind.label

/-- The type of a value as text. That of a pointer is the type of what it designates at present;
a chain of pointers passes no variable twice, unless it closes in itself. -/
def typeLabel (fs : Frames) (h : Heap) (v : Value) : String := fs.typeLabelTo h (fs.defined + 1) v

end Frames

end Treewalk
