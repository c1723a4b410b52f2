/-
# Expressions

Evaluation follows the tree. Operands are evaluated left to right; a fault
inside an expression is reported by that expression, whose value is nil then,
so that what surrounds it goes on. What a call of a function of the program
does is given from outside (`Context.call`): the tree of a body is not part
of the tree of its call.

Key definitions: `Context`, `Expr.raw`, `Expr.eval`, `Expr.operand`,
`TypeExpr.eval`.
Key theorems: `Eval.run_newArray`.
-/
import Treewalk.Eval.Place
import Treewalk.Number.Reading
import Treewalk.Text.Escape

namespace Treewalk

/-- What evaluation is given besides the tree and the machine. -/
structure Context where
  config : Config
  /-- How many rounds a loop may make. -/
  rounds : Nat
  /-- Calls a function on evaluated arguments, at the position of the call. -/
  call : FuncDecl → List Value → Position → Eval Value

/-- Whether the truth of the left operand is that of the whole. -/
def LogicalOp.decidedBy : LogicalOp → Bool → Bool
  | and, b => !b
  | or, b => b

/-- How a faulty pointer expression is named. -/
def Expr.label : Expr → String
  | name x _ => x
  | _ => "expression"

namespace Eval

/-- A pointer to the variable a name stands for. Constants have no address. -/
def addressOf (name : String) (frame : FrameId) (pos : Position) : Eval Value := do
  let fs := (← get).frames
  let owner ← require (fs.resolve frame name) (.name (.undeclared name)) pos
  if fs.isConst owner name then fault (.addressOfConstant name) pos
  return .pointer owner name

/-- The content of the variable a pointer designates. -/
def deref (label : String) (v : Value) (pos : Position) : Eval Value := do
  let x ← follow label v pos
  lookup x.name x.owner pos

/-- The element of an array at a path of indices. -/
def index (x : Variable) (indices : List Int) (pos : Position) : Eval Value := do
  read (← element x indices pos) pos

/-- Runs a built-in function. -/
def runBuiltin (b : Builtin) (time : String) (args : List Value) (pos : Position) :
    Eval Value := do
  let (v, printed) ← lift (b.run time (← get).heap args #[]) pos
  modify fun m => { m with output := m.output ++ printed }
  return v

/-- The size of an array type. -/
def arraySize (v : Value) (pos : Position) : Eval Nat :=
  match v with
  | .int n => if n.toInt < 0 then fault (.value (.negativeSize n)) pos else pure n.toInt.toNat
  | v => fault (.value (.sizeKind v.kind)) pos

/-- An element of an array literal, as its type takes it. One of another type is reported and
kept. -/
def arrayItem (elem : Ty) (v : Value) (pos : Position) : Eval Value := do
  let v := elem.convert v
  unless elem.accepts v do report (.elementType elem.label ((← get).typeLabel v)) pos
  return v

/-- An array with the given first elements. -/
def arrayOf (size : Nat) (elem : Ty) (items : Array Value) (pos : Position) : Eval Value := do
  let (id, heap) ← lift ((← get).heap.fill elem size items) pos
  modify ({ · with heap })
  return .array id

/-- An array of the evaluated elements. Those beyond its size are reported and dropped. -/
def newArray (size : Nat) (elem : Ty) (items : Array Value) (pos : Position) : Eval Value := do
  if size < items.size then report (.value (.tooManyElements size items.size)) pos
  arrayOf size elem (items.take size) pos

theorem run_arrayOf {size : Nat} {elem : Ty} {items : Array Value} {m : Machine} {id : StorageId}
    {h : Heap} (hfill : m.heap.fill elem size items = .ok (id, h)) (pos : Position) :
    (arrayOf size elem items pos).run m = .ok (.array id) { m with heap := h } := by
  refine (run_bind_of_ok (a := m) rfl).trans ?_
  rw [hfill]
  rfl

/-- The elements that are kept are filled up to the size, which finds room for them. -/
theorem run_newArray (size : Nat) (elem : Ty) (items : Array Value) (pos : Position)
    (m : Machine) :
    ∃ id h, m.heap.fill elem size (items.take size) = .ok (id, h) ∧
      (newArray size elem items pos).run m = .ok (.array id)
        { (if size < items.size then m.report (.value (.tooManyElements size items.size)) pos
            else m) with heap := h } := by
  obtain ⟨⟨id, h⟩, hfill⟩ : ∃ made, m.heap.fill elem size (items.take size) = .ok made :=
    ⟨_, m.heap.fill_take elem size items⟩
  refine ⟨id, h, hfill, ?_⟩
  unfold newArray
  by_cases hs : size < items.size
  · simp only [if_pos hs]
    exact (run_bind_of_ok (a := ()) rfl).trans (run_arrayOf (m := m.report ..) hfill pos)
  · simp only [if_neg hs]
    exact run_arrayOf hfill pos

end Eval

open Eval

mutual

/-- The value of an expression, or its fault. -/
def Expr.raw (ctx : Context) : Expr → FrameId → Eval Value
  | .int text pos, _ => require ((readInt32? text).map .int) (.intRange text) pos
  | .float text pos, _ => require ((readFloat32? text).map .float) (.floatText text) pos
  | .str raw _, _ => return .str (String.ofList (decodeEscapes raw.toList))
  | .rune raw _, _ => return .rune (.ofNat (decodeRune raw.toList))
  | .bool value _, _ => return .bool value
  | .nil _, _ => return .nil
  | .name x pos, frame => lookup x frame pos
  | .binary op lhs rhs pos, frame => do
    let v ← one lhs.pos (lhs.raw ctx frame)
    let w ← one rhs.pos (rhs.raw ctx frame)
    lift (v.apply op w) pos
  | .logical op lhs rhs _, frame => do
    let v ← one lhs.pos (lhs.raw ctx frame)
    if op.decidedBy v.truthy then return .bool v.truthy
    let w ← one rhs.pos (rhs.raw ctx frame)
    return .bool w.truthy
  | .unary op operand _, frame => do
    let v ← one operand.pos (operand.raw ctx frame)
    match op with
    | .neg => return v.negate
    | .not => return .bool !v.truthy
  | .addressOf x pos, frame => addressOf x frame pos
  | .deref operand pos, frame => do
    let v ← one operand.pos (operand.raw ctx frame)
    deref operand.label v pos
  | .call callee args pos, frame => do
    match (← get).functions.lookup callee with
    | some func =>
      let vs ← Expr.arguments ctx args frame
      note (.passed vs) id
      ctx.call func vs pos
    | none =>
      let b ← require (Builtin.named? callee) (.undefinedFunction callee) pos
      let vs ← Expr.arguments ctx args frame
      note (.passed vs) id
      runBuiltin b ctx.config.time vs pos
  | .index x indices pos, frame => do
    let owner ← require ((← get).frames.resolve frame x) (.name (.undeclared x)) pos
    let path ← Expr.path ctx indices frame
    index ⟨owner, x⟩ path pos
  | .array type elements pos, frame => do
    match ← type.eval ctx frame with
    | .array size elem =>
      let items ← Expr.items ctx elem elements frame #[]
      newArray size elem items pos
    | _ => fault .elementList pos
  | .elements _ pos, _ => fault .elementList pos

/-- The values of several expressions that each have one. -/
def Expr.operands (ctx : Context) : List Expr → FrameId → Eval (List Value)
  | [], _ => return []
  | e :: es, frame => do
    let v ← one e.pos (e.raw ctx frame)
    let vs ← Expr.operands ctx es frame
    return v :: vs

/-- The arguments of a call. The several results of a lone argument are so many arguments. -/
def Expr.arguments (ctx : Context) : List Expr → FrameId → Eval (List Value)
  | [], _ => return []
  | [e], frame => do
    match ← settled (e.raw ctx frame) with
    | .multi vs => return vs
    | v => return [v]
  | e :: e' :: es, frame => do
    let v ← one e.pos (e.raw ctx frame)
    let vs ← Expr.operands ctx (e' :: es) frame
    return v :: vs

/-- The indices of an element. -/
def Expr.path (ctx : Context) : List Expr → FrameId → Eval (List Int)
  | [], _ => return []
  | e :: es, frame => do
    let v ← one e.pos (e.raw ctx frame)
    let i ← lift v.index e.pos
    let is ← Expr.path ctx es frame
    return i :: is

/-- The elements of an array literal, behind those already evaluated. Nested lists are arrays
where the elements are. -/
def Expr.items (ctx : Context) (elem : Ty) : List Expr → FrameId → Array Value → Eval (Array Value)
  | [], _, done => return done
  | .elements inner pos :: es, frame, done => do
    match elem with
    | .array size elem' =>
      let items ← Expr.items ctx elem' inner frame #[]
      let v ← newArray size elem' items pos
      Expr.items ctx elem es frame (done.push v)
    | elem =>
      report .elementList pos
      let v ← zero elem
      Expr.items ctx elem es frame (done.push v)
  | e :: es, frame, done => do
    let v ← one e.pos (e.raw ctx frame)
    let v ← arrayItem elem v e.pos
    Expr.items ctx elem es frame (done.push v)

/-- A written type with its sizes evaluated. -/
def TypeExpr.eval (ctx : Context) : TypeExpr → FrameId → Eval Ty
  | .int32, _ => return .int32
  | .float32, _ => return .float32
  | .bool, _ => return .bool
  | .string, _ => return .string
  | .rune, _ => return .rune
  | .array size elem, frame => do
    let v ← one size.pos (size.raw ctx frame)
    let n ← arraySize v size.pos
    return .array n (← elem.eval ctx frame)
  | .pointer target, frame => return .pointer (← target.eval ctx frame)

end

/-- The value of an expression; nil after a fault, which is reported. -/
def Expr.eval (ctx : Context) (e : Expr) (frame : FrameId) : Eval Value :=
  settled (e.raw ctx frame)

/-- The value of an expression that has to have one. -/
def Expr.operand (ctx : Context) (e : Expr) (frame : FrameId) : Eval Value :=
  one e.pos (e.raw ctx frame)

end Treewalk
