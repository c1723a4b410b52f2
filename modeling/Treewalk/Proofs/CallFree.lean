/-
# Expressions without calls

All that an expression can change it changes through the functions it calls.
One without calls looks up names, follows pointers and goes down arrays; it
may report faults, and an array literal makes storages behind those that are
there. Frames, symbols, output and the storages that there are stay as they
were, whatever the outcome.

Which storages are new is said by the list of all storages: that of before
stands at its beginning. Without array literals nothing is new.

Key definitions: `Expr.isCallFree`, `Machine.Undisturbed`, `Eval.ReadOnly`,
`Eval.Calm`.
Key theorems: `Eval.ReadOnly.bind`, `Eval.Calm.bind`, `Eval.calm_raw`,
`Eval.calm_operands`.
-/
import Treewalk.Proofs.Growth

namespace Treewalk

section Trees

variable (literals : Bool)

mutual

/-- Whether there is no call in an expression and, unless `literals` are let in, no array literal. -/
def Expr.isCallFree : Expr → Bool
  | .int .. | .float .. | .str .. | .rune .. | .bool .. | .nil _ | .name .. | .addressOf .. => true
  | .binary _ lhs rhs _ | .logical _ lhs rhs _ => Expr.isCallFree lhs && Expr.isCallFree rhs
  | .unary _ operand _ | .deref operand _ => Expr.isCallFree operand
  | .call .. => false
  | .index _ indices _ => Expr.allCallFree indices
  | .array type elements _ => literals && TypeExpr.isCallFree type && Expr.allCallFree elements
  | .elements items _ => Expr.allCallFree items

def Expr.allCallFree : List Expr → Bool
  | [] => true
  | e :: es => Expr.isCallFree e && Expr.allCallFree es

/-- Whether the sizes in a written type are like that. -/
def TypeExpr.isCallFree : TypeExpr → Bool
  | .int32 | .float32 | .bool | .string | .rune => true
  | .array size elem => Expr.isCallFree size && TypeExpr.isCallFree elem
  | .pointer target => TypeExpr.isCallFree target

end

theorem Expr.allCallFree_eq : ∀ es : List Expr,
    Expr.allCallFree literals es = es.all (Expr.isCallFree literals)
  | [] => rfl
  | e :: es => by rw [Expr.allCallFree, Expr.allCallFree_eq es, List.all_cons]

end Trees

/-- Nothing differs in `m'` but that faults may have been reported and, if `literals` are let in,
storages made. -/
structure Machine.Undisturbed (literals : Bool) (m m' : Machine) : Prop where
  frames : m'.frames = m.frames
  made : m.heap.storages.toList <+: m'.heap.storages.toList
  heap : literals = false → m'.heap = m.heap
  functions : m'.functions = m.functions
  symbols : m'.symbols = m.symbols
  output : m'.output = m.output
  depth : m'.depth = m.depth
  steps : m'.steps = m.steps
  grown : m.Grown m'

namespace Machine.Undisturbed

variable {literals : Bool} {m m' m'' : Machine}

theorem refl (m : Machine) : m.Undisturbed literals m :=
  ⟨rfl, List.prefix_refl _, fun _ => rfl, rfl, rfl, rfl, rfl, rfl, .refl m⟩

theorem trans (h : m.Undisturbed literals m') (h' : m'.Undisturbed literals m'') :
    m.Undisturbed literals m'' where
  frames := h'.frames.trans h.frames
  made := h.made.trans h'.made
  heap hl := (h'.heap hl).trans (h.heap hl)
  functions := h'.functions.trans h.functions
  symbols := h'.symbols.trans h.symbols
  output := h'.output.trans h.output
  depth := h'.depth.trans h.depth
  steps := h'.steps.trans h.steps
  grown := h.grown.trans h'.grown

theorem report (m : Machine) (f : Fault) (pos : Position) :
    m.Undisturbed literals (m.report f pos) :=
  ⟨rfl, List.prefix_refl _, fun _ => rfl, rfl, rfl, rfl, rfl, rfl, (m.adds_report f pos).toGrown⟩

/-- Where literals are let in, storages may be made. -/
theorem onHeap (m : Machine) {heap : Heap} (hl : literals = true)
    (h : m.heap.storages.toList <+: heap.storages.toList) :
    m.Undisturbed literals { m with heap } := by
  have hsame : m.SameRecord { m with heap } := ⟨rfl, rfl, rfl⟩
  refine ⟨rfl, h, fun hn => ?_, rfl, rfl, rfl, rfl, rfl, hsame.adds.toGrown⟩
  rw [hl] at hn
  cases hn

end Machine.Undisturbed

/-! ### New storages -/

namespace Heap

theorem storages_newArray (h : Heap) (s : Storage) :
    h.storages.toList <+: (h.newArray s).2.storages.toList :=
  ⟨[s], by simp [newArray, alloc]⟩

theorem storages_make {step : Heap → Value × Heap}
    (hstep : ∀ h, h.storages.toList <+: (step h).2.storages.toList) :
    ∀ (n : Nat) (made : Array Value) (h : Heap),
      h.storages.toList <+: (make step n made h).2.storages.toList
  | 0, _, _ => List.prefix_refl _
  | n + 1, _, h => (hstep h).trans (storages_make hstep n _ _)

theorem storages_zero : ∀ (t : Ty) (h : Heap), h.storages.toList <+: (zero t h).2.storages.toList
  | .int32, _ | .float32, _ | .bool, _ | .string, _ | .rune, _ | .pointer _, _ => List.prefix_refl _
  | .array size elem, h =>
    (storages_make (storages_zero elem) size #[] h).trans (storages_newArray _ _)

theorem storages_fill {h g : Heap} {elem : Ty} {size : Nat} {items : Array Value} {id : StorageId}
    (hg : h.fill elem size items = .ok (id, g)) : h.storages.toList <+: g.storages.toList := by
  unfold fill at hg
  split at hg
  · cases hg
  · cases hg
    exact (storages_make (storages_zero elem) _ items h).trans (storages_newArray _ _)

end Heap

/-! ### Actions that only look -/

namespace Eval

variable {α β : Type} {literals : Bool} {pos : Position}

/-- The action changes nothing, whatever its outcome. -/
def ReadOnly (x : Eval α) : Prop := ∀ m, (x.run m).machine = m

theorem readOnly_pure {a : α} : (pure a : Eval α).ReadOnly := fun _ => rfl

theorem readOnly_get : (get : Eval Machine).ReadOnly := fun _ => rfl

theorem readOnly_signal {s : Signal} : (signal s : Eval α).ReadOnly := fun _ => rfl

theorem readOnly_fault {f : Fault} : (fault f pos : Eval α).ReadOnly := readOnly_signal

theorem ReadOnly.eq_of_ok {x : Eval α} {m m' : Machine} {a : α} (hx : x.ReadOnly)
    (h : x.run m = .ok a m') : m' = m := by
  have hm := hx m
  rwa [h] at hm

theorem ReadOnly.eq_of_error {x : Eval α} {m m' : Machine} {s : Signal} (hx : x.ReadOnly)
    (h : x.run m = .error s m') : m' = m := by
  have hm := hx m
  rwa [h] at hm

theorem ReadOnly.bind {x : Eval α} {f : α → Eval β} (hx : x.ReadOnly) (hf : ∀ a, (f a).ReadOnly) :
    (x >>= f).ReadOnly := by
  intro m
  cases hr : x.run m with
  | ok a m' =>
    rw [run_bind_of_ok hr, hf a m']
    exact hx.eq_of_ok hr
  | error s m' =>
    rw [run_bind_of_error hr]
    exact hx.eq_of_error hr

theorem readOnly_ite {c : Prop} [Decidable c] {x y : Eval α} (hx : x.ReadOnly) (hy : y.ReadOnly) :
    (if c then x else y).ReadOnly := by
  by_cases h : c
  · rwa [if_pos h]
  · rwa [if_neg h]

theorem readOnly_require {a? : Option α} {f : Fault} : (require a? f pos).ReadOnly := by
  cases a? with
  | some a => exact readOnly_pure
  | none => exact readOnly_fault

theorem readOnly_lift {ε : Type} [Coe ε Fault] {r : Except ε α} : (lift r pos).ReadOnly := by
  cases r with
  | ok a => exact readOnly_pure
  | error e => exact readOnly_fault

theorem readOnly_lookup {name : String} {frame : FrameId} : (lookup name frame pos).ReadOnly :=
  readOnly_get.bind fun _ => readOnly_require

theorem readOnly_writableOwner {name : String} {frame : FrameId} :
    (writableOwner name frame pos).ReadOnly :=
  readOnly_get.bind fun _ => readOnly_require.bind fun _ =>
    readOnly_ite (readOnly_fault.bind fun _ => readOnly_pure) readOnly_pure

theorem readOnly_addressOf {name : String} {frame : FrameId} :
    (addressOf name frame pos).ReadOnly :=
  readOnly_get.bind fun _ => readOnly_require.bind fun _ =>
    readOnly_ite (readOnly_fault.bind fun _ => readOnly_pure) readOnly_pure

theorem readOnly_follow {label : String} {v : Value} : (follow label v pos).ReadOnly := by
  cases v with
  | pointer frame name => exact readOnly_get.bind fun _ => readOnly_ite readOnly_pure readOnly_signal
  | _ => exact readOnly_fault

theorem readOnly_arrayBehind {x : Variable} : (arrayBehind x pos).ReadOnly := by
  refine readOnly_lookup.bind fun v => ?_
  cases v with
  | array id => exact readOnly_pure
  | pointer frame name =>
    refine readOnly_follow.bind fun y => readOnly_lookup.bind fun w => ?_
    cases w with
    | array id => exact readOnly_pure
    | _ => exact readOnly_fault
  | _ => exact readOnly_fault

theorem readOnly_element {x : Variable} {path : List Int} : (element x path pos).ReadOnly :=
  readOnly_arrayBehind.bind fun _ => readOnly_get.bind fun _ => readOnly_lift.bind fun _ =>
    readOnly_pure

theorem readOnly_read {p : Place} : (read p pos).ReadOnly := by
  cases p with
  | var x => exact readOnly_lookup
  | element id index holder => exact readOnly_get.bind fun _ => readOnly_lift

theorem readOnly_arraySize {v : Value} : (arraySize v pos).ReadOnly := by
  cases v with
  | int n => exact readOnly_ite readOnly_fault readOnly_pure
  | _ => exact readOnly_fault

/-! ### Actions that add something at most -/

/-- Whatever its outcome, the action changes nothing but what was reported and, if `literals` are
let in, made. -/
def Calm (literals : Bool) (x : Eval α) : Prop :=
  ∀ m : Machine, m.Undisturbed literals (x.run m).machine

theorem ReadOnly.calm {x : Eval α} (hx : x.ReadOnly) : Calm literals x := by
  intro m
  rw [hx m]
  exact .refl m

theorem calm_pure {a : α} : Calm literals (pure a) := readOnly_pure.calm

theorem calm_fault {f : Fault} : Calm literals (fault f pos : Eval α) := readOnly_fault.calm

theorem Calm.bind {x : Eval α} {f : α → Eval β} (hx : Calm literals x)
    (hf : ∀ a, Calm literals (f a)) : Calm literals (x >>= f) := by
  intro m
  have hm := hx m
  cases hr : x.run m with
  | ok a m' =>
    rw [hr] at hm
    rw [run_bind_of_ok hr]
    exact hm.trans (hf a m')
  | error s m' =>
    rw [hr] at hm
    rw [run_bind_of_error hr]
    exact hm

theorem calm_ite {c : Prop} [Decidable c] {x y : Eval α} (hx : Calm literals x)
    (hy : Calm literals y) : Calm literals (if c then x else y) := by
  by_cases h : c
  · rwa [if_pos h]
  · rwa [if_neg h]

theorem calm_report {f : Fault} : Calm literals (report f pos) := fun m => .report m f pos

theorem calm_onHeap {f : Heap → α × Heap} (hl : literals = true)
    (h : ∀ heap : Heap, heap.storages.toList <+: (f heap).2.storages.toList) :
    Calm literals (onHeap f) := fun m => .onHeap m hl (h m.heap)

theorem Calm.settled {x : Eval Value} (hx : Calm literals x) : Calm literals (settled x) := by
  intro m
  have hm := hx m
  simp only [Eval.settled, orElseReport, handle]
  cases hr : x.run m with
  | ok v m' => rwa [hr] at hm
  | error s m' =>
    rw [hr] at hm
    cases s with
    | fault f pos => exact hm.trans (.report m' f pos)
    | _ => exact hm

theorem readOnly_single {v : Value} : (single pos v).ReadOnly :=
  readOnly_ite readOnly_fault readOnly_pure

theorem Calm.one {x : Eval Value} (hx : Calm literals x) : Calm literals (one pos x) :=
  hx.settled.bind fun _ => readOnly_single.calm

theorem calm_arrayItem {elem : Ty} {v : Value} : Calm literals (arrayItem elem v pos) :=
  calm_ite calm_pure (readOnly_get.calm.bind fun _ => calm_report.bind fun _ => calm_pure)

theorem calm_newArray {size : Nat} {elem : Ty} {items : Array Value} (hl : literals = true) :
    Calm literals (newArray size elem items pos) := by
  intro m
  obtain ⟨id, h, hfill, hrun⟩ := run_newArray size elem items pos m
  rw [hrun]
  have hmade := Heap.storages_fill hfill
  by_cases hs : size < items.size
  · rw [if_pos hs]
    exact (Machine.Undisturbed.report m _ pos).trans (.onHeap (m.report ..) hl hmade)
  · rw [if_neg hs]
    exact .onHeap m hl hmade

theorem calm_zero {t : Ty} (hl : literals = true) : Calm literals (zero t) :=
  calm_onHeap hl (Heap.storages_zero t)

/-! ### The tree -/

variable (ctx : Context)

mutual

theorem calm_raw : ∀ (e : Expr) (frame : FrameId), e.isCallFree literals = true →
    Calm literals (e.raw ctx frame)
  | .int .., _, _ | .float .., _, _ => readOnly_require.calm
  | .str .., _, _ | .rune .., _, _ | .bool .., _, _ | .nil _, _, _ => calm_pure
  | .name .., _, _ => readOnly_lookup.calm
  | .binary op lhs rhs pos, frame, h => by
    obtain ⟨hl, hr⟩ := Bool.and_eq_true_iff.mp h
    exact (calm_raw lhs frame hl).one.bind fun _ => (calm_raw rhs frame hr).one.bind fun _ =>
      readOnly_lift.calm
  | .logical op lhs rhs _, frame, h => by
    obtain ⟨hl, hr⟩ := Bool.and_eq_true_iff.mp h
    refine (calm_raw lhs frame hl).one.bind fun v => calm_ite calm_pure ?_
    exact (calm_raw rhs frame hr).one.bind fun _ => calm_pure
  | .unary op operand _, frame, h => by
    refine (calm_raw operand frame h).one.bind fun v => ?_
    cases op <;> exact calm_pure
  | .addressOf .., _, _ => readOnly_addressOf.calm
  | .deref operand pos, frame, h =>
    (calm_raw operand frame h).one.bind fun _ =>
      (readOnly_follow.bind fun _ => readOnly_lookup).calm
  | .index x indices pos, frame, h =>
    readOnly_get.calm.bind fun _ => readOnly_require.calm.bind fun _ =>
      (calm_path indices frame h).bind fun _ => (readOnly_element.bind fun _ => readOnly_read).calm
  | .array type elements pos, frame, h => by
    obtain ⟨hlt, he⟩ := Bool.and_eq_true_iff.mp h
    obtain ⟨hl, ht⟩ := Bool.and_eq_true_iff.mp hlt
    refine (calm_type type frame ht).bind fun t => ?_
    cases t with
    | array size elem =>
      exact (calm_items hl elem elements frame #[] he).bind fun _ => calm_newArray hl
    | _ => exact calm_fault
  | .elements .., _, _ => calm_fault

theorem calm_operands : ∀ (es : List Expr) (frame : FrameId), Expr.allCallFree literals es = true →
    Calm literals (Expr.operands ctx es frame)
  | [], _, _ => calm_pure
  | e :: es, frame, h => by
    obtain ⟨he, hes⟩ := Bool.and_eq_true_iff.mp h
    exact (calm_raw e frame he).one.bind fun _ => (calm_operands es frame hes).bind fun _ =>
      calm_pure

theorem calm_path : ∀ (es : List Expr) (frame : FrameId), Expr.allCallFree literals es = true →
    Calm literals (Expr.path ctx es frame)
  | [], _, _ => calm_pure
  | e :: es, frame, h => by
    obtain ⟨he, hes⟩ := Bool.and_eq_true_iff.mp h
    exact (calm_raw e frame he).one.bind fun _ => readOnly_lift.calm.bind fun _ =>
      (calm_path es frame hes).bind fun _ => calm_pure

theorem calm_items (hl : literals = true) : ∀ (elem : Ty) (es : List Expr) (frame : FrameId)
    (done : Array Value), Expr.allCallFree literals es = true →
    Calm literals (Expr.items ctx elem es frame done)
  | _, [], _, _, _ => calm_pure
  | elem, e :: es, frame, done, h => by
    obtain ⟨he, hes⟩ := Bool.and_eq_true_iff.mp h
    have hrest : ∀ v, Calm literals (Expr.items ctx elem es frame (done.push v)) :=
      fun v => calm_items hl elem es frame (done.push v) hes
    cases e with
    | elements inner pos =>
      cases elem with
      | array size elem' =>
        exact (calm_items hl elem' inner frame #[] he).bind fun _ => (calm_newArray hl).bind hrest
      | _ => exact calm_report.bind fun _ => (calm_zero hl).bind hrest
    | _ => exact (calm_raw _ frame he).one.bind fun _ => calm_arrayItem.bind hrest

theorem calm_type : ∀ (t : TypeExpr) (frame : FrameId), t.isCallFree literals = true →
    Calm literals (t.eval ctx frame)
  | .int32, _, _ | .float32, _, _ | .bool, _, _ | .string, _, _ | .rune, _, _ => calm_pure
  | .array size elem, frame, h => by
    obtain ⟨hs, he⟩ := Bool.and_eq_true_iff.mp h
    exact (calm_raw size frame hs).one.bind fun _ => readOnly_arraySize.calm.bind fun _ =>
      (calm_type elem frame he).bind fun _ => calm_pure
  | .pointer target, frame, h => (calm_type target frame h).bind fun _ => calm_pure

end

end Eval

end Treewalk
