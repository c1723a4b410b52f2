/-
# Quiet actions

Nothing that is done to variables, elements, types and declarations looks at
the limits of a run. Each such action is quiet because its parts are.

Key theorems: `Eval.quiet_write`, `Eval.quiet_assignTo`,
`Eval.quiet_declare`, `Eval.quiet_runBuiltin`, `Eval.quiet_hoistAll`.
-/
import Treewalk.Proofs.Simulation
import Treewalk.Session

namespace Treewalk
namespace Eval

variable {name label : String} {frame : FrameId} {pos : Position} {v : Value} {x : Variable}
  {place : Place}

/-! ### Places -/

theorem quiet_lookup : (lookup name frame pos).Quiet := quiet_get.bind fun _ => quiet_require

theorem quiet_writableOwner : (writableOwner name frame pos).Quiet :=
  quiet_get.bind fun _ => quiet_require.bind fun _ =>
    quiet_ite (quiet_fault.bind fun _ => quiet_pure) quiet_pure

theorem quiet_follow : (follow label v pos).Quiet := by
  unfold follow
  cases v with
  | pointer f x => exact quiet_get.bind fun _ => quiet_ite quiet_pure (quiet_signal rfl)
  | _ => exact quiet_fault

theorem quiet_arrayBehind : (arrayBehind x pos).Quiet := by
  refine quiet_lookup.bind fun v => ?_
  cases v with
  | array id => exact quiet_pure
  | pointer f name =>
    refine quiet_follow.bind fun y => quiet_lookup.bind fun w => ?_
    cases w with
    | array id => exact quiet_pure
    | _ => exact quiet_fault
  | _ => exact quiet_fault

theorem quiet_element {indices : List Int} : (element x indices pos).Quiet := by
  refine quiet_arrayBehind.bind fun _ => quiet_get.bind fun _ => ?_
  exact quiet_lift.bind fun _ => quiet_pure

theorem quiet_read : (read place pos).Quiet := by
  cases place with
  | var x => exact quiet_lookup
  | element id index holder => exact quiet_get.bind fun _ => quiet_lift

theorem quiet_slotKind : (slotKind place v).Quiet := by
  refine quiet_get.bind fun _ => ?_
  cases place <;> exact quiet_pure

theorem quiet_store : (store x v pos).Quiet := by
  refine quiet_get.bind fun _ => quiet_require.bind fun owner =>
    quiet_note (fun m => ?_) (by simp)
  have hset : m.SameRecord { m with frames := (m.frames.assign x.owner x.name v).2 } :=
    ⟨rfl, rfl, rfl⟩
  exact (hset.refresh x).adds

theorem quiet_checkAcyclic {id : StorageId} : (checkAcyclic id v x pos).Quiet := by
  unfold checkAcyclic
  cases v with
  | array stored => exact quiet_get.bind fun _ => quiet_ite quiet_fault quiet_pure
  | _ => exact quiet_pure

theorem quiet_write : (write place v pos).Quiet := by
  cases place with
  | var x => exact quiet_store
  | element id index holder =>
    refine quiet_checkAcyclic.bind fun _ => quiet_get.bind fun _ => quiet_lift.bind fun i => ?_
    refine quiet_modify fun m => ?_
    have hput : m.SameRecord { m with heap := m.heap.put id i v } := ⟨rfl, rfl, rfl⟩
    exact (hput.refresh holder).adds

theorem quiet_assignTo {target : String} {op : AssignOp} :
    (assignTo place target op v pos).Quiet := by
  refine quiet_read.bind fun current => ?_
  cases op with
  | plain =>
    refine quiet_slotKind.bind fun slot => ?_
    cases slot.coerce v with
    | some w => exact quiet_write
    | none => exact quiet_get.bind fun _ => quiet_fault
  | compound op =>
    refine quiet_lift.bind fun _ => ?_
    exact (quiet_note (fun m => .refl m) (by simp)).bind fun _ => quiet_write

theorem quiet_stepBy {op : StepOp} : (stepBy place op pos).Quiet := by
  refine quiet_read.bind fun current => ?_
  cases current with
  | int n => exact quiet_write
  | rune n => exact quiet_write
  | _ => exact quiet_fault

theorem quiet_declare {t : Option Ty} {role : Role} : (declare frame name t v pos role).Quiet := by
  refine quiet_get.bind fun _ => quiet_onSymbols.bind fun _ => ?_
  exact quiet_note (fun _ => Machine.SameRecord.adds ⟨rfl, rfl, rfl⟩) (fun _ h => nomatch h)

theorem quiet_passed {args : List Value} : (note (.passed args) id).Quiet :=
  quiet_note (fun m => .refl m) (fun _ h => nomatch h)

/-! ### Expressions -/

theorem quiet_addressOf : (addressOf name frame pos).Quiet :=
  quiet_get.bind fun _ => quiet_require.bind fun _ =>
    quiet_ite (quiet_fault.bind fun _ => quiet_pure) quiet_pure

theorem quiet_deref : (deref label v pos).Quiet := quiet_follow.bind fun _ => quiet_lookup

theorem quiet_index {indices : List Int} : (index x indices pos).Quiet :=
  quiet_element.bind fun _ => quiet_read

theorem quiet_runBuiltin {b : Builtin} {time : String} {args : List Value} :
    (runBuiltin b time args pos).Quiet := by
  refine quiet_get.bind fun _ => quiet_lift.bind fun r => ?_
  refine (quiet_modify fun m => ?_).bind fun _ => quiet_pure
  exact ⟨⟨⟨r.2.toList, by simp⟩, (Machine.Grown.refl m).errors⟩, rfl⟩

theorem quiet_arraySize : (arraySize v pos).Quiet := by
  unfold arraySize
  cases v with
  | int n => exact quiet_ite quiet_fault quiet_pure
  | _ => exact quiet_fault

theorem quiet_arrayItem {elem : Ty} : (arrayItem elem v pos).Quiet := by
  unfold arrayItem
  refine quiet_ite quiet_pure (quiet_get.bind fun _ => ?_)
  exact quiet_report.bind fun _ => quiet_pure

theorem quiet_arrayOf {size : Nat} {elem : Ty} {items : Array Value} :
    (arrayOf size elem items pos).Quiet := by
  refine quiet_get.bind fun _ => quiet_lift.bind fun (id, heap) => ?_
  refine (quiet_modify (f := ({ · with heap })) fun m => ?_).bind fun _ => quiet_pure
  exact Machine.SameRecord.adds ⟨rfl, rfl, rfl⟩

theorem quiet_newArray {size : Nat} {elem : Ty} {items : Array Value} :
    (newArray size elem items pos).Quiet := by
  unfold newArray
  exact quiet_ite (quiet_report.bind fun _ => quiet_arrayOf) quiet_arrayOf

/-! ### Declarations -/

theorem quiet_typedValue {t : Ty} : (typedValue name t v pos).Quiet := by
  unfold typedValue
  refine quiet_ite quiet_pure (quiet_get.bind fun _ => ?_)
  exact quiet_report.bind fun _ => quiet_onHeap

theorem quiet_firstValue {t : Option Ty} {v? : Option Value} :
    (firstValue name t v? pos).Quiet := by
  cases t with
  | none => cases v? <;> exact quiet_pure
  | some t =>
    cases v? with
    | none => exact quiet_onHeap
    | some v => exact quiet_typedValue

theorem quiet_declareVars {t : Option Ty} : ∀ (xs : List Binder) (vs : List Value),
    (declareVars frame t xs vs).Quiet
  | [], _ => quiet_pure
  | x :: xs, vs => by
    have hrest := quiet_declareVars (t := t) xs vs.tail
    refine quiet_get.bind fun _ => quiet_ite (quiet_report.bind fun _ => hrest) ?_
    exact quiet_firstValue.bind fun _ => quiet_declare.bind fun _ => hrest

theorem quiet_declareShort {x : Binder} : (declareShort frame x v).Quiet := by
  refine quiet_get.bind fun m => ?_
  refine quiet_ite quiet_declare (quiet_ite quiet_report ?_)
  dsimp only
  cases Kind.coerce _ v with
  | some w => exact quiet_store
  | none => exact quiet_report

theorem quiet_declareShorts : ∀ ps : List (Binder × Value),
    (ps.forM fun (x, v) => declareShort frame x v).Quiet
  | [] => quiet_pure
  | _ :: ps => quiet_declareShort.bind fun _ => quiet_declareShorts ps

theorem quiet_declareFunction {d : Declared} : (declareFunction d).Quiet :=
  quiet_onSymbols.bind fun _ => quiet_pure

theorem quiet_hoist {d : Declared} : (hoist d).Quiet := by
  refine quiet_get.bind fun _ => quiet_ite quiet_report ?_
  refine quiet_declareFunction.bind fun _ => quiet_modify fun _ => ?_
  exact Machine.SameRecord.adds ⟨rfl, rfl, rfl⟩

theorem quiet_hoistAll : ∀ (ds : List Declared) (seen : Bool), (hoistAll ds seen).Quiet
  | [], _ => quiet_pure
  | d :: ds, seen => by
    unfold hoistAll
    refine quiet_ite (quiet_ite ?_ (quiet_hoistAll ds true)) ?_
    · exact quiet_report.bind fun _ => quiet_hoistAll ds true
    · exact quiet_hoist.bind fun _ => quiet_hoistAll ds seen

end Eval
end Treewalk
