/-
# Actions keep machines tied

Nothing that is done to variables, elements, types and declarations depends
on the numbers of entries. A declaration has to stand at one of the sites,
with the innermost of the open scopes as its own.

Key theorems: `Bond.coupled_declare`, `Bond.keeps_write`,
`Bond.keeps_assignTo`, `Bond.keeps_declare`, `Bond.keeps_declareVars`,
`Bond.keeps_declareShorts`.
-/
import Treewalk.Proofs.Bond
import Treewalk.Proofs.Upkeep.Place

namespace Treewalk
namespace Bond

open Eval

variable {B : Bond} {ss : List Scope} {name label : String} {frame : FrameId} {pos : Position}
  {v : Value} {x : Variable} {place : Place}

/-- The innermost of the open scopes. -/
abbrev innermost (ss : List Scope) : Scope := ss.headD .global

/-! ### Places -/

theorem keeps_lookup : B.Keeps ss (lookup name frame pos) := by
  refine coupled_get fun m m' h => ?_
  rw [h.value?]
  exact keeps_require

theorem keeps_writableOwner : B.Keeps ss (writableOwner name frame pos) := by
  refine coupled_get fun m m' h => ?_
  simp only [h.resolve, h.isConst]
  exact keeps_require.bind fun _ => Coupled.ifFault keeps_pure

theorem keeps_follow : B.Keeps ss (follow label v pos) := by
  unfold follow
  cases v with
  | pointer f x =>
    refine coupled_get fun m m' h => ?_
    rw [h.hasLocal]
    exact coupled_ite keeps_pure keeps_signal
  | _ => exact keeps_fault

theorem keeps_arrayBehind : B.Keeps ss (arrayBehind x pos) := by
  refine keeps_lookup.bind fun v => ?_
  cases v with
  | array id => exact keeps_pure
  | pointer f name =>
    refine keeps_follow.bind fun y => keeps_lookup.bind fun w => ?_
    cases w with
    | array id => exact keeps_pure
    | _ => exact keeps_fault
  | _ => exact keeps_fault

theorem keeps_element {indices : List Int} : B.Keeps ss (element x indices pos) := by
  refine keeps_arrayBehind.bind fun _ => coupled_get fun m m' h => ?_
  rw [h.heap]
  exact keeps_lift.bind fun _ => keeps_pure

theorem keeps_read : B.Keeps ss (read place pos) := by
  cases place with
  | var x => exact keeps_lookup
  | element id index holder =>
    refine coupled_get fun m m' h => ?_
    rw [h.heap]
    exact keeps_lift

theorem keeps_slotKind : B.Keeps ss (slotKind place v) := by
  refine coupled_get fun m m' h => ?_
  rw [h.heap]
  cases place with
  | var x =>
    simp only [h.kind?]
    exact keeps_pure
  | element id index holder => exact keeps_pure

theorem keeps_store : B.Keeps ss (store x v pos) := by
  refine coupled_get fun m m' h => ?_
  rw [h.resolve]
  refine keeps_require.bind fun owner => keeps_note fun m m' h => ?_
  exact (h.assign x.owner x.name v).refresh x

theorem keeps_checkAcyclic {id : StorageId} : B.Keeps ss (checkAcyclic id v x pos) := by
  unfold checkAcyclic
  cases v with
  | array stored =>
    refine coupled_get fun m m' h => ?_
    rw [h.heap]
    exact coupled_ite keeps_fault keeps_pure
  | _ => exact keeps_pure

theorem keeps_write : B.Keeps ss (write place v pos) := by
  cases place with
  | var x => exact keeps_store
  | element id index holder =>
    refine keeps_checkAcyclic.bind fun _ => coupled_get fun m m' h => ?_
    rw [h.heap]
    refine keeps_lift.bind fun i => keeps_modify fun m m' h => ?_
    rw [h.heap]
    exact (h.onHeap _).refresh holder

theorem keeps_assignTo {target : String} {op : AssignOp} :
    B.Keeps ss (assignTo place target op v pos) := by
  refine keeps_read.bind fun current => ?_
  cases op with
  | plain =>
    refine keeps_slotKind.bind fun slot => ?_
    cases slot.coerce v with
    | some w => exact keeps_write
    | none =>
      refine coupled_get fun m m' h => ?_
      rw [h.slotLabel, h.typeLabel]
      exact keeps_fault
  | compound op => exact keeps_lift.bind fun _ => (keeps_note fun _ _ h => h).bind fun _ => keeps_write

theorem keeps_stepBy {op : StepOp} : B.Keeps ss (stepBy place op pos) := by
  refine keeps_read.bind fun current => ?_
  cases current with
  | int n => exact keeps_write
  | rune n => exact keeps_write
  | _ => exact keeps_fault

/-! ### Expressions -/

theorem keeps_addressOf : B.Keeps ss (addressOf name frame pos) := by
  refine coupled_get fun m m' h => ?_
  simp only [h.resolve, h.isConst]
  exact keeps_require.bind fun _ => Coupled.ifFault keeps_pure

theorem keeps_deref : B.Keeps ss (deref label v pos) := keeps_follow.bind fun _ => keeps_lookup

theorem keeps_index {indices : List Int} : B.Keeps ss (index x indices pos) :=
  keeps_element.bind fun _ => keeps_read

theorem keeps_runBuiltin {b : Builtin} {time : String} {args : List Value} :
    B.Keeps ss (runBuiltin b time args pos) := by
  refine coupled_get fun m m' h => ?_
  rw [h.heap]
  refine keeps_lift.bind fun r => ?_
  have hprint : ∀ m m' : Machine, B.Tied ss m m' →
      B.Tied ss { m with output := m.output ++ r.2 } { m' with output := m'.output ++ r.2 } :=
    fun m m' h => { h with output := congrArg (· ++ r.2) h.output }
  exact (keeps_modify hprint).bind fun _ => keeps_pure

theorem keeps_arraySize : B.Keeps ss (arraySize v pos) := by
  unfold arraySize
  cases v with
  | int n => exact coupled_ite keeps_fault keeps_pure
  | _ => exact keeps_fault

theorem keeps_arrayItem {elem : Ty} : B.Keeps ss (arrayItem elem v pos) := by
  unfold arrayItem
  refine coupled_ite keeps_pure (coupled_get fun m m' h => ?_)
  rw [h.typeLabel]
  exact keeps_report.bind fun _ => keeps_pure

theorem keeps_arrayOf {size : Nat} {elem : Ty} {items : Array Value} :
    B.Keeps ss (arrayOf size elem items pos) := by
  refine coupled_get fun m m' h => ?_
  rw [h.heap]
  exact keeps_lift.bind fun _ => (keeps_modify fun _ _ ht => ht.onHeap _).bind fun _ => keeps_pure

theorem keeps_newArray {size : Nat} {elem : Ty} {items : Array Value} :
    B.Keeps ss (newArray size elem items pos) := by
  unfold newArray
  exact coupled_ite (keeps_report.bind fun _ => keeps_arrayOf) keeps_arrayOf

/-! ### Declarations -/

theorem Tied.declare {m m' : Machine} (h : B.Tied ss m m') (type value : String)
    (hs : B.Site ⟨name, pos, innermost ss⟩) :
    (m'.symbols.declare name type value pos).1 =
        B.number (m.symbols.declare name type value pos).1 ∧
      B.Tied ss { m with symbols := (m.symbols.declare name type value pos).2 }
        { m' with symbols := (m'.symbols.declare name type value pos).2 } := by
  have hsize := (m.symbols.declare_lt name type value pos).1
  have hcurrent : m.symbols.current = innermost ss := by 
    rw [SymbolTable.Raw.current, h.scopes]
    cases ss <;> rfl
  rw [← hcurrent] at hs
  obtain ⟨hnumber, htable⟩ := h.table.declare type value hs
  have hscopes := SymbolTable.scopes_declare m.symbols name type value pos
  refine ⟨hnumber, { h with table := htable, scopes := hscopes.trans h.scopes, below := ?_ }⟩
  exact h.below.mono hsize

/-- A declaration at one of the sites. What follows goes on with the entry from tied machines that
have it; in the second it may have another number. -/
theorem coupled_declare {α : Type} {type value : String} {f g : Nat → Eval α}
    (hs : B.Site ⟨name, pos, innermost ss⟩)
    (h : ∀ entry m m', B.Tied ss m m' → entry < m.symbols.symbols.size →
      (∀ p, (f entry).passes m p → ∃ ss' p', B.Tied ss' p p') ∧
        B.Ends ss ((f entry).run m) ((g (B.number entry)).run m')) :
    B.Coupled ss (onSymbols (·.declare name type value pos) >>= f)
      (onSymbols (·.declare name type value pos) >>= g) := by
  have hthere := fun m : Machine => (m.symbols.declare_lt name type value pos).2
  constructor
  · rintro m m' ht p (hp | ⟨entry, m₁, hr, hp⟩)
    · obtain rfl | rfl := hp
      · exact ⟨ss, m', ht⟩
      · exact ⟨ss, _, (ht.declare type value hs).2⟩
    · cases hr
      exact (h _ _ _ (ht.declare type value hs).2 (hthere m)).1 p hp
  · intro m m' ht
    obtain ⟨hnumber, htied⟩ := ht.declare type value hs
    have hends := (h _ _ _ htied (hthere m)).2
    rw [← hnumber] at hends
    exact hends

theorem Tied.bind {m m' : Machine} (h : B.Tied ss m m') (slot : Slot) {entry : Nat}
    (hentry : entry < m.symbols.symbols.size) :
    B.Tied ss { m with frames := (m.frames.bind frame name slot).bindSymbol frame name entry }
      { m' with frames := (m'.frames.bind frame name slot).bindSymbol frame name (B.number entry) } :=
  h.setFrames (by rw [h.frames, Frames.bind_renumber, Frames.bindSymbol_renumber])
    (h.below.bind frame name slot hentry)

theorem keeps_declare {t : Option Ty} {role : Role} (hs : B.Site ⟨name, pos, innermost ss⟩) :
    B.Keeps ss (declare frame name t v pos role) := by
  rw [declare_eq]
  refine coupled_get fun m m' h => ?_
  rw [h.typeLabel, h.heap]
  exact coupled_declare hs fun _ _ _ ht hentry => tied_note ht (ht.bind _ hentry)

theorem keeps_typedValue {t : Ty} : B.Keeps ss (typedValue name t v pos) := by
  unfold typedValue
  refine coupled_ite keeps_pure (coupled_get fun m m' h => ?_)
  rw [h.typeLabel]
  exact keeps_report.bind fun _ => keeps_onHeap

theorem keeps_firstValue {t : Option Ty} {v? : Option Value} :
    B.Keeps ss (firstValue name t v? pos) := by
  cases t with
  | none => cases v? <;> exact keeps_pure
  | some t =>
    cases v? with
    | none => exact keeps_onHeap
    | some v => exact keeps_typedValue

theorem keeps_declareVars {t : Option Ty} : ∀ (xs : List Binder) (vs : List Value),
    (∀ s ∈ xs.map (Binder.site (innermost ss)), B.Site s) →
    B.Keeps ss (declareVars frame t xs vs)
  | [], _, _ => keeps_pure
  | x :: xs, vs, hs => by
    rw [List.map_cons, List.forall_mem_cons] at hs
    have hrest : B.Keeps ss (declareVars frame t xs vs.tail) := keeps_declareVars xs vs.tail hs.2
    refine coupled_get fun m m' h => ?_
    rw [h.hasLocal]
    refine coupled_ite (keeps_report.bind fun _ => hrest) ?_
    exact keeps_firstValue.bind fun _ => (keeps_declare hs.1).bind fun _ => hrest

theorem keeps_declareShort {x : Binder} (hs : B.Site (x.site (innermost ss))) :
    B.Keeps ss (declareShort frame x v) := by
  refine coupled_get fun m m' h => ?_
  simp only [h.hasLocal, h.isConst, h.value?, h.kind?, h.slotLabel, h.typeLabel]
  refine coupled_ite (keeps_declare hs) (coupled_ite keeps_report ?_)
  cases Kind.coerce _ v with
  | some w => exact keeps_store
  | none => exact keeps_report

theorem keeps_declareShorts : ∀ ps : List (Binder × Value),
    (∀ p ∈ ps, B.Site (p.1.site (innermost ss))) →
    B.Keeps ss (ps.forM fun (x, v) => declareShort frame x v)
  | [], _ => keeps_pure
  | p :: ps, hs => by
    rw [List.forall_mem_cons] at hs
    exact (keeps_declareShort hs.1).bind fun _ => keeps_declareShorts ps hs.2

theorem keeps_declareFunction {d : Declared} (hs : B.Site ⟨d.func.name, d.pos, innermost ss⟩) :
    B.Keeps ss (declareFunction d) :=
  coupled_declare hs fun _ _ _ ht _ => ⟨keeps_pure.passes ht, keeps_pure.ends ht⟩

end Bond
end Treewalk
