/-
# Declarations, slot by slot

A declaration binds its name to a slot, whichever of the tables of a frame it
writes one after the other. The kind that a later assignment to the name has to
keep is that of the slot.

Key theorems: `Frames.introduce_eq_bind`, `Frames.keptKind_eq`,
`Eval.declare_eq`, `Eval.run_store`.
-/
import Treewalk.Eval.Place
import Treewalk.Proofs.Lookup

namespace Treewalk

/-! ### What is bound -/

namespace Frames

variable {fs : Frames}

theorem define_eq_bind (fs : Frames) (id : FrameId) (name : String) (v : Value) :
    fs.define id name v = fs.bind id name ⟨v, v.kind, false⟩ := rfl

theorem defineConst_eq_bind (fs : Frames) (id : FrameId) (name : String) (v : Value) :
    fs.defineConst id name v = fs.bind id name ⟨v, v.kind, true⟩ := rfl

theorem modify_modify (fs : Frames) (id : FrameId) (g g' : Frame → Frame) :
    (fs.modify id g).modify id g' = fs.modify id (g' ∘ g) := by
  refine congrArg (Frames.mk · fs.defined) (Array.ext_getElem? fun j => ?_)
  simp only [modify, Array.getElem?_modify]
  split
  · rw [Option.map_map]
    exact congrArg (Option.map · _) (funext fun o => Option.map_map ..)
  · rfl

theorem setKind_bind (fs : Frames) (id : FrameId) (name : String) (s : Slot) (kind : Kind) :
    (fs.bind id name s).setKind id name kind = fs.bind id name { s with kind } := by
  have hmodify : (fs.modify id (·.bind name s)).modify id (·.setKind name kind) =
      fs.modify id (·.bind name { s with kind }) := by
    rw [modify_modify]
    exact congrArg (fs.modify id) (funext fun fr => fr.setKind_bind name s kind)
  exact congrArg (fun gs : Frames => { gs with defined := fs.defined + 1 }) hmodify

/-- A declared name is bound with the declared kind, or with that of its value. -/
theorem introduce_eq_bind (fs : Frames) (frame : FrameId) (name : String) (declared : Option Ty)
    (v : Value) (role : Role) :
    fs.introduce frame name declared v role =
      fs.bind frame name ⟨v, (declared.map Ty.kind).getD v.kind, role = .constant⟩ := by
  cases role <;> cases declared <;>
    simp [introduce, define_eq_bind, defineConst_eq_bind, setKind_bind]

/-! ### What is kept -/

/-- The kind that is kept is that of the slot. If a frame has no kind for the name, the slot shows
nil for it, and the kind of the content is kept. -/
theorem keptKind_eq {f owner : FrameId} {name : String} {s : Slot}
    (ho : fs.resolve f name = some owner) (hs : fs.local? owner name = some s) :
    (fs.kind? f name).getD s.value.kind = s.kind ∨
      s.kind = .nil ∧ (fs.kind? f name).getD s.value.kind = s.value.kind := by
  obtain ⟨fr, hfr, hslot⟩ := Option.bind_eq_some_iff.mp hs
  obtain ⟨v, -, rfl⟩ := Option.map_eq_some_iff.mp hslot
  rw [kind?_eq, ho, Option.bind_some, hfr, Option.bind_some]
  cases fr.kinds.lookup name with
  | some k => exact .inl rfl
  | none => exact .inr ⟨rfl, rfl⟩

end Frames

namespace Eval

theorem declare_eq (frame : FrameId) (name : String) (declared : Option Ty) (v : Value)
    (pos : Position) (role : Role) :
    declare frame name declared v pos role = (do
      let m ← get
      let entry ← onSymbols
        (·.declare name (declared.elim (m.typeLabel v) Ty.label) (m.heap.text v) pos)
      note (.declared frame name role) fun m =>
        { m with
          frames := (m.frames.bind frame name
            ⟨v, (declared.map Ty.kind).getD v.kind, role = .constant⟩).bindSymbol frame name
              entry }) := by
  simp only [declare, Frames.introduce_eq_bind]

/-- A variable that its frame binds can be set. -/
theorem run_store {x : Variable} {v : Value} {pos : Position} {m : Machine}
    (hx : m.frames.hasLocal x.owner x.name = true) :
    (store x v pos).run m =
      .ok () ({ m with frames := m.frames.setLocal x.owner x.name v }.refresh x) := by
  have hr := Frames.resolve_of_hasLocal hx
  have hset : m.frames.setLocal x.owner x.name v = (m.frames.assign x.owner x.name v).2 := by
    rw [Frames.assign_of_resolve hr]
  refine (run_bind_of_ok (a := m) rfl).trans ?_
  rw [hr, hset]
  rfl

end Eval

end Treewalk
