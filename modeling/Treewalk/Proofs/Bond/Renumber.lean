/-
# Frames with other entries

The frames remember which entry of the symbol table belongs to a name. Nothing
else in them depends on the numbers of entries: with other numbers every
lookup gives the same, and every change of the frames makes the same change.

Key definitions: `Frames.renumber`.
Key theorems: `Frames.local?_renumber`, `Frames.resolve_renumber`,
`Frames.symbol?_renumber`, `Frames.typeLabel_renumber`,
`Frames.bindSymbol_renumber`.
-/
import Treewalk.Proofs.Lookup

namespace Treewalk

/-- The frame with the entries of its names under other numbers. -/
def Frame.renumber (σ : Nat → Nat) (f : Frame) : Frame :=
  { f with symbols := f.symbols.map fun e => (e.1, σ e.2) }

namespace Frames

variable (σ : Nat → Nat) (fs : Frames) (id : FrameId) (name : String)

/-- The frames with all entries under other numbers. -/
def renumber : Frames := { fs with frames := fs.frames.map (Option.map (Frame.renumber σ)) }

@[simp] theorem nextId_renumber : (fs.renumber σ).nextId = fs.nextId := Array.size_map

theorem renumber_initial : initial.renumber σ = initial := by
  simp [renumber, initial, Frame.renumber, Frame.empty]

/-! ### Lookups -/

@[simp] theorem get?_renumber : (fs.renumber σ).get? id = (fs.get? id).map (Frame.renumber σ) := by
  simp only [get?, renumber, Array.getElem?_map]
  cases fs.frames[id]? with
  | none => rfl
  | some o => rfl

@[simp] theorem local?_renumber : (fs.renumber σ).local? id name = fs.local? id name := by
  rw [local?, get?_renumber, local?]
  cases fs.get? id with
  | none => rfl
  | some f => rfl

@[simp] theorem hasLocal_renumber : (fs.renumber σ).hasLocal id name = fs.hasLocal id name := by
  rw [hasLocal_eq, local?_renumber, hasLocal_eq]

theorem parent?_renumber : (fs.renumber σ).parent? id = fs.parent? id := by
  rw [parent?, get?_renumber, parent?]
  cases fs.get? id with
  | none => rfl
  | some f => rfl

theorem resolveIn_renumber : ∀ (n : Nat) (id : FrameId),
    (fs.renumber σ).resolveIn name n id = fs.resolveIn name n id
  | 0, _ => rfl
  | n + 1, id => by
    have hrest : (fs.renumber σ).resolveIn name n = fs.resolveIn name n :=
      funext (resolveIn_renumber n)
    rw [walks_resolve.step, walks_resolve.step, hasLocal_renumber, parent?_renumber, hrest]

@[simp] theorem resolve_renumber : (fs.renumber σ).resolve id name = fs.resolve id name :=
  resolveIn_renumber σ fs name _ id

@[simp] theorem slot?_renumber : (fs.renumber σ).slot? id name = fs.slot? id name := by
  simp only [slot?, resolve_renumber, local?_renumber]

@[simp] theorem value?_renumber : (fs.renumber σ).value? id name = fs.value? id name := by
  rw [value?_eq, slot?_renumber, value?_eq]

@[simp] theorem kind?_renumber : (fs.renumber σ).kind? id name = fs.kind? id name := by
  rw [kind?_eq, resolve_renumber, kind?_eq]
  refine congrArg (Option.bind _) (funext fun owner => ?_)
  rw [get?_renumber]
  cases fs.get? owner with
  | none => rfl
  | some f => rfl

@[simp] theorem isConst_renumber : (fs.renumber σ).isConst id name = fs.isConst id name := by
  rw [isConst_eq, slot?_renumber, isConst_eq]

/-- The entry of a name is the same under its other number. -/
@[simp] theorem symbol?_renumber : (fs.renumber σ).symbol? id name = (fs.symbol? id name).map σ := by
  rw [symbol?_eq, symbol?_eq, resolve_renumber]
  cases fs.resolve id name with
  | none => rfl
  | some owner =>
    simp only [Option.bind_some, entryOf?, get?_renumber]
    cases fs.get? owner with
    | none => rfl
    | some f => exact Table.lookup_map σ name f.symbols

theorem typeLabelTo_renumber (h : Heap) : ∀ (n : Nat) (v : Value),
    (fs.renumber σ).typeLabelTo h n v = fs.typeLabelTo h n v
  | 0, v => by cases v <;> rfl
  | n + 1, v => by
    cases v with
    | pointer frame name =>
      unfold typeLabelTo
      rw [value?_renumber]
      cases fs.value? frame name with
      | none => rfl
      | some w => exact congrArg ("*" ++ ·) (typeLabelTo_renumber h n w)
    | _ => rfl

@[simp] theorem typeLabel_renumber (h : Heap) (v : Value) :
    (fs.renumber σ).typeLabel h v = fs.typeLabel h v :=
  typeLabelTo_renumber σ fs h _ v

/-! ### Changes -/

theorem openIn_renumber (parent : FrameId) :
    (fs.renumber σ).openIn parent = (fs.openIn parent).renumber σ := by
  simp only [openIn, renumber, Array.map_push]
  rfl

theorem close_renumber : (fs.renumber σ).close id = (fs.close id).renumber σ := by
  simp only [close, renumber, Array.map_setIfInBounds]
  rfl

/-- A change of one frame that leaves the entries alone, or treats them alike. -/
theorem modify_renumber {f g : Frame → Frame}
    (h : ∀ frame, g (frame.renumber σ) = (f frame).renumber σ) :
    (fs.renumber σ).modify id g = (fs.modify id f).renumber σ := by
  have hframe : ∀ o : Option Frame,
      (o.map (Frame.renumber σ)).map g = (o.map f).map (Frame.renumber σ) := by
    intro o
    cases o with
    | none => rfl
    | some frame => exact congrArg some (h frame)
  have hframes : (fs.renumber σ).frames.modify id (Option.map g) =
      (fs.frames.modify id (Option.map f)).map (Option.map (Frame.renumber σ)) := by
    apply Array.ext_getElem?
    intro i
    rw [renumber, Array.getElem?_modify, Array.getElem?_map, Array.getElem?_map,
      Array.getElem?_modify]
    by_cases hi : id = i
    · rw [if_pos hi, if_pos hi, Option.map_map, Option.map_map]
      exact congrArg (Option.map · fs.frames[i]?) (funext hframe)
    · rw [if_neg hi, if_neg hi]
  exact congrArg (Frames.mk · fs.defined) hframes

theorem setLocal_renumber (v : Value) :
    (fs.renumber σ).setLocal id name v = (fs.setLocal id name v).renumber σ := by
  refine modify_renumber σ fs id fun frame => ?_
  rw [apply_ite (Frame.renumber σ)]
  rfl

theorem bind_renumber (slot : Slot) :
    (fs.renumber σ).bind id name slot = (fs.bind id name slot).renumber σ := by
  have hbind : (fs.renumber σ).modify id (·.bind name slot) =
      (fs.modify id (·.bind name slot)).renumber σ :=
    modify_renumber σ fs id fun _ => rfl
  exact congrArg (fun fs : Frames => { fs with defined := fs.defined + 1 }) hbind

theorem bindSymbol_renumber (entry : Nat) :
    (fs.renumber σ).bindSymbol id name (σ entry) = (fs.bindSymbol id name entry).renumber σ :=
  modify_renumber σ fs id fun frame =>
    congrArg (fun symbols => { frame with symbols }) (Table.map_put σ name entry frame.symbols).symm

end Frames
end Treewalk
