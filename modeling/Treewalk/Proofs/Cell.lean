/-
# Cells

Values are kept in cells: the variables of the frames, and the storages. Each
elementary change of the memory is told by what the cells hold after it that
they did not hold before, and by the cells it leaves as they were.

Key definitions: `Cell`, `Value.cell?`, `Memory.Holds`, `Memory.AllHold`,
`Memory.SameAt`.
Key theorems: `Memory.holds_set`, `Memory.holds_put`, `Memory.sameAt_set`,
`Memory.sameAt_put`.
-/
import Treewalk.Proofs.Discipline
import Treewalk.Proofs.Lookup
import Treewalk.Proofs.Nesting

namespace Treewalk

/-- Where values are kept: a variable of a frame, or a storage. -/
inductive Cell where
  | slot (frame : FrameId) (name : String)
  | storage (id : StorageId)

/-- What a value refers to. -/
def Value.cell? : Value → Option Cell
  | .array id => some (.storage id)
  | .pointer frame name => some (.slot frame name)
  | _ => none

namespace Memory

/-- The frame or the storage of a cell has been made. -/
def Made (μ : Memory) : Cell → Prop
  | .slot frame _ => frame < μ.frames.nextId
  | .storage id => id < μ.heap.size

/-- The value of a variable, or one of the elements of a storage. -/
def Holds (μ : Memory) (v : Value) : Cell → Prop
  | .slot frame name => ∃ s, μ.frames.local? frame name = some s ∧ s.value = v
  | .storage id => v ∈ (μ.heap.get id).items

/-- All values that are held satisfy `P`. -/
def AllHold (μ : Memory) (P : Value → Prop) : Prop := ∀ c v, μ.Holds v c → P v

/-- A cell has the same content in two memories. -/
def SameAt (μ ν : Memory) : Cell → Prop
  | .slot frame name => ν.frames.local? frame name = μ.frames.local? frame name
  | .storage id => ν.heap.get? id = μ.heap.get? id

variable {μ ν ξ : Memory} {v w : Value} {c : Cell} {f owner : FrameId} {name : String}
  {id : StorageId}

theorem made_of_holds (h : μ.Holds v c) : μ.Made c := by
  cases c with
  | slot frame name =>
    obtain ⟨s, hs, -⟩ := h
    obtain ⟨p, hp⟩ := Frames.parent?_of_hasLocal (Frames.hasLocal_of_local? hs)
    exact Frames.lt_nextId_of_parent? hp
  | storage id => exact Heap.lt_size_of_mem h

theorem holds_of_value? (h : μ.frames.value? f name = some v) :
    ∃ owner, μ.frames.resolve f name = some owner ∧ μ.Holds v (.slot owner name) := by
  obtain ⟨owner, s, ho, hs, hv⟩ := Frames.local?_of_value? h
  exact ⟨owner, ho, s, hs, hv⟩

theorem not_holds_initial : ¬ Holds ⟨.initial, .empty⟩ v c := by
  intro h
  cases c with
  | slot f x =>
    obtain ⟨s, hs, -⟩ := h
    rw [Frames.local?_initial] at hs
    cases hs
  | storage a =>
    have hitems : (Heap.empty.get a).items = #[] := Heap.get_of_size_le (Nat.zero_le a)
    simp [Holds, hitems] at h

theorem SameAt.refl (μ : Memory) (c : Cell) : μ.SameAt μ c := by
  cases c <;> rfl

theorem SameAt.trans (h : μ.SameAt ν c) (h' : ν.SameAt ξ c) : μ.SameAt ξ c := by
  cases c with
  | slot frame name => exact Eq.trans h' h
  | storage id => exact Eq.trans h' h

/-- What a cell holds it holds wherever its content is the same. -/
theorem SameAt.holds (h : μ.SameAt ν c) (hv : ν.Holds v c) : μ.Holds v c := by
  cases c with
  | slot frame name =>
    obtain ⟨s, hs, rfl⟩ := hv
    exact ⟨s, h ▸ hs, rfl⟩
  | storage id =>
    have hget : ν.heap.get id = μ.heap.get id := congrArg (Option.getD · _) h
    rw [Holds, hget] at hv
    exact hv

/-! ### Writing a variable -/

theorem holds_set (h : (μ.set owner name v).Holds w c) :
    (c = .slot owner name ∧ w = v) ∨ μ.Holds w c := by
  cases c with
  | slot f x =>
    obtain ⟨s, hs, rfl⟩ := h
    simp only [set, Frames.local?_setLocal] at hs
    split at hs
    · rename_i hfx
      obtain ⟨t, -, rfl⟩ := Option.map_eq_some_iff.mp hs
      exact .inl ⟨by rw [hfx.1, hfx.2], rfl⟩
    · exact .inr ⟨s, hs, rfl⟩
  | storage id => exact .inr h

theorem sameAt_set (hc : c ≠ .slot owner name) : μ.SameAt (μ.set owner name v) c := by
  cases c with
  | slot f x =>
    have hne : ¬ (f = owner ∧ x = name) := by
      rintro ⟨rfl, rfl⟩
      exact hc rfl
    rw [SameAt, set, Frames.local?_setLocal, if_neg hne]
  | storage id => rfl

/-! ### Declaring a variable -/

theorem holds_bind {slot : Slot} {entry : Nat} (h : (μ.bind f name slot entry).Holds w c) :
    (c = .slot f name ∧ w = slot.value) ∨ μ.Holds w c := by
  cases c with
  | slot g x =>
    obtain ⟨s, hs, rfl⟩ := h
    simp only [bind, Frames.local?_bindSymbol, Frames.local?_bind] at hs
    split at hs
    · rename_i hgx
      obtain ⟨p, -, rfl⟩ := Option.map_eq_some_iff.mp hs
      exact .inl ⟨by rw [hgx.1, hgx.2], rfl⟩
    · exact .inr ⟨s, hs, rfl⟩
  | storage id => exact .inr h

theorem sameAt_bind {slot : Slot} {entry : Nat} (hc : c ≠ .slot f name) :
    μ.SameAt (μ.bind f name slot entry) c := by
  cases c with
  | slot g x =>
    have hne : ¬ (g = f ∧ x = name) := by
      rintro ⟨rfl, rfl⟩
      exact hc rfl
    rw [SameAt, bind, Frames.local?_bindSymbol, Frames.local?_bind, if_neg hne]
  | storage id => rfl

/-! ### Writing an element -/

theorem holds_put {i : Nat} (h : (μ.put id i v).Holds w c) :
    (c = .storage id ∧ w = v) ∨ μ.Holds w c := by
  cases c with
  | slot f x => exact .inr h
  | storage j =>
    rcases Heap.mem_put h with ⟨rfl, hw⟩ | hw
    · exact .inl ⟨rfl, hw⟩
    · exact .inr hw

theorem sameAt_put {i : Nat} (hc : c ≠ .storage id) : μ.SameAt (μ.put id i v) c := by
  cases c with
  | slot f x => rfl
  | storage j =>
    have hne : id ≠ j := fun h => hc (by rw [h])
    rw [SameAt, put, Heap.get?_put, if_neg hne]

/-! ### Making a storage -/

theorem holds_alloc {s : Storage} (h : (μ.alloc s).Holds w c) :
    (c = .storage μ.heap.size ∧ w ∈ s.items) ∨ μ.Holds w c := by
  cases c with
  | slot f x => exact .inr h
  | storage j =>
    rcases Heap.mem_alloc h with ⟨rfl, hw⟩ | hw
    · exact .inl ⟨rfl, hw⟩
    · exact .inr hw

theorem sameAt_alloc {s : Storage} (hc : μ.Made c) : μ.SameAt (μ.alloc s) c := by
  cases c with
  | slot f x => rfl
  | storage j => exact μ.heap.get?_alloc_of_lt s hc

/-! ### Opening and closing a frame -/

theorem sameAt_openIn {parent : FrameId} : μ.SameAt (μ.openIn parent) c := by
  cases c with
  | slot f x => exact Frames.local?_openIn ..
  | storage j => rfl

theorem holds_close (h : (μ.close f).Holds w c) : μ.Holds w c := by
  cases c with
  | slot g x =>
    obtain ⟨s, hs, rfl⟩ := h
    simp only [close, Frames.local?_close] at hs
    split at hs
    · cases hs
    · exact ⟨s, hs, rfl⟩
  | storage j => exact h

theorem sameAt_close (hc : ∀ x, c ≠ .slot f x) : μ.SameAt (μ.close f) c := by
  cases c with
  | slot g x =>
    have hne : g ≠ f := fun h => hc x (by rw [h])
    rw [SameAt, close, Frames.local?_close, if_neg hne]
  | storage j => rfl

/-! ### What all values satisfy -/

namespace AllHold

variable {P P' : Value → Prop}

theorem imp (h : μ.AllHold P) (hP : ∀ v, P v → P' v) : μ.AllHold P' :=
  fun c v hv => hP v (h c v hv)

theorem initial : AllHold ⟨.initial, .empty⟩ P := fun _ _ hv => absurd hv not_holds_initial

theorem set (h : μ.AllHold P) (hv : P v) : (μ.set owner name v).AllHold P := by
  intro c w hw
  rcases holds_set hw with ⟨-, rfl⟩ | hw
  · exact hv
  · exact h c w hw

theorem bind {slot : Slot} {entry : Nat} (h : μ.AllHold P) (hv : P slot.value) :
    (μ.bind f name slot entry).AllHold P := by
  intro c w hw
  rcases holds_bind hw with ⟨-, rfl⟩ | hw
  · exact hv
  · exact h c w hw

theorem put {i : Nat} (h : μ.AllHold P) (hv : P v) : (μ.put id i v).AllHold P := by
  intro c w hw
  rcases holds_put hw with ⟨-, rfl⟩ | hw
  · exact hv
  · exact h c w hw

theorem alloc {s : Storage} (h : μ.AllHold P) (hs : ∀ v ∈ s.items, P v) :
    (μ.alloc s).AllHold P := by
  intro c w hw
  rcases holds_alloc hw with ⟨-, hw⟩ | hw
  · exact hs w hw
  · exact h c w hw

theorem openIn {parent : FrameId} (h : μ.AllHold P) : (μ.openIn parent).AllHold P :=
  fun c v hv => h c v (sameAt_openIn.holds hv)

theorem close (h : μ.AllHold P) : (μ.close f).AllHold P := fun c v hv => h c v (holds_close hv)

end AllHold

end Memory

end Treewalk
