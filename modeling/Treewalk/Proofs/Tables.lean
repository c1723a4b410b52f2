/-
# The tables of a frame are in step

A frame has one table for the values of its names, another for the kinds that
assignments have to keep, and a list of those that are constants, and each
change writes to some of them only. Nothing in a frame says that they belong
together. They do: a name has a kind just when it is bound, and only bound
names are constants (`Frame.InStep`). Every change keeps that up, so it holds
in all frames that start from the global one (`Frames.InStep`), and there a
name that is found has a kind.

Key definitions: `Frame.InStep`, `Frames.InStep`.
Key theorems: `Frame.InStep.bind`, `Frame.InStep.setKind`,
`Frames.InStep.modify`, `Frames.InStep.kind?_of_resolve`,
`Frames.InStep.isSome_kind?`.
-/
import Treewalk.Proofs.Lookup

namespace Treewalk

/-! ### One frame -/

/-- The names with a kind are those that are bound, and the constants are among them. -/
structure Frame.InStep (f : Frame) : Prop where
  kinds : ∀ x, (f.kinds.lookup x).isSome = f.binds x
  constants : ∀ x ∈ f.constants, f.binds x = true

namespace Frame.InStep

variable {f : Frame}

theorem empty (parent : Option FrameId) : (Frame.empty parent).InStep :=
  ⟨fun _ => rfl, fun x hx => by simp [Frame.empty] at hx⟩

/-- A definition writes to all tables. -/
theorem bind (h : f.InStep) (name : String) (s : Slot) : (f.bind name s).InStep := by
  refine ⟨fun x => ?_, fun x hx => ?_⟩
  · rw [binds_bind, ← h.kinds]
    exact Table.isSome_lookup_put ..
  · rw [binds_bind, Bool.or_eq_true, beq_iff_eq]
    by_cases hname : x = name
    · exact .inl hname
    · refine .inr (h.constants x ?_)
      cases hs : s.constant <;> simpa [Frame.bind, hs, hname] using hx

/-- A kind is declared for bound names only. -/
theorem setKind (h : f.InStep) (name : String) (kind : Kind) : (f.setKind name kind).InStep := by
  unfold Frame.setKind
  split
  · rename_i hb
    refine ⟨fun x => ?_, h.constants⟩
    have hput : ((f.kinds.put name kind).lookup x).isSome = f.binds x := by
      rw [Table.isSome_lookup_put, h.kinds]
      by_cases hx : x = name
      · simp [hx, hb]
      · simp [hx]
    exact hput
  · exact h

/-- A value takes the place of one that is there. -/
theorem setValue (h : f.InStep) (name : String) (v : Value) :
    Frame.InStep (if f.binds name then f.setValue name v else f) := by
  split
  · rename_i hb
    have hbinds : ∀ x, (f.setValue name v).binds x = f.binds x := by
      intro x
      refine (Table.isSome_lookup_put ..).trans ?_
      by_cases hx : x = name
      · simp [hx, ← hb, Frame.binds]
      · simp [hx, Frame.binds]
    exact ⟨fun x => (h.kinds x).trans (hbinds x).symm,
      fun x hx => (hbinds x).trans (h.constants x hx)⟩
  · exact h

theorem bindSymbol (h : f.InStep) (name : String) (entry : Nat) :
    (f.bindSymbol name entry).InStep :=
  ⟨h.kinds, h.constants⟩

end Frame.InStep

/-! ### All frames -/

namespace Frames

variable {fs : Frames} {f owner : FrameId} {x : String}

/-- The tables of every frame are in step. -/
def InStep (fs : Frames) : Prop := ∀ f fr, fs.get? f = some fr → fr.InStep

namespace InStep

theorem initial : Frames.initial.InStep := by
  intro f fr h
  cases f with
  | zero =>
    cases h
    exact .empty none
  | succ f => simp [get?, Frames.initial] at h

theorem modify (h : fs.InStep) (id : FrameId) {g : Frame → Frame}
    (hg : ∀ fr : Frame, fr.InStep → (g fr).InStep) : (fs.modify id g).InStep := by
  intro f fr hf
  rw [get?_modify] at hf
  split at hf
  · obtain ⟨fr₀, hf₀, rfl⟩ := Option.map_eq_some_iff.mp hf
    exact hg fr₀ (h f fr₀ hf₀)
  · exact h f fr hf

theorem bind (h : fs.InStep) (id : FrameId) (name : String) (s : Slot) :
    (fs.bind id name s).InStep :=
  h.modify id fun _ hfr => hfr.bind name s

theorem setKind (h : fs.InStep) (id : FrameId) (name : String) (kind : Kind) :
    (fs.setKind id name kind).InStep :=
  h.modify id fun _ hfr => hfr.setKind name kind

theorem bindSymbol (h : fs.InStep) (id : FrameId) (name : String) (entry : Nat) :
    (fs.bindSymbol id name entry).InStep :=
  h.modify id fun _ hfr => hfr.bindSymbol name entry

theorem setLocal (h : fs.InStep) (id : FrameId) (name : String) (v : Value) :
    (fs.setLocal id name v).InStep :=
  h.modify id fun _ hfr => hfr.setValue name v

theorem openIn (h : fs.InStep) (parent : FrameId) : (fs.openIn parent).InStep := by
  intro f fr hf
  rw [get?_openIn] at hf
  split at hf
  · cases hf
    exact .empty (some parent)
  · exact h f fr hf

theorem close (h : fs.InStep) (id : FrameId) : (fs.close id).InStep := by
  intro f fr hf
  rw [get?_close] at hf
  split at hf
  · cases hf
  · exact h f fr hf

/-- The kind of a name is that of its slot. -/
theorem kind?_of_resolve {s : Slot} (h : fs.InStep) (hr : fs.resolve f x = some owner)
    (hs : fs.local? owner x = some s) : fs.kind? f x = some s.kind := by
  obtain ⟨fr, hfr, hslot⟩ := Option.bind_eq_some_iff.mp hs
  obtain ⟨v, hv, rfl⟩ := Option.map_eq_some_iff.mp hslot
  have hkind : (fr.kinds.lookup x).isSome = true := by
    rw [(h owner fr hfr).kinds, Frame.binds, hv]
    rfl
  obtain ⟨k, hk⟩ := Option.isSome_iff_exists.mp hkind
  rw [kind?_eq, hr, Option.bind_some, hfr, Option.bind_some, hk]
  rfl

/-- A name has a kind just when some frame binds it. -/
theorem isSome_kind? (h : fs.InStep) : (fs.kind? f x).isSome = (fs.resolve f x).isSome := by
  cases hr : fs.resolve f x with
  | none =>
    rw [kind?_eq, hr]
    rfl
  | some owner =>
    obtain ⟨s, hs⟩ := local?_of_hasLocal (hasLocal_of_resolve hr)
    rw [h.kind?_of_resolve hr hs]
    rfl

end InStep

end Frames

end Treewalk
