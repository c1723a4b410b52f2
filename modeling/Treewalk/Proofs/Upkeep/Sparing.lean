/-
# What evaluation leaves undeclared

Between the check that a name is free and its declaration, types and values
are evaluated, and evaluation may call functions. All that these declare is in
frames of their own, so the name is still free when it is declared. This is a
discipline itself (`Discipline.sparing`), relative to the memory at the check:
names are declared in later frames only.

Key definitions: `Memory.Spares`, `Discipline.sparing`.
Key theorems: `Discipline.Leads.slot_of_sparing`.
-/
import Treewalk.Proofs.Discipline

namespace Treewalk
namespace Memory

/-- What the frames of `base` bind in `μ` they bind in `base`, and constants are the same. -/
structure Spares (base μ : Memory) : Prop where
  made : base.frames.nextId ≤ μ.frames.nextId
  slot : ∀ {f x s}, f < base.frames.nextId → μ.frames.local? f x = some s →
    ∃ s₀, base.frames.local? f x = some s₀ ∧ s₀.constant = s.constant

namespace Spares

variable {base μ : Memory}

theorem refl (μ : Memory) : μ.Spares μ := ⟨Nat.le_refl _, fun _ hs => ⟨_, hs, rfl⟩⟩

theorem set (h : base.Spares μ) (owner : FrameId) (name : String) (v : Value) :
    base.Spares (μ.set owner name v) := by
  refine ⟨by rw [Memory.set, Frames.nextId_setLocal]; exact h.made, fun {f x s} hf hs => ?_⟩
  rw [local?_set] at hs
  by_cases hfx : f = owner ∧ x = name
  · rw [if_pos hfx, Option.map_eq_some_iff] at hs
    obtain ⟨s', hs', rfl⟩ := hs
    rw [hfx.1, hfx.2]
    obtain ⟨s₀, hs₀, hc⟩ := h.slot (hfx.1 ▸ hf) hs'
    exact ⟨s₀, hs₀, hc⟩
  · rw [if_neg hfx] at hs
    exact h.slot hf hs

theorem bind (h : base.Spares μ) {f : FrameId} (hf : base.frames.nextId ≤ f) (name : String)
    (slot : Slot) (entry : Nat) : base.Spares (μ.bind f name slot entry) := by
  refine ⟨by rw [nextId_bind]; exact h.made, fun {g x s} hg hs => ?_⟩
  have hne : ¬ (g = f ∧ x = name) := fun he => Nat.not_lt.mpr hf (he.1 ▸ hg)
  rw [local?_bind, if_neg hne] at hs
  exact h.slot hg hs

theorem openIn (h : base.Spares μ) (parent : FrameId) : base.Spares (μ.openIn parent) := by
  refine ⟨?_, fun hf hs => h.slot hf ?_⟩
  · rw [Memory.openIn, Frames.nextId_openIn]
    exact Nat.le_succ_of_le h.made
  · rwa [Memory.openIn, Frames.local?_openIn] at hs

theorem close (h : base.Spares μ) (id : FrameId) : base.Spares (μ.close id) := by
  refine ⟨by rw [Memory.close, Frames.nextId_close]; exact h.made, fun {f x s} hf hs => ?_⟩
  rw [Memory.close, Frames.local?_close] at hs
  by_cases hfi : f = id
  · rw [if_pos hfi] at hs
    cases hs
  · rw [if_neg hfi] at hs
    exact h.slot hf hs

end Spares
end Memory

namespace Discipline

/-- Nothing is declared in the frames of `base`. -/
def sparing (base : Memory) : Discipline where
  Inv μ := base.Spares μ
  Own _ f _ := base.frames.nextId ≤ f
  own_later _ h := h
  set h _ _ _ _ := ⟨h.set _ _ _, trivial⟩
  bind h _ hf _ _ := ⟨h.bind hf _ _ _, trivial⟩
  put h _ _ _ _ _ := ⟨⟨h.made, h.slot⟩, trivial⟩
  alloc h _ _ _ := ⟨⟨h.made, h.slot⟩, trivial, trivial⟩
  openIn h _ := ⟨h.openIn _, trivial, fun _ _ => trivial⟩
  own_openIn _ h := h.made
  close _ _ h := ⟨h.close _, trivial, fun _ _ => trivial⟩

variable {R : Regime} {m m' : Machine} {frame : FrameId}

theorem sparing_loose (base : Memory) : (sparing base).Loose := {}

theorem ready_sparing (frame : FrameId) (hk : R.Knows m) : (sparing m.memory).Ready R m frame :=
  ⟨.refl _, hk, trivial⟩

/-- What a frame binds after an action that spares the frames it found, it bound before. -/
theorem Leads.slot_of_sparing (h : (sparing m.memory).Leads m m') {x : String} {s : Slot}
    (hs : m'.frames.local? frame x = some s) :
    ∃ s₀, m.frames.local? frame x = some s₀ ∧ s₀.constant = s.constant := by
  have hlive : m.frames.isLive frame = true := by
    rw [← h.settled.live]
    exact Frames.isLive_of_local? hs
  exact h.inv.slot (Frames.lt_nextId_of_isLive hlive) hs

theorem Leads.free_of_sparing (h : (sparing m.memory).Leads m m') {x : String}
    (hx : m.frames.local? frame x = none) : m'.frames.local? frame x = none := by
  cases hs : m'.frames.local? frame x with
  | none => rfl
  | some s =>
    obtain ⟨s₀, hs₀, -⟩ := h.slot_of_sparing hs
    rw [hx] at hs₀
    cases hs₀

end Discipline
end Treewalk
