/-
# From an earlier memory to a later one

Whatever is executed, frames are only added, a frame that is gone stays gone,
and a name that a frame binds is bound there until the frame is gone. What
becomes of the variable meanwhile is a matter of what is written to it and
declared in its place, so it is left open here (`Memory.Carries`).

Key definitions: `Memory.Ages`, `Memory.Carries`.
Key theorems: `Memory.Carries.trans`, `Memory.Carries.set`,
`Memory.Carries.bind`.
-/
import Treewalk.Proofs.Discipline

namespace Treewalk
namespace Memory

/-- Frames are made in `ν` besides those of `μ`, and those that are gone in `μ` stay gone. -/
structure Ages (μ ν : Memory) : Prop where
  made : μ.frames.nextId ≤ ν.frames.nextId
  live : ∀ {f}, f < μ.frames.nextId → ν.frames.isLive f = true → μ.frames.isLive f = true

namespace Ages

variable {μ ν ξ : Memory}

theorem refl (μ : Memory) : μ.Ages μ := ⟨Nat.le_refl _, fun _ h => h⟩

theorem trans (h : μ.Ages ν) (h' : ν.Ages ξ) : μ.Ages ξ :=
  ⟨Nat.le_trans h.made h'.made, fun hf hl => h.live hf (h'.live (Nat.lt_of_lt_of_le hf h.made) hl)⟩

theorem of_eq (hn : ν.frames.nextId = μ.frames.nextId)
    (hp : ∀ f, ν.frames.parent? f = μ.frames.parent? f) : μ.Ages ν :=
  ⟨Nat.le_of_eq hn.symm, fun _ hl => by rwa [Frames.isLive_of_parent?_eq hp] at hl⟩

theorem set (μ : Memory) (owner : FrameId) (name : String) (v : Value) :
    μ.Ages (μ.set owner name v) :=
  of_eq (Frames.nextId_setLocal ..) fun _ => Frames.parent?_setLocal ..

theorem bind (μ : Memory) (f : FrameId) (name : String) (slot : Slot) (entry : Nat) :
    μ.Ages (μ.bind f name slot entry) :=
  of_eq (nextId_bind ..) fun _ => parent?_bind ..

theorem openIn (μ : Memory) (parent : FrameId) : μ.Ages (μ.openIn parent) := by
  refine ⟨?_, fun hf hl => ?_⟩
  · rw [Memory.openIn, Frames.nextId_openIn]
    exact Nat.le_succ _
  · exact ((Frames.isLive_openIn ..).mp hl).resolve_right (Nat.ne_of_lt hf)

theorem close (μ : Memory) (id : FrameId) : μ.Ages (μ.close id) :=
  ⟨Nat.le_of_eq (Frames.nextId_close ..).symm, fun _ hl => ((Frames.isLive_close ..).mp hl).1⟩

end Ages

/-- What a frame binds in `μ` it binds in `ν` or is gone, and `P` relates the two slots of the
name. -/
structure Carries (P : FrameId → String → Slot → Slot → Prop) (μ ν : Memory) : Prop
    extends Ages μ ν where
  slot : ∀ {f x s}, μ.frames.local? f x = some s → ν.frames.isLive f = true →
    ∃ s', ν.frames.local? f x = some s' ∧ P f x s s'

namespace Carries

variable {P : FrameId → String → Slot → Slot → Prop} {μ ν ξ : Memory}

theorem trans (hP : ∀ {f x s₁ s₂ s₃}, P f x s₁ s₂ → P f x s₂ s₃ → P f x s₁ s₃)
    (h : Carries P μ ν) (h' : Carries P ν ξ) : Carries P μ ξ := by
  refine ⟨h.toAges.trans h'.toAges, fun {f x s} hs hl => ?_⟩
  have hmade := Nat.lt_of_lt_of_le (Frames.lt_nextId_of_isLive (Frames.isLive_of_local? hs)) h.made
  obtain ⟨s₁, hs₁, h₁⟩ := h.slot hs (h'.live hmade hl)
  obtain ⟨s₂, hs₂, h₂⟩ := h'.slot hs₁ hl
  exact ⟨s₂, hs₂, hP h₁ h₂⟩

variable (hP : ∀ f x s, P f x s s)
include hP

theorem of_local?_eq (ha : μ.Ages ν)
    (h : ∀ {f x}, ν.frames.isLive f = true → ν.frames.local? f x = μ.frames.local? f x) :
    Carries P μ ν :=
  ⟨ha, fun hs hl => ⟨_, (h hl).trans hs, hP _ _ _⟩⟩

theorem refl (μ : Memory) : Carries P μ μ := of_local?_eq hP (.refl μ) fun _ => rfl

theorem set {owner : FrameId} {name : String} {v : Value}
    (h : ∀ {s}, μ.frames.local? owner name = some s → P owner name s { s with value := v }) :
    Carries P μ (μ.set owner name v) := by
  refine ⟨.set μ owner name v, fun {f x s} hs _ => ?_⟩
  rw [local?_set]
  by_cases hfx : f = owner ∧ x = name
  · obtain ⟨rfl, rfl⟩ := hfx
    rw [if_pos ⟨rfl, rfl⟩, hs]
    exact ⟨_, rfl, h hs⟩
  · rw [if_neg hfx]
    exact ⟨s, hs, hP f x s⟩

theorem bind {f : FrameId} {name : String} {slot : Slot} (entry : Nat)
    (h : ∀ {s}, μ.frames.local? f name = some s → P f name s slot) :
    Carries P μ (μ.bind f name slot entry) := by
  refine ⟨.bind μ f name slot entry, fun {g x s} hs hl => ?_⟩
  by_cases hgx : g = f ∧ x = name
  · obtain ⟨rfl, rfl⟩ := hgx
    exact ⟨slot, local?_bind_self hl, h hs⟩
  · rw [local?_bind, if_neg hgx]
    exact ⟨s, hs, hP g x s⟩

theorem openIn (μ : Memory) (parent : FrameId) : Carries P μ (μ.openIn parent) :=
  of_local?_eq hP (.openIn μ parent) fun _ => Frames.local?_openIn ..

theorem close (μ : Memory) (id : FrameId) : Carries P μ (μ.close id) := by
  refine of_local?_eq hP (.close μ id) fun hl => ?_
  exact (Frames.local?_close ..).trans (if_neg ((Frames.isLive_close ..).mp hl).2)

theorem of_heap (μ : Memory) (h : Heap) : Carries P μ { μ with heap := h } :=
  of_local?_eq hP ⟨Nat.le_refl _, fun _ h => h⟩ fun _ => rfl

end Carries
end Memory
end Treewalk
