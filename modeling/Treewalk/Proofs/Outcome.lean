/-
# How actions end

An action ends in a result or in a signal, with the machine it leaves. For
each way of putting actions together, when the whole ends in which way is
read off its parts: sequences, frames and scopes, reports, loops and
switches.

Key definitions: `Machine.enter`, `Machine.leave`, `Outcome.after`,
`Outcome.result?`.
Key theorems: `Eval.run_bind_ok`, `Eval.run_bind_error`, `Eval.run_inBlock`,
`Eval.rounds_succ`.
-/
import Treewalk.Eval.Call

namespace Treewalk

namespace Machine

def openIn (m : Machine) (parent : FrameId) : Machine :=
  { m with frames := m.frames.openIn parent }

def close (m : Machine) (id : FrameId) : Machine := { m with frames := m.frames.close id }

/-- The machine in a new scope and a new frame. -/
def enter (m : Machine) (sc : Scope) (parent : FrameId) : Machine :=
  { m with symbols := m.symbols.push sc, frames := m.frames.openIn parent }

/-- The machine back from a scope and a frame. -/
def leave (m : Machine) (id : FrameId) : Machine :=
  { m with symbols := m.symbols.pop, frames := m.frames.close id }

end Machine

/-- An outcome with its machine changed. -/
def Outcome.after {α : Type} (g : Machine → Machine) : Outcome α → Outcome α
  | .ok a m => .ok a (g m)
  | .error s m => .error s (g m)

theorem Outcome.after_congr {α : Type} {g g' : Machine → Machine} {r : Outcome α}
    (h : g r.machine = g' r.machine) : r.after g = r.after g' := by
  cases r with
  | ok a m => exact congrArg (EStateM.Result.ok a) h
  | error s m => exact congrArg (EStateM.Result.error s) h

theorem Outcome.after_eq_error {α : Type} {g : Machine → Machine} {r : Outcome α} {s : Signal}
    {m' : Machine} : r.after g = .error s m' ↔ ∃ m₁, r = .error s m₁ ∧ m' = g m₁ := by
  cases r with
  | ok a m => simp [Outcome.after]
  | error s' m =>
    constructor
    · intro h
      cases h
      exact ⟨m, rfl, rfl⟩
    · rintro ⟨m₁, h, rfl⟩
      cases h
      rfl

theorem Outcome.after_eq_ok {α : Type} {g : Machine → Machine} {r : Outcome α} {a : α}
    {m' : Machine} : r.after g = .ok a m' ↔ ∃ m₁, r = .ok a m₁ ∧ m' = g m₁ := by
  cases r with
  | error s m => simp [Outcome.after]
  | ok b m =>
    constructor
    · intro h
      cases h
      exact ⟨m, rfl, rfl⟩
    · rintro ⟨m₁, h, rfl⟩
      cases h
      rfl

theorem Outcome.after_after {α : Type} (f g : Machine → Machine) (r : Outcome α) :
    (r.after f).after g = r.after (g ∘ f) := by
  cases r <;> rfl

theorem Outcome.after_machine {α : Type} (g : Machine → Machine) (r : Outcome α) :
    (r.after g).machine = g r.machine := by
  cases r <;> rfl

/-- The result of an action that has one. -/
def Outcome.result? {α : Type} : Outcome α → Option α
  | .ok a _ => some a
  | .error _ _ => none

theorem Outcome.eq_ok_of_result? {α : Type} {r : Outcome α} {a : α} (h : r.result? = some a) :
    r = .ok a r.machine := by
  cases r with
  | ok b m =>
    cases h
    rfl
  | error s m => cases h

namespace Eval

variable {α β : Type} {x : Eval α} {f : α → Eval β} {m m' : Machine} {s : Signal}

theorem run_bind_error :
    (x >>= f).run m = .error s m' ↔
      x.run m = .error s m' ∨ ∃ a m₁, x.run m = .ok a m₁ ∧ (f a).run m₁ = .error s m' := by
  cases h : x.run m with
  | ok a m₁ => simp [run_bind_of_ok h, and_assoc]
  | error s' m₁ => simp [run_bind_of_error h]

theorem run_bind_ok {b : β} :
    (x >>= f).run m = .ok b m' ↔ ∃ a m₁, x.run m = .ok a m₁ ∧ (f a).run m₁ = .ok b m' := by
  cases h : x.run m with
  | ok a m₁ => simp [run_bind_of_ok h, and_assoc]
  | error s m₁ => simp [run_bind_of_error h]

theorem run_bind_assoc {γ : Type} (x : Eval α) (f : α → Eval β) (g : β → Eval γ) (m : Machine) :
    (x >>= f >>= g).run m = (x >>= fun a => f a >>= g).run m := by
  cases h : x.run m with
  | ok a m₁ => rw [run_bind_of_ok h, run_bind, run_bind_of_ok h, run_bind]
  | error s m₁ => rw [run_bind_of_error h, run_bind_of_error (run_bind_of_error h)]

/-- What is done with a result alone changes nothing. -/
theorem bind_pure_machine (x : Eval α) (g : α → β) (m : Machine) :
    ((x >>= fun a => pure (g a)).run m).machine = (x.run m).machine := by
  cases h : x.run m with
  | ok a m₁ => rw [run_bind_of_ok h]; rfl
  | error s m₁ => rw [run_bind_of_error h]; rfl

/-! ### Frames and scopes -/

theorem run_bracket (opened : List FrameId) (before after : Machine → Machine) (x : Eval α)
    (m : Machine) :
    (bracket opened before after x).run m = Outcome.after after (x.run (before m)) := by
  simp only [bracket]
  cases x.run (before m) <;> rfl

theorem run_inFrame (parent : FrameId) (x : FrameId → Eval α) (m : Machine) :
    (inFrame parent x).run m =
      Outcome.after (·.close m.frames.nextId) ((x m.frames.nextId).run (m.openIn parent)) :=
  (run_bind_of_ok (a := m) rfl).trans (run_bracket _ _ _ _ _)

theorem run_inBlock (sc : Scope) (parent : FrameId) (x : FrameId → Eval α) (m : Machine) :
    (inScope sc (inFrame parent x)).run m =
      Outcome.after (·.leave m.frames.nextId) ((x m.frames.nextId).run (m.enter sc parent)) := by
  unfold inScope
  rw [run_bracket, run_inFrame, Outcome.after_after]
  rfl

/-! ### Reports, steps and loops -/

theorem goesOn_true {x : Eval Unit} :
    (goesOn x).run m = .ok true m' ↔ x.run m = .ok () m' ∨ x.run m = .error .continued m' := by
  simp only [goesOn, handle]
  cases x.run m with
  | ok a m₁ => simp
  | error s m₁ => cases s <;> simp

theorem goesOn_false {x : Eval Unit} :
    (goesOn x).run m = .ok false m' ↔ x.run m = .error .broke m' := by
  simp only [goesOn, handle]
  cases x.run m with
  | ok a m₁ => simp
  | error s m₁ => cases s <;> simp

theorem untilBreak_ok {x : Eval Unit} :
    (untilBreak x).run m = .ok () m' ↔ x.run m = .ok () m' ∨ x.run m = .error .broke m' := by
  simp only [untilBreak, handle]
  cases x.run m with
  | ok a m₁ => simp
  | error s m₁ => cases s <;> simp

theorem orElseReport_fault {a : α} {fault : Fault} {pos : Position}
    (h : x.run m = .error (.fault fault pos) m') :
    (orElseReport x a).run m = .ok a (m'.report fault pos) := by
  simp only [orElseReport, handle, h]

section Value

variable {y : Eval Value} {v : Value}

theorem run_settled_of_ok (h : y.run m = .ok v m') : (settled y).run m = .ok v m' := by
  simp only [settled, orElseReport, handle, h]

/-- Where one value is asked for, a single one is what is settled. -/
theorem run_one_of_settled (h : (settled y).run m = .ok v m') (hv : v.isMulti = false)
    (pos : Position) : (one pos y).run m = .ok v m' := by
  refine (run_bind_of_ok h).trans ?_
  simp only [single, hv]
  rfl

end Value

theorem returnValue_machine (x : Eval Unit) (m : Machine) :
    ((returnValue x).run m).machine = (x.run m).machine := by
  simp only [returnValue, handle]
  cases x.run m with
  | ok a m₁ => rfl
  | error s m₁ => cases s <;> rfl

theorem tick_ok {limits : Limits} {pos : Position} (h : (tick limits pos).run m = .ok () m') :
    m' = { m with steps := m.steps + 1 } := by
  obtain ⟨_, m₁, ⟨⟩, h⟩ := run_bind_ok.mp h
  cases hmax : limits.maxSteps with
  | none =>
    rw [hmax] at h
    cases h
    rfl
  | some max =>
    rw [hmax] at h
    obtain ⟨_, _, ⟨⟩, h⟩ := run_bind_ok.mp h
    split at h <;> cases h
    rfl

/-- A step, if there is one left. -/
theorem run_tick {limits : Limits} (pos : Position) (m : Machine)
    (h : ∀ max, limits.maxSteps = some max → m.steps < max) :
    (tick limits pos).run m = .ok () { m with steps := m.steps + 1 } := by
  refine (run_bind_of_ok (a := ()) rfl).trans ?_
  cases hmax : limits.maxSteps with
  | none => rfl
  | some max =>
    have hroom : ¬ max < m.steps + 1 := Nat.not_lt.mpr (h max hmax)
    refine (run_bind_of_ok (a := { m with steps := m.steps + 1 }) rfl).trans ?_
    rw [if_neg hroom]
    rfl

/-- A step beyond the last one ends the run. -/
theorem run_tick_spent {limits : Limits} {max : Nat} (pos : Position) (m : Machine)
    (h : limits.maxSteps = some max) (hm : max ≤ m.steps) :
    (tick limits pos).run m =
      .error (.abort (.stepBudget max) pos) { m with steps := m.steps + 1 } := by
  refine (run_bind_of_ok (a := ()) rfl).trans ?_
  rw [h]
  refine (run_bind_of_ok (a := { m with steps := m.steps + 1 }) rfl).trans ?_
  rw [if_pos (Nat.lt_succ_of_le hm)]
  rfl

/-- One round of a loop. -/
theorem rounds_succ {check : Eval Bool} {body post : Eval Unit} {n : Nat} :
    (rounds check body post (n + 1)).run m = .ok () m' ↔
      check.run m = .ok false m' ∨ ∃ m₁, check.run m = .ok true m₁ ∧
        (body.run m₁ = .error .broke m' ∨
          ∃ m₂ m₃, (body.run m₁ = .ok () m₂ ∨ body.run m₁ = .error .continued m₂) ∧
            post.run m₂ = .ok () m₃ ∧ (rounds check body post n).run m₃ = .ok () m') := by
  refine run_bind_ok.trans ⟨?_, ?_⟩
  · rintro ⟨go, m₁, hr, h⟩
    cases go with
    | false => cases h; exact .inl hr
    | true =>
      obtain ⟨on, m₂, hr₂, h⟩ := run_bind_ok.mp h
      cases on with
      | false => cases h; exact .inr ⟨m₁, hr, .inl (goesOn_false.mp hr₂)⟩
      | true =>
        obtain ⟨_, m₃, hr₃, h⟩ := run_bind_ok.mp h
        exact .inr ⟨m₁, hr, .inr ⟨m₂, m₃, goesOn_true.mp hr₂, hr₃, h⟩⟩
  · rintro (hr | ⟨m₁, hr, hr₂ | ⟨m₂, m₃, hr₂, hr₃, h⟩⟩)
    · exact ⟨false, m', hr, rfl⟩
    · exact ⟨true, m₁, hr, run_bind_ok.mpr ⟨false, m', goesOn_false.mpr hr₂, rfl⟩⟩
    · refine ⟨true, m₁, hr, run_bind_ok.mpr ⟨true, m₂, goesOn_true.mpr hr₂, ?_⟩⟩
      exact run_bind_ok.mpr ⟨(), m₃, hr₃, h⟩

end Eval

end Treewalk
