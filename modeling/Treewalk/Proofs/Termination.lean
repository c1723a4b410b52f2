/-
# A step budget ends every run

Every statement and every round of a loop costs a step, and calls nest up to
a limit. With a budget of steps a run therefore comes to an end whatever its
tree: the rounds of loops are bounded by the steps, and where no step is made,
as in a call from within the size of an array type, the depth of calls is the
bound. The bounds that evaluation has of its own are never reached then.

The counter of steps stays within the budget but for the one step that
exceeds it, and that step is the end of the run (`Eval.Paced`).

Key definitions: `Outcome.Paced`, `Eval.Paced`, `Simulation.pacing`.
Key theorems: `Program.paced`, `Program.finished_of_budget`,
`step_budget_ends_every_run`.
-/
import Treewalk.Proofs.Limits
import Treewalk.Proofs.Recorded
import Treewalk.Proofs.Unfolding

namespace Treewalk

/-- How many steps have been made when a signal is raised: at most `n`, or one more if that is what
the signal is about. -/
def Signal.Paced (n : Nat) (m : Machine) : Signal → Prop
  | .abort (.stepBudget k) _ => k = n ∧ m.steps = n + 1
  | _ => m.steps ≤ n

theorem Signal.paced_iff {n : Nat} {m : Machine} {s : Signal} (h : s.isLimit = false) :
    s.Paced n m ↔ m.steps ≤ n := by
  cases s with
  | abort a pos =>
    cases a with
    | stepBudget k => cases h
    | _ => rfl
  | _ => rfl

/-- At most `n` steps have been made; or one more, and the run ends there. -/
def Outcome.Paced {α : Type} (n : Nat) : Outcome α → Prop
  | .ok _ m => m.steps ≤ n
  | .error s m => s.Paced n m

theorem Outcome.paced_iff {α : Type} {n : Nat} {r : Outcome α} (h : r.Ordinary) :
    r.Paced n ↔ r.machine.steps ≤ n := by
  cases r with
  | ok a m => rfl
  | error s m => exact Signal.paced_iff (h s m rfl)

/-- An action within a budget of `n` steps. -/
def Eval.Paced {α : Type} (n : Nat) (x : Eval α) : Prop :=
  ∀ m : Machine, m.steps ≤ n → (x.run m).Paced n

namespace Eval

variable {α β : Type} {n : Nat} {x : Eval α}

theorem Quiet.paced (h : x.Quiet) : x.Paced n := by
  intro m hm
  rw [Outcome.paced_iff (h.ordinary m), (h.adds m).steps]
  exact hm

theorem Paced.bind {f : α → Eval β} (h : x.Paced n) (hf : ∀ a, (f a).Paced n) :
    (x >>= f).Paced n := by
  intro m hm
  have hx := h m hm
  cases hr : x.run m with
  | ok a m' =>
    rw [hr] at hx
    rw [run_bind_of_ok hr]
    exact hf a m' hx
  | error s m' =>
    rw [hr] at hx
    rw [run_bind_of_error hr]
    exact hx

theorem Paced.handle {next : Outcome α → Outcome β} (hn : Outcome.Lets next) (h : x.Paced n) :
    (x.handle next).Paced n := by
  intro m hm
  have hx := h m hm
  have hrun : (x.handle next).run m = next (x.run m) := rfl
  rw [hrun]
  by_cases ho : (x.run m).Ordinary
  · rw [Outcome.paced_iff ho] at hx
    rw [Outcome.paced_iff (hn.ordinary ho), (hn.adds ho).steps]
    exact hx
  · cases hr : x.run m with
    | ok a m' => rw [hr] at ho; exact absurd Outcome.ordinary_ok ho
    | error s m' =>
      rw [hr] at ho hx
      have hs : s.isLimit = true := by
        rw [← Bool.not_eq_false]
        exact fun hs => ho (Outcome.ordinary_error hs)
      rw [hn.limit hs]
      exact hx

theorem Paced.bracket {opened : List FrameId} {before after : Machine → Machine}
    (hb : ∀ m : Machine, m.SameRecord (before m)) (ha : ∀ m : Machine, m.SameRecord (after m))
    (h : x.Paced n) : (bracket opened before after x).Paced n := by
  intro m hm
  have hx := h (before m) (by rw [(hb m).steps]; exact hm)
  rw [run_bracket]
  cases hr : x.run (before m) with
  | ok a m' =>
    rw [hr] at hx
    show (after m').steps ≤ n
    rw [(ha m').steps]
    exact hx
  | error s m' =>
    rw [hr] at hx
    have hsteps : s.Paced n (after m') ↔ s.Paced n m' := by
      unfold Signal.Paced
      rw [(ha m').steps]
    exact hsteps.mpr hx

theorem paced_tick {limits : Limits} (hmax : limits.maxSteps = some n) (pos : Position) :
    (tick limits pos).Paced n := by
  intro m hm
  rcases Nat.lt_or_eq_of_le hm with hlt | heq
  · have hroom : ∀ max, limits.maxSteps = some max → m.steps < max := fun max h => by
      rw [hmax] at h
      cases h
      exact hlt
    rw [run_tick pos m hroom]
    exact hlt
  · rw [run_tick_spent pos m hmax (Nat.le_of_eq heq.symm)]
    exact ⟨rfl, congrArg (· + 1) heq⟩

theorem Paced.deeper {limits : Limits} {pos : Position} (h : x.Paced n) :
    (deeper limits pos x).Paced n := by
  intro m hm
  rcases Nat.lt_or_ge m.depth limits.maxDepth with hd | hd
  · rw [run_deeper pos x hd]
    exact h m hm
  · rw [run_deeper_full pos x hd]
    exact hm

end Eval

/-- Being within a budget, as a simulation that looks at its first side only. -/
def Simulation.pacing {limits : Limits} {n : Nat} (hmax : limits.maxSteps = some n) :
    Simulation limits limits where
  Rel x _ := x.Paced n
  quiet h := h.paced
  bind h hf := h.bind hf
  handle hn h := h.handle hn
  bracket hb ha _ h := h.bracket hb ha
  tick := Eval.paced_tick hmax
  deeper _ h := h.deeper
  exhausted := fun _ hm => hm
  cut _ := fun _ hm => hm

section Runs

variable {config : Config} {p : Program} {n : Nat}

/-- **A program stays within its budget.** -/
theorem Program.paced (hn : config.limits.maxSteps = some n) (rounds levels : Nat) :
    (Eval.program (.ofLevels config rounds levels) p).Paced n :=
  Simulation.program (Simulation.ofLevels (.pacing hn) rfl rfl rfl (Nat.le_refl rounds)
    (Nat.le_refl levels)) p

/-- With a budget, evaluation does not come to its own bounds. -/
theorem Program.finished_of_budget (hn : config.limits.maxSteps = some n) :
    ((Eval.program config.context p).run .initial).Finished := by
  intro m hr
  have hidle : Machine.Idle config (fun _ => True) .initial := .initial
  have hrests : Discipline.lax.Rests False .initial :=
    Discipline.rests_of_idle (fun _ _ (h : False) => h.elim) trivial trivial hidle
  obtain ⟨hnone, -⟩ := exhausted_steps hrests False.elim hr
  rw [hn] at hnone
  cases hnone

/-- The diagnostics of a run that has not been reported on yet: faults, one and all. -/
theorem Program.errors_of_run (config : Config) (p : Program) :
    ∀ d ∈ ((Eval.program config.context p).run .initial).machine.errors.toList,
      d.kind = .semantic := by
  have hcut : (Eval.program config.context p).Cut config.limits config.limits
      (Eval.program config.context p) :=
    Program.cut (.refl config.limits) rfl p (Nat.le_refl _) (Nat.le_refl _)
  obtain ⟨faults, he, hk⟩ := (hcut.grows .initial).errors
  intro d hd
  refine hk d ?_
  have hinit : Machine.initial.errors.toList = [] := rfl
  rw [hinit, List.nil_append] at he
  rw [← he]
  exact hd

theorem Outcome.last_steps (r : Outcome Unit) : r.last.steps = r.machine.steps := by
  cases r with
  | ok a m => rfl
  | error s m => cases s <;> rfl

/-- Within a budget of `n` steps the counter shows `n` at most, unless the budget ended the run. -/
theorem Outcome.Paced.steps_le {r : Outcome Unit} (h : r.Paced n)
    (hr : ∀ k pos m, r ≠ .error (.abort (.stepBudget k) pos) m) : r.machine.steps ≤ n := by
  cases r with
  | ok a m => exact h
  | error s m =>
    cases s with
    | abort a pos =>
      cases a with
      | stepBudget k => exact absurd rfl (hr k pos m)
      | _ => exact h
    | _ => exact h

/-- What a program goes through has acyclic storages, and so every value it holds unfolds. -/
theorem Program.unfolds_within {q : Machine}
    (hq : (Eval.program config.context p).passes .initial q) :
    q.heap.Acyclic ∧ ∀ v c, q.memory.Holds v c → q.heap.Unfolds v := by
  have hidle : Machine.Idle config (fun _ => True) .initial := .initial
  have hreached : Machine.Reached config (fun _ => True) q := .within ⟨p, []⟩ trivial hidle hq
  have hf := formed_of_reached hreached
  exact ⟨hf.acyclic, fun v c hv => Heap.unfolds hf.acyclic hf.closed (hf.values c v hv)⟩

/-- **A step budget ends every run.** Whatever the tree and the depth allowed, with a budget of `n`
steps a run comes to an end, the same at all bounds of evaluation that are not smaller. It makes at
most `n` steps within the budget; the next one is its end, and what is reported last and as the only
fatal diagnostic then is that budget. The storages it goes through lie in none of their own, so that
following a value comes to an end too. -/
theorem step_budget_ends_every_run (p : Program) (hn : config.limits.maxSteps = some n)
    (hsize : n + 1 < UInt64.size) :
    ∃ r : Outcome Unit, r.Finished ∧ Machine.initial.execute config p = r.last ∧
      (∀ rounds levels, n < rounds → config.limits.maxDepth < levels →
        (Eval.program (.ofLevels config rounds levels) p).run .initial = r) ∧
      r.last.steps < UInt64.size ∧
      ((∀ k pos m, r ≠ .error (.abort (.stepBudget k) pos) m) → r.last.steps ≤ n) ∧
      (∀ k pos m, r = .error (.abort (.stepBudget k) pos) m → k = n ∧ r.last.steps = n + 1 ∧
        ∃ faults, r.last.errors.toList =
            faults ++ [⟨.fatal, (Abort.stepBudget n).message, pos⟩] ∧
          ∀ d ∈ faults, d.kind = .semantic) ∧
      ∀ q, (Eval.program config.context p).passes .initial q →
        q.heap.Acyclic ∧ ∀ v c, q.memory.Holds v c → q.heap.Unfolds v := by
  have hfinished := Program.finished_of_budget (p := p) hn
  have hpaced : ((Eval.program config.context p).run .initial).Paced n :=
    Program.paced hn _ _ .initial (Nat.zero_le n)
  have herrors := Program.errors_of_run config p
  have hsame : ∀ rounds levels, n < rounds → config.limits.maxDepth < levels →
      (Eval.program (.ofLevels config rounds levels) p).run .initial =
        (Eval.program config.context p).run .initial := fun rounds levels hr hl =>
    Program.run_eq_of_finished (by rw [hn]; exact hr) hl hfinished
  refine ⟨(Eval.program config.context p).run .initial, hfinished,
    Machine.execute_eq_last config p _, hsame, ?_⟩
  generalize (Eval.program config.context p).run .initial = r at hpaced herrors
  have hspent : ∀ k pos m, r = .error (.abort (.stepBudget k) pos) m →
      k = n ∧ r.machine.steps = n + 1 := by
    rintro k pos m rfl
    exact hpaced
  rw [Outcome.last_steps]
  refine ⟨?_, hpaced.steps_le, ?_, fun q hq => Program.unfolds_within hq⟩
  · by_cases hr : ∃ k pos m, r = .error (.abort (.stepBudget k) pos) m
    · obtain ⟨k, pos, m, hr⟩ := hr
      rw [(hspent k pos m hr).2]
      exact hsize
    · have hle := hpaced.steps_le fun k pos m h => hr ⟨k, pos, m, h⟩
      omega
  · rintro k pos m rfl
    obtain ⟨rfl, hsteps⟩ := hspent k pos m rfl
    refine ⟨rfl, hsteps, m.errors.toList, ?_, herrors⟩
    simp [Outcome.last, Machine.reportAbort, Machine.record]

end Runs

/-- A program that calls a function with an empty loop for the size of the type of a parameter. -/
def sized : Program :=
  let o := Position.origin
  let size := Expr.call "size" [] o
  ⟨[.func ⟨"size", [], [], [.loop none none none [] o]⟩ o,
    .func ⟨"f", [⟨"a", .array size .int32, o⟩], [], []⟩ o,
    .func ⟨"main", [], [], [.expr (.call "f" [.int "1" o] o) o]⟩ o]⟩

theorem sized_ends_in_a_parameter :
    (∀ rounds levels, 7 < rounds → 10 < levels →
      ((Eval.program (.ofLevels (stepsUpTo 7) rounds levels) sized).run .initial).Finished) ∧
    (Machine.initial.execute (stepsUpTo 7) sized).steps = 8 ∧
    (Machine.initial.execute (stepsUpTo 7) sized).errors.toList =
      [⟨.fatal, (Abort.stepBudget 7).message, .origin⟩] := by
  have hbudget : (stepsUpTo 7).limits.maxSteps = some 7 := rfl
  obtain ⟨r, hfinished, hlast, hsame, -, -, hspent, -⟩ :=
    step_budget_ends_every_run sized hbudget (by decide)
  obtain ⟨m, hm⟩ : ∃ m, r = .error (.abort (.stepBudget 7) .origin) m :=
    ⟨_, (hsame 8 11 (by decide) (by decide)).symm.trans rfl⟩
  obtain ⟨-, hsteps, -⟩ := hspent 7 .origin m hm
  refine ⟨fun rounds levels hr hl => ?_, ?_, by decide +kernel⟩
  · rw [hsame rounds levels hr hl]
    exact hfinished
  · rw [hlast]
    exact hsteps

end Treewalk
