/-
# Limits only cut a run short

Two runs of a program that differ in their limits go the same way until the
tighter limit strikes. From there on the first does nothing at all: the abort
goes up through everything around it, unchanged and without a further effect.
What the first run has printed and reported until then therefore stands at
the beginning of what the second prints and reports.

As a relation between actions (`Eval.Cut`): from the same machine both end in
the same way, or the first ends at a limit in a machine that the second grows
out of. With the same limits on both sides the only such end is that of the
bounds of evaluation, so that a run which has come to its end does not depend
on those bounds.

Key definitions: `Limits.Within`, `Eval.Cut`, `Simulation.cutting`,
`Program.Ends`, `Outcome.last`.
Key theorems: `Program.Ends.unique`, `limits_only_cut_short`.
-/
import Treewalk.Proofs.Simulation.Tree
import Treewalk.Report

namespace Treewalk

/-- The second limits allow at least what the first ones do. -/
structure Limits.Within (limits limits' : Limits) : Prop where
  depth : limits.maxDepth ≤ limits'.maxDepth
  steps : ∀ max', limits'.maxSteps = some max' → ∃ max, limits.maxSteps = some max ∧ max ≤ max'

theorem Limits.Within.refl (limits : Limits) : limits.Within limits :=
  ⟨Nat.le_refl _, fun max h => ⟨max, h, Nat.le_refl _⟩⟩

/-- After `n` steps there is one left, or the last one has been made. -/
theorem Limits.left_or_spent (limits : Limits) (n : Nat) :
    (∀ max, limits.maxSteps = some max → n < max) ∨
      ∃ max, limits.maxSteps = some max ∧ max ≤ n := by
  cases h : limits.maxSteps with
  | none => exact .inl fun max hmax => by cases hmax
  | some max =>
    rcases Nat.lt_or_ge n max with hn | hn
    · exact .inl fun max' hmax' => by cases hmax'; exact hn
    · exact .inr ⟨max, rfl, hn⟩

/-- The signals at which a run under the first limits may stop while one under the second goes on:
the bounds of evaluation and, if the limits differ, the limits. -/
def Signal.Cuts (limits limits' : Limits) (s : Signal) : Prop :=
  s = .exhausted ∨ (limits ≠ limits' ∧ s.isLimit = true)

theorem Signal.Cuts.isLimit {limits limits' : Limits} {s : Signal} (h : s.Cuts limits limits') :
    s.isLimit = true := by
  rcases h with rfl | ⟨-, h⟩
  · rfl
  · exact h

/-- From the same machine both actions end in the same way, or the first is cut short, in a machine
that the second grows out of. -/
structure Eval.Cut {α : Type} (limits limits' : Limits) (x y : Eval α) : Prop where
  grows : ∀ m : Machine, m.Grown (y.run m).machine
  runs : ∀ m, x.run m = y.run m ∨
    ∃ s m₁, x.run m = .error s m₁ ∧ s.Cuts limits limits' ∧ m₁.Grown (y.run m).machine

namespace Eval

variable {α β : Type} {limits limits' : Limits} {x y : Eval α}

theorem Quiet.cut (h : x.Quiet) : x.Cut limits limits' x :=
  ⟨fun m => (h.adds m).toGrown, fun _ => .inl rfl⟩

theorem Cut.bind {f g : α → Eval β} (h : x.Cut limits limits' y)
    (hf : ∀ a, (f a).Cut limits limits' (g a)) : (x >>= f).Cut limits limits' (y >>= g) := by
  have hgrows : ∀ m : Machine, (y.run m).machine.Grown ((y >>= g).run m).machine := by
    intro m
    cases hr : y.run m with
    | ok a m' => rw [run_bind_of_ok hr]; exact (hf a).grows m'
    | error s m' => rw [run_bind_of_error hr]; exact .refl m'
  refine ⟨fun m => (h.grows m).trans (hgrows m), fun m => ?_⟩
  rcases h.runs m with he | ⟨s, m₁, he, hs, hg⟩
  · cases hr : y.run m with
    | ok a m' =>
      rw [run_bind_of_ok (he.trans hr), run_bind_of_ok hr]
      exact (hf a).runs m'
    | error s m' =>
      rw [run_bind_of_error (he.trans hr), run_bind_of_error hr]
      exact .inl rfl
  · exact .inr ⟨s, m₁, run_bind_of_error he, hs, hg.trans (hgrows m)⟩

theorem Cut.handle {next : Outcome α → Outcome β} (hn : Outcome.Lets next)
    (h : x.Cut limits limits' y) : (x.handle next).Cut limits limits' (y.handle next) := by
  have hrun : ∀ (z : Eval α) m, (z.handle next).run m = next (z.run m) := fun _ _ => rfl
  refine ⟨fun m => (h.grows m).trans (hn.grows _), fun m => ?_⟩
  rw [hrun, hrun]
  rcases h.runs m with he | ⟨s, m₁, he, hs, hg⟩
  · exact .inl (by rw [he])
  · refine .inr ⟨s, m₁, ?_, hs, hg.trans (hn.grows _)⟩
    rw [he, hn.limit hs.isLimit]

theorem Cut.bracket {opened : List FrameId} {before after : Machine → Machine}
    (hb : ∀ m : Machine, m.SameRecord (before m)) (ha : ∀ m : Machine, m.SameRecord (after m))
    (h : x.Cut limits limits' y) :
    (bracket opened before after x).Cut limits limits' (bracket opened before after y) := by
  refine ⟨fun m => ?_, fun m => ?_⟩
  · rw [run_bracket, Outcome.after_machine]
    exact (hb m).adds.toGrown.trans ((h.grows _).trans (ha _).adds.toGrown)
  · rw [run_bracket, run_bracket, Outcome.after_machine]
    rcases h.runs (before m) with he | ⟨s, m₁, he, hs, hg⟩
    · exact .inl (by rw [he])
    · refine .inr ⟨s, after m₁, ?_, hs, hg.of_sameRecord (ha _) (ha _)⟩
      rw [he]
      rfl

theorem tick_machine (limits : Limits) (pos : Position) (m : Machine) :
    ((tick limits pos).run m).machine = { m with steps := m.steps + 1 } := by
  rcases limits.left_or_spent m.steps with h | ⟨max, hmax, hm⟩
  · rw [run_tick pos m h]
    rfl
  · rw [run_tick_spent pos m hmax hm]
    rfl

theorem cut_tick (hl : limits.Within limits') (pos : Position) :
    (tick limits pos).Cut limits limits' (tick limits' pos) := by
  have hstep : ∀ m : Machine, m.Grown { m with steps := m.steps + 1 } := fun m =>
    ⟨List.prefix_refl _, (Machine.Grown.refl m).errors⟩
  refine ⟨fun m => by rw [tick_machine]; exact hstep m, fun m => ?_⟩
  by_cases heq : limits = limits'
  · exact .inl (by rw [heq])
  rcases limits.left_or_spent m.steps with h | ⟨max, hmax, hm⟩
  · -- a step that the first allows the second allows too
    have h' : ∀ max, limits'.maxSteps = some max → m.steps < max := fun max' hmax' => by
      obtain ⟨max, hmax, hle⟩ := hl.steps max' hmax'
      exact Nat.lt_of_lt_of_le (h max hmax) hle
    exact .inl (by rw [run_tick pos m h, run_tick pos m h'])
  · refine .inr ⟨_, _, run_tick_spent pos m hmax hm, .inr ⟨heq, rfl⟩, ?_⟩
    rw [tick_machine]
    exact .refl _

theorem run_deeper (pos : Position) (x : Eval α) {m : Machine} (h : m.depth < limits.maxDepth) :
    (deeper limits pos x).run m = x.run m := by
  refine (run_bind_of_ok (a := m) rfl).trans ?_
  rw [if_neg (Nat.not_le.mpr h)]

theorem run_deeper_full (pos : Position) (x : Eval α) {m : Machine} (h : limits.maxDepth ≤ m.depth) :
    (deeper limits pos x).run m = .error (.abort (.callDepth limits.maxDepth) pos) m := by
  refine (run_bind_of_ok (a := m) rfl).trans ?_
  rw [if_pos h]
  rfl

theorem Cut.deeper (hl : limits.Within limits') (pos : Position) (h : x.Cut limits limits' y) :
    (deeper limits pos x).Cut limits limits' (deeper limits' pos y) := by
  have hgrows : ∀ m : Machine, m.Grown ((Eval.deeper limits' pos y).run m).machine := by
    intro m
    rcases Nat.lt_or_ge m.depth limits'.maxDepth with hd | hd
    · rw [run_deeper pos y hd]; exact h.grows m
    · rw [run_deeper_full pos y hd]; exact .refl m
  refine ⟨hgrows, fun m => ?_⟩
  rcases Nat.lt_or_ge m.depth limits.maxDepth with hd | hd
  · rw [run_deeper pos x hd, run_deeper pos y (Nat.lt_of_lt_of_le hd hl.depth)]
    exact h.runs m
  · by_cases heq : limits = limits'
    · subst heq
      exact .inl (by rw [run_deeper_full pos x hd, run_deeper_full pos y hd])
    · exact .inr ⟨_, m, run_deeper_full pos x hd, .inr ⟨heq, rfl⟩, hgrows m⟩

end Eval

/-- Being cut short, as a simulation. -/
def Simulation.cutting {limits limits' : Limits} (hl : limits.Within limits') :
    Simulation limits limits' where
  Rel x y := x.Cut limits limits' y
  quiet h := h.cut
  bind h hf := h.bind hf
  handle hn h := h.handle hn
  bracket hb ha _ h := h.bracket hb ha
  tick := Eval.cut_tick hl
  deeper pos h := h.deeper hl pos
  exhausted := ⟨fun m => .refl m, fun _ => .inl rfl⟩
  cut h := ⟨h.grows, fun m => .inr ⟨.exhausted, m, rfl, .inl rfl, h.grows m⟩⟩

/-! ### Runs -/

/-- Evaluation has not come to its own bounds. -/
def Outcome.Finished {α : Type} (r : Outcome α) : Prop := ∀ m, r ≠ .error .exhausted m

/-- The machine that a program leaves when its run has this outcome: what stopped it is reported. -/
def Outcome.last : Outcome Unit → Machine
  | .error (.abort a pos) m => m.reportAbort a pos
  | .ok _ m | .error _ m => m

/-- The run of a program comes to an end, with this outcome. The bounds of evaluation are there for
it to be a function; any that are not reached will do. -/
def Program.Ends (config : Config) (p : Program) (m : Machine) (r : Outcome Unit) : Prop :=
  r.Finished ∧ ∃ rounds levels, (Eval.program (.ofLevels config rounds levels) p).run m = r

theorem Machine.execute_eq_last (config : Config) (p : Program) (m : Machine) :
    m.execute config p = ((Eval.program config.context p).run m).last := by
  unfold Machine.execute
  cases (Eval.program config.context p).run m with
  | ok a m' => rfl
  | error s m' => cases s <;> rfl

section Runs

variable {config config' : Config} {p : Program} {m : Machine} {r r' : Outcome Unit}

/-- A program under limits and under wider ones. -/
theorem Program.cut (hl : config.limits.Within config'.limits) (ht : config.time = config'.time)
    (p : Program) {n n' k k' : Nat} (hn : n ≤ n') (hk : k ≤ k') :
    (Eval.program (.ofLevels config n k) p).Cut config.limits config'.limits
      (Eval.program (.ofLevels config' n' k') p) :=
  Simulation.program (Simulation.ofLevels (.cutting hl) rfl rfl ht hn hk) p

/-- A run that has come to its end does not depend on the bounds of evaluation. -/
theorem Program.run_eq_of_finished {n n' k k' : Nat} (hn : n ≤ n') (hk : k ≤ k')
    (hr : ((Eval.program (.ofLevels config n k) p).run m).Finished) :
    (Eval.program (.ofLevels config n' k') p).run m =
      (Eval.program (.ofLevels config n k) p).run m := by
  rcases (Program.cut (.refl config.limits) rfl p hn hk).runs m with he | ⟨s, m₁, he, hs, -⟩
  · exact he.symm
  · rcases hs with rfl | ⟨hne, -⟩
    · exact absurd he (hr m₁)
    · exact absurd rfl hne

/-- Both runs at the same bounds. -/
theorem Program.Ends.common (hr : p.Ends config m r) (hr' : p.Ends config' m r') :
    ∃ n k, (Eval.program (.ofLevels config n k) p).run m = r ∧
      (Eval.program (.ofLevels config' n k) p).run m = r' := by
  obtain ⟨hf, n, k, rfl⟩ := hr
  obtain ⟨hf', n', k', rfl⟩ := hr'
  refine ⟨max n n', max k k', ?_, ?_⟩
  · exact Program.run_eq_of_finished (Nat.le_max_left _ _) (Nat.le_max_left _ _) hf
  · exact Program.run_eq_of_finished (Nat.le_max_right _ _) (Nat.le_max_right _ _) hf'

/-- A program ends in one way. -/
theorem Program.Ends.unique (hr : p.Ends config m r) (hr' : p.Ends config m r') : r = r' := by
  obtain ⟨n, k, h, h'⟩ := hr.common hr'
  exact h.symm.trans h'

theorem Program.Ends.execute (hr : p.Ends config m r)
    (hf : ((Eval.program config.context p).run m).Finished) : m.execute config p = r.last := by
  have hends : p.Ends config m ((Eval.program config.context p).run m) := ⟨hf, _, _, rfl⟩
  rw [Machine.execute_eq_last, hends.unique hr]

theorem Outcome.last_grown (r : Outcome Unit) : r.machine.output = r.last.output ∧
    r.machine.errors.toList <+: r.last.errors.toList := by
  cases r with
  | ok a m => exact ⟨rfl, List.prefix_refl _⟩
  | error s m =>
    cases s with
    | abort a pos =>
      refine ⟨rfl, [⟨.fatal, a.message, pos⟩], ?_⟩
      simp [Outcome.last, Outcome.machine, Machine.reportAbort, Machine.record]
    | _ => exact ⟨rfl, List.prefix_refl _⟩

/-- **Limits only cut a run short.** Take two runs of a program that come to an end, under
configurations of which the second allows at least the calls and steps of the first. If the first
does not end at a limit, both leave the same machine. If it does, its output stands at the beginning
of that of the second, and so do its diagnostics but for the last one, which reports the limit. -/
theorem limits_only_cut_short (hl : config.limits.Within config'.limits)
    (ht : config.time = config'.time) (hr : p.Ends config m r) (hr' : p.Ends config' m r') :
    (r.Ordinary → r' = r ∧ Report.ofMachine r'.last = Report.ofMachine r.last) ∧
    (∀ a pos m₁, r = .error (.abort a pos) m₁ → (Signal.abort a pos).isLimit = true →
      r.last.output.toList <+: r'.last.output.toList ∧
      ∃ errors, r.last.errors.toList = errors ++ [⟨.fatal, a.message, pos⟩] ∧
        errors <+: r'.last.errors.toList) ∧
    (((Eval.program config.context p).run m).Finished → m.execute config p = r.last) ∧
    (((Eval.program config'.context p).run m).Finished → m.execute config' p = r'.last) := by
  obtain ⟨n, k, hrun, hrun'⟩ := hr.common hr'
  have hcut := (Program.cut hl ht p (Nat.le_refl n) (Nat.le_refl k)).runs m
  rw [hrun, hrun'] at hcut
  have hgrown : r.machine.Grown r'.machine := by
    rcases hcut with rfl | ⟨s, m₁, rfl, -, hg⟩
    · exact .refl _
    · exact hg
  refine ⟨fun ho => ?_, ?_, hr.execute, hr'.execute⟩
  · have heq : r' = r := by
      rcases hcut with he | ⟨s, m₁, he, hs, -⟩
      · exact he.symm
      · have := ho s m₁ he
        rw [hs.isLimit] at this
        cases this
    exact ⟨heq, by rw [heq]⟩
  · rintro a pos m₁ rfl -
    obtain ⟨ho', he'⟩ := Outcome.last_grown r'
    refine ⟨?_, m₁.errors.toList, ?_, hgrown.errors_prefix.trans he'⟩
    · rw [← ho']
      exact hgrown.output
    · simp [Outcome.last, Machine.reportAbort, Machine.record]

end Runs

/-- A program that prints an unknown variable for ever, and so reports a fault as often. -/
def chatter : Program :=
  let o := Position.origin
  let line := Stmt.expr (.call "fmt.Println" [.name "y" o] o) o
  ⟨[.func ⟨"main", [], [], [.loop none none none [line] o]⟩ o]⟩

/-- The configuration with a number of steps. -/
def stepsUpTo (n : Nat) : Config := ⟨⟨10, some n⟩, ""⟩

theorem chatter_is_cut_short :
    (Machine.initial.execute (stepsUpTo 5) chatter).output.size = 2 ∧
    (Machine.initial.execute (stepsUpTo 9) chatter).output.size = 4 ∧
    (Machine.initial.execute (stepsUpTo 5) chatter).output.toList <+:
      (Machine.initial.execute (stepsUpTo 9) chatter).output.toList ∧
    ∃ errors, errors.length = 2 ∧
      (Machine.initial.execute (stepsUpTo 5) chatter).errors.toList =
        errors ++ [⟨.fatal, (Abort.stepBudget 5).message, .origin⟩] ∧
      errors <+: (Machine.initial.execute (stepsUpTo 9) chatter).errors.toList := by
  have hends : ∀ n, (∃ m, (Eval.program (stepsUpTo n).context chatter).run .initial =
      .error (.abort (.stepBudget n) .origin) m) →
      chatter.Ends (stepsUpTo n) .initial
        ((Eval.program (stepsUpTo n).context chatter).run .initial) := by
    rintro n ⟨m, hm⟩
    refine ⟨fun m' h => ?_, _, _, rfl⟩
    rw [hm] at h
    cases h
  have hwithin : (stepsUpTo 5).limits.Within (stepsUpTo 9).limits := by
    refine ⟨Nat.le_refl 10, ?_⟩
    rintro _ ⟨⟩
    exact ⟨5, rfl, by decide⟩
  obtain ⟨-, hcut, -⟩ := limits_only_cut_short hwithin rfl (hends 5 ⟨_, rfl⟩) (hends 9 ⟨_, rfl⟩)
  obtain ⟨hout, errors, he, hprefix⟩ := hcut _ _ _ rfl rfl
  rw [← Machine.execute_eq_last, ← Machine.execute_eq_last] at hout
  rw [← Machine.execute_eq_last] at he hprefix
  refine ⟨by decide +kernel, by decide +kernel, hout, errors, ?_, he, hprefix⟩
  have hlen := congrArg List.length he
  have hthree : (Machine.initial.execute (stepsUpTo 5) chatter).errors.toList.length = 3 := by
    decide +kernel
  rw [hthree, List.length_append] at hlen
  exact (Nat.succ.inj hlen).symm

end Treewalk
