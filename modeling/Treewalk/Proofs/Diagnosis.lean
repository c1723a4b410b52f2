/-
# The shape of the error list

Every action of evaluation is orderly: from one moment to a later one lines
and faults are added at the end and nothing is taken back, and once something
has been raised that ends the run, nothing that is shown changes any more.
That all of evaluation is so is one more simulation (`Simulation.ordering`).

So a program adds to the diagnostics of a machine what its reading had to say,
then faults, and last of all the abort that ended it, if one did.

Key definitions: `Simulation.ordering`, `Outcome.fatal`, `Outcome.Diagnoses`,
`Machine.Extends`.
Key theorems: `Program.orderly`, `error_list_has_its_shape`.
-/
import Treewalk.Proofs.Limits
import Treewalk.Proofs.Reached

namespace Treewalk
namespace Eval

variable {α : Type}

theorem orderly_tick {limits : Limits} {pos : Position} : (tick limits pos).Orderly := by
  have hstep : (modify fun m => { m with steps := m.steps + 1 } : Eval Unit).Orderly :=
    orderly_modifyGet fun m => Machine.SameShown.grown ⟨rfl, rfl, rfl⟩
  refine hstep.bind fun _ => ?_
  cases limits.maxSteps with
  | none => exact orderly_pure
  | some max =>
    refine orderly_get.bind fun m => ?_
    by_cases h : max < m.steps
    · simp only [if_pos h]
      exact orderly_signal
    · simp only [if_neg h]
      exact orderly_pure

theorem Orderly.deeper {limits : Limits} {x : Eval α} (pos : Position) (h : x.Orderly) :
    (deeper limits pos x).Orderly := by
  refine orderly_get.bind fun m => ?_
  by_cases hd : limits.maxDepth ≤ m.depth
  · simp only [if_pos hd]
    exact Orderly.bind orderly_signal fun _ => h
  · simp only [if_neg hd]
    exact h

end Eval

/-- Being orderly, as a simulation of which the second action does not matter. -/
def Simulation.ordering (limits : Limits) : Simulation limits limits where
  Rel x _ := x.Orderly
  quiet h := h.orderly
  bind h hf := h.bind hf
  handle hn h := h.handle hn.grows hn.abort hn.aborted
  bracket hb _ ha h := h.bracket (fun m => (hb m).adds.toGrown) ha
  tick _ := Eval.orderly_tick
  deeper pos h := h.deeper pos
  exhausted := Eval.orderly_signal
  cut _ := Eval.orderly_signal

/-- **Programs are orderly.** -/
theorem Program.orderly (config : Config) (p : Program) : (Eval.program config.context p).Orderly :=
  Simulation.program
    (Simulation.ofLevels (.ordering config.limits) rfl rfl rfl (Nat.le_refl _) (Nat.le_refl _)) p

/-! ### What a program leaves -/

/-- The abort that ended the run, and where. -/
def Outcome.abort? : Outcome Unit → Option (Abort × Position)
  | .error (.abort a pos) _ => some (a, pos)
  | _ => none

theorem Outcome.abort?_eq_some {r : Outcome Unit} {a : Abort} {pos : Position} :
    r.abort? = some (a, pos) ↔ ∃ m, r = .error (.abort a pos) m := by
  cases r with
  | ok u m => simp [abort?]
  | error s m => cases s <;> simp [abort?]

/-- What is reported of an outcome: the abort that ended the run. -/
def Outcome.fatal (r : Outcome Unit) : List Diagnostic :=
  r.abort?.toList.map fun (a, pos) => ⟨.fatal, a.message, pos⟩

/-- The run has this outcome and adds these diagnostics to those it was given: faults, and the abort
that ended it. -/
def Outcome.Diagnoses (r : Outcome Unit) (given found : List Diagnostic) : Prop :=
  ∃ faults, (∀ d ∈ faults, d.kind = .semantic) ∧ found = given ++ faults ++ r.fatal

theorem Outcome.errors_last (r : Outcome Unit) :
    r.last.errors.toList = r.machine.errors.toList ++ r.fatal := by
  cases r with
  | ok a m => simp [last, machine, fatal, abort?]
  | error s m =>
    cases s with
    | abort a pos => simp [last, machine, fatal, abort?, Machine.reportAbort, Machine.record]
    | _ => simp [last, machine, fatal, abort?]

namespace Machine

/-- The machine with the diagnostics of a reading. -/
def reads (m : Machine) (parsed : Parsed) : Machine :=
  { m with errors := m.errors.append parsed.errors }

/-- What was printed and reported in `m` stands at the beginning of what was in `m'`. -/
structure Extends (m m' : Machine) : Prop where
  output : m.output.toList <+: m'.output.toList
  errors : m.errors.toList <+: m'.errors.toList

theorem Extends.trans {m m' m'' : Machine} (h : m.Extends m') (h' : m'.Extends m'') :
    m.Extends m'' :=
  ⟨h.output.trans h'.output, h.errors.trans h'.errors⟩

theorem Grown.extends {m m' : Machine} (h : m.Grown m') : m.Extends m' :=
  ⟨h.output, h.errors_prefix⟩

theorem extends_reads (m : Machine) (parsed : Parsed) : m.Extends (m.reads parsed) :=
  ⟨List.prefix_refl _, parsed.errors, by simp [reads]⟩

theorem extends_execute (config : Config) (p : Program) (m : Machine) :
    ((Eval.program config.context p).run m).machine.Extends (m.execute config p) := by
  rw [execute_eq_last]
  obtain ⟨hout, herr⟩ := Outcome.last_grown ((Eval.program config.context p).run m)
  exact ⟨⟨[], by rw [hout, List.append_nil]⟩, herr⟩

end Machine

section Program

variable {config : Config} {m : Machine} {p : Program} {es : List Moment} {parsed : Parsed}

/-- The moments of a program, and what it leaves. -/
theorem Program.course (hes : (Eval.program config.context p).trace m es) :
    Course m es ((Eval.program config.context p).run m) :=
  Program.orderly config p m es hes

/-- What a program adds to the diagnostics of a machine. -/
theorem Machine.diagnoses_executeParsed (config : Config) (m : Machine) (parsed : Parsed) :
    ∃ found, (m.executeParsed config parsed).errors.toList = m.errors.toList ++ found ∧
      ((Eval.program config.context parsed.program).run (m.reads parsed)).Diagnoses parsed.errors
        found := by
  obtain ⟨es, hes⟩ := (Eval.program config.context parsed.program).traced (m.reads parsed)
  obtain ⟨faults, hf, hk⟩ := (Program.course hes).grown.errors
  refine ⟨_, ?_, faults, hk, rfl⟩
  calc (m.executeParsed config parsed).errors.toList
      = ((Eval.program config.context parsed.program).run (m.reads parsed)).last.errors.toList := by
        rw [← Machine.execute_eq_last]
        rfl
    _ = m.errors.toList ++ (parsed.errors ++ faults ++ _) := by
        rw [Outcome.errors_last, hf]
        simp [Machine.reads]

/-- Once an abort is raised, nothing that is shown changes but that it is reported. -/
theorem Program.final_of_raises {ps qs : List Moment} {e : Moment} {a : Abort} {pos : Position}
    (hes : (Eval.program config.context p).trace m (ps ++ e :: qs)) (he : e.Raises a pos) :
    (∀ e' ∈ qs, e.machine.SameShown e'.machine) ∧
      (e.machine.reportAbort a pos).SameShown (m.execute config p) := by
  have hc := Program.course hes
  have hmem : e ∈ ps ++ e :: qs := by simp
  obtain ⟨m', hm⟩ := hc.raises hmem he
  refine ⟨fun e' he' => ?_, ?_⟩
  · have hp := (List.pairwise_append.mp hc.pairwise).2.1
    exact ((List.pairwise_cons.mp hp).1 e' he').final he
  · have hf := (hc.finish hmem).final he
    rw [hm] at hf
    rw [Machine.execute_eq_last, hm]
    exact ⟨hf.output, congrArg (ErrorLog.push · _) hf.errors, hf.symbols⟩

/-- From one moment of a session to every later one, output and diagnostics grow at the end. -/
theorem Machine.Session.extends {Q : Program → Prop} (h : Machine.Session config Q es m) :
    es.Pairwise (fun e e' => e.machine.Extends e'.machine) ∧ ∀ e ∈ es, e.machine.Extends m := by
  induction h with
  | initial =>
    refine ⟨List.pairwise_singleton _ _, fun e he => ?_⟩
    rw [List.mem_singleton.mp he]
    exact (Machine.Grown.refl _).extends
  | @executed es fs m parsed hp _ hfs ih =>
    have hc := Program.course (m := m.reads parsed) hfs
    have hend : ((Eval.program config.context parsed.program).run (m.reads parsed)).machine.Extends
        (m.executeParsed config parsed) := Machine.extends_execute _ _ _
    have hstart := Machine.extends_reads m parsed
    have hfinal : ∀ e ∈ fs ++ [(m.executeParsed config parsed).still],
        m.Extends e.machine ∧ e.machine.Extends (m.executeParsed config parsed) := by
      intro e he
      rcases List.mem_append.mp he with he | he
      · exact ⟨hstart.trans (hc.start he).extends, (hc.finish he).grown.extends.trans hend⟩
      · rw [List.mem_singleton.mp he]
        exact ⟨hstart.trans (hc.grown.extends.trans hend), (Machine.Grown.refl _).extends⟩
    refine ⟨List.pairwise_append.mpr ⟨ih.1, ?_, fun e he e' he' => ?_⟩, fun e he => ?_⟩
    · refine List.pairwise_append.mpr ⟨hc.pairwise.imp fun h => h.grown.extends,
        List.pairwise_singleton _ _, fun e he e' he' => ?_⟩
      rw [List.mem_singleton.mp he']
      exact (hfinal e (List.mem_append_left _ he)).2
    · exact (ih.2 e he).trans (hfinal e' he').1
    · rcases List.mem_append.mp he with he | he
      · exact (ih.2 e he).trans (hfinal _ (List.mem_append_right _ (List.mem_singleton_self _))).1
      · exact (hfinal e he).2

/-- **The shape of the error list.** A report has the diagnostics of the reading, unchanged, then
faults, and last the abort that ended the run, if one did; and so has what any program adds to a
machine. The run ends in an abort exactly if one was raised, and from then on nothing that is shown
changes, but that the abort is reported. From one moment of a session to every later one, output and
diagnostics grow at the end only. -/
theorem error_list_has_its_shape (config : Config) :
    (∀ parsed,
      ((Eval.program config.context parsed.program).run (Machine.initial.reads parsed)).Diagnoses
        parsed.errors (Report.ofParsed config parsed).errors) ∧
    (∀ (m : Machine) (parsed : Parsed), ∃ found,
      (m.executeParsed config parsed).errors.toList = m.errors.toList ++ found ∧
      ((Eval.program config.context parsed.program).run (m.reads parsed)).Diagnoses parsed.errors
        found) ∧
    (∀ m p es, (Eval.program config.context p).trace m es →
      (∀ a pos, (∃ m', (Eval.program config.context p).run m = .error (.abort a pos) m') ↔
        ∃ e ∈ es, e.Raises a pos) ∧
      ∀ ps e qs a pos, es = ps ++ e :: qs → e.Raises a pos →
        (∀ e' ∈ qs, e.machine.SameShown e'.machine) ∧
          (e.machine.reportAbort a pos).SameShown (m.execute config p)) ∧
    ∀ es m, Machine.Session config (fun _ => True) es m →
      es.Pairwise fun e e' => e.machine.Extends e'.machine := by
  refine ⟨fun parsed => ?_, Machine.diagnoses_executeParsed config, fun m p es hes => ⟨?_, ?_⟩,
    fun es m h => h.extends.1⟩
  · obtain ⟨found, hf, hd⟩ := Machine.diagnoses_executeParsed config .initial parsed
    have hreport : (Report.ofParsed config parsed).errors = found := hf
    rw [hreport]
    exact hd
  · refine fun a pos => ⟨fun ⟨m', hm⟩ => (Program.course hes).raised hm, fun ⟨e, he, hr⟩ => ?_⟩
    exact (Program.course hes).raises he hr
  · rintro ps e qs a pos rfl hr
    exact Program.final_of_raises hes hr

end Program

/-- The program that prints an unknown variable for ever, read with a complaint. -/
def doubtfulChatter : Parsed := ⟨chatter, [⟨.lexical, "stray character", .origin⟩]⟩

/-- Its report under five steps, at the end of which an abort is raised at some moment: from then on
nothing is shown any more. -/
theorem doubtfulChatter_is_diagnosed :
    (Report.ofParsed (stepsUpTo 5) doubtfulChatter).errors.map (·.kind) =
      [.lexical, .semantic, .semantic, .fatal] ∧
    ∃ faults ps e qs, faults.length = 2 ∧
      (Report.ofParsed (stepsUpTo 5) doubtfulChatter).errors =
        doubtfulChatter.errors ++ faults ++ [⟨.fatal, (Abort.stepBudget 5).message, .origin⟩] ∧
      Machine.Session (stepsUpTo 5) (fun _ => True) ([Machine.initial.still] ++ ((ps ++ e :: qs) ++
        [(Machine.initial.executeParsed (stepsUpTo 5) doubtfulChatter).still]))
        (Machine.initial.executeParsed (stepsUpTo 5) doubtfulChatter) ∧
      e.Raises (.stepBudget 5) .origin ∧ (∀ e' ∈ qs, e.machine.SameShown e'.machine) ∧
      (∀ e' ∈ qs, Machine.initial.Extends e'.machine) := by
  obtain ⟨hreport, -, hmoments, hsession⟩ := error_list_has_its_shape (stepsUpTo 5)
  obtain ⟨es, hes⟩ := (Eval.program (stepsUpTo 5).context chatter).traced
    (Machine.initial.reads doubtfulChatter)
  obtain ⟨hraised, hfinal⟩ := hmoments _ _ _ hes
  obtain ⟨e, he, hr⟩ := (hraised (.stepBudget 5) .origin).mp
    (Outcome.abort?_eq_some.mp (by decide +kernel))
  obtain ⟨ps, qs, rfl⟩ := List.append_of_mem he
  obtain ⟨faults, -, hf⟩ := hreport doubtfulChatter
  have hs : Machine.Session (stepsUpTo 5) (fun _ => True) _ _ :=
    .executed doubtfulChatter trivial .initial hes
  have hlen := congrArg List.length hf
  have hfour : (Report.ofParsed (stepsUpTo 5) doubtfulChatter).errors.length = 4 := by
    decide +kernel
  refine ⟨by decide +kernel, faults, ps, e, qs, ?_, hf, hs, hr, (hfinal ps e qs _ _ rfl hr).1, ?_⟩
  · rw [hfour, List.length_append, List.length_append] at hlen
    have hone : ((Eval.program (stepsUpTo 5).context doubtfulChatter.program).run
        (Machine.initial.reads doubtfulChatter)).fatal.length = 1 := rfl
    have hgiven : doubtfulChatter.errors.length = 1 := rfl
    omega
  · intro e' he'
    exact (List.pairwise_cons.mp (hsession _ _ hs)).1 e' (by simp [he'])

end Treewalk
