/-
# Faults are recorded

A fault ends the expression or the statement it occurs in, which records it
and goes on. So no statement and no expression ends in a fault, nor does
anything that consists of statements: the body of a function, or the
declarations of a program.

The call of `main` is neither statement nor expression. It has no arguments,
and where `main` asks for some the fault has nobody to record it: the program
ends in it, and what is reported is a success although the body has not run.
That is the only fault a program ever ends in (`program_fault_iff`), and the
only way for a program that reports nothing to miss the body of its `main`.

Key definitions: `Eval.Faultless`, `Program.beforeMain`, `Program.RunsMain`.
Key theorems: `execAll_faultless`, `program_fault_iff`,
`fault_lost_iff_main_has_params`.
-/
import Treewalk.Proofs.Confined
import Treewalk.Proofs.Reading
import Treewalk.Report

namespace Treewalk

/-- An action that never ends in a fault. -/
def Eval.Faultless {α : Type} (x : Eval α) : Prop :=
  ∀ m f pos m', x.run m ≠ .error (.fault f pos) m'

namespace Eval

variable {α β : Type} {x : Eval α}

theorem faultless_pure {a : α} : (pure a : Eval α).Faultless := by
  intro m f pos m' h
  cases h

theorem faultless_abort {a : Abort} {pos : Position} : (abort a pos : Eval α).Faultless := by
  intro m f pos' m' h
  cases h

theorem Faultless.bind {f : α → Eval β} (hx : x.Faultless) (hf : ∀ a, (f a).Faultless) :
    (x >>= f).Faultless := by
  intro m fault pos m' hr
  rcases run_bind_error.mp hr with h | ⟨a, m₁, -, h⟩
  · exact hx m fault pos m' h
  · exact hf a m₁ fault pos m' h

theorem Preserves.faultless (hx : x.Preserves fun _ => True) : x.Faultless := by
  intro m fault pos m' hr
  obtain ⟨a, m₁, ha, -⟩ := hx.ends (m := m) trivial
  rw [hr] at ha
  cases ha

theorem orElseReport_faultless {a : α} : (orElseReport x a).Faultless := by
  intro m fault pos m' hr
  simp only [orElseReport, handle] at hr
  split at hr
  · cases hr
  · next h => exact h _ _ _ hr

theorem tick_faultless {limits : Limits} {pos : Position} : (tick limits pos).Faultless := by
  refine Faultless.bind (preserves_modify fun _ _ => trivial).faultless fun _ => ?_
  cases limits.maxSteps with
  | none => exact faultless_pure
  | some max =>
    refine Faultless.bind preserves_get.faultless fun m => ?_
    by_cases h : max < m.steps
    · simp only [if_pos h]
      exact faultless_abort
    · simp only [if_neg h]
      exact faultless_pure

theorem Faultless.returnValue {x : Eval Unit} (hx : x.Faultless) : (returnValue x).Faultless := by
  intro m fault pos m' hr
  simp only [Eval.returnValue, handle] at hr
  split at hr
  · cases hr
  · cases hr
  · next h => cases hr; exact hx _ _ _ _ h

end Eval

variable {ctx : Context} {frame : FrameId}

theorem exec_faultless {s : Stmt} : (s.exec ctx frame).Faultless := by
  unfold Stmt.exec Eval.statement
  exact Eval.tick_faultless.bind fun _ => Eval.orElseReport_faultless

/-- Statements record their faults, one and all. -/
theorem execAll_faultless : ∀ ss : List Stmt, (Stmt.execAll ctx ss frame).Faultless
  | [] => Eval.faultless_pure
  | s :: ss => Eval.Faultless.bind (exec_faultless (s := s)) fun _ => execAll_faultless ss

theorem globals_faultless : ∀ ss : List Stmt, (ss.forM fun s => s.exec ctx frame).Faultless
  | [] => Eval.faultless_pure
  | _ :: ss => exec_faultless.bind fun _ => globals_faultless ss

/-! ### The call of `main` -/

/-- The machine inside a call. -/
def Machine.inCallOf (m : Machine) (name : String) : Machine :=
  (m.called name).openIn Frames.globalId

/-- The machine back from a call. -/
def Machine.back (m : Machine) (id : FrameId) : Machine :=
  { m.leave id with depth := m.depth - 1 }

/-- A call without arguments of a function without parameters, if one more call may run. -/
theorem run_call {func : FuncDecl} {pos : Position} {m : Machine} (hp : func.params = [])
    (hd : m.depth < ctx.config.limits.maxDepth) :
    (Eval.runFunction ctx func [] pos).run m =
      Outcome.after (·.back m.frames.nextId)
        ((Eval.returnValue (Stmt.execAll ctx func.body m.frames.nextId)).run
          (m.inCallOf func.name)) := by
  unfold Eval.runFunction
  simp only [hp, List.length_nil, if_pos, List.zip_nil_left]
  refine (Eval.run_bind_of_ok (a := m) rfl).trans ?_
  rw [if_neg (by omega)]
  unfold Eval.inScope Eval.inCall
  rw [Eval.run_bracket, Eval.run_bracket, Eval.run_inFrame, Outcome.after_after,
    Outcome.after_after]
  rfl

/-- With no room for one more call the run ends. -/
theorem run_call_deep {func : FuncDecl} {pos : Position} {m : Machine} (hp : func.params = [])
    (hd : ctx.config.limits.maxDepth ≤ m.depth) :
    (Eval.runFunction ctx func [] pos).run m =
      .error (.abort (.callDepth ctx.config.limits.maxDepth) pos) m := by
  unfold Eval.runFunction
  simp only [hp, List.length_nil, if_pos]
  refine (Eval.run_bind_of_ok (a := m) rfl).trans ?_
  rw [if_pos hd]
  rfl

/-- A call without arguments of a function with parameters is a fault, and nothing else. -/
theorem run_call_params {func : FuncDecl} {pos : Position} {m : Machine} (hp : func.params ≠ []) :
    (Eval.runFunction ctx func [] pos).run m =
      .error (.fault (.argumentCount func.name func.params.length 0) pos) m := by
  have hn : ¬ ([] : List Value).length = func.params.length := by
    simpa [eq_comm] using hp
  unfold Eval.runFunction
  simp only [if_neg hn]
  rfl

theorem run_call_faultless {func : FuncDecl} {pos : Position} (hp : func.params = []) :
    (Eval.runFunction ctx func [] pos).Faultless := by
  intro m f pos' m' hr
  rcases Nat.lt_or_ge m.depth ctx.config.limits.maxDepth with hd | hd
  · rw [run_call hp hd, Outcome.after_eq_error] at hr
    obtain ⟨m₁, hr, -⟩ := hr
    exact (execAll_faultless func.body).returnValue _ f pos' m₁ hr
  · rw [run_call_deep hp hd] at hr
    cases hr

/-! ### Programs -/

namespace Program

/-- What a program does before it calls `main`. -/
def beforeMain (ctx : Context) (p : Program) : Eval Unit := do
  Eval.hoistAll p.functions false
  p.globals.forM fun s => s.exec ctx Frames.globalId

theorem beforeMain_faultless (p : Program) : (p.beforeMain ctx).Faultless := by
  unfold beforeMain
  refine Eval.Faultless.bind (fun m f pos m' hr => ?_) fun _ => globals_faultless p.globals
  obtain ⟨a, m₁, hok, -⟩ := (preserves_hoistAll (m := m) p.functions false
    fun (h : False) => h.elim).ends ⟨rfl, rfl, rfl, rfl, False.elim⟩
  rw [hr] at hok
  cases hok

/-- The call of `main`, for which it is declared. -/
def callMain (ctx : Context) (d : Declared) : Eval Unit := do
  Eval.declareFunction d
  let _ ← ctx.call d.func [] d.pos

/-- A program runs what comes before `main`, and `main`. -/
theorem run_program (p : Program) (m : Machine) :
    (Eval.program ctx p).run m = (do
      p.beforeMain ctx
      match p.main? with
      | some d => callMain ctx d
      | none => pure ()).run m := by
  unfold Eval.program beforeMain
  exact (Eval.run_bind_assoc _ _ _ m).symm

/-- The outcome of `main`, once all that comes before it has ended. -/
theorem run_program_main {p : Program} {d : Declared} {m m₁ : Machine} (hd : p.main? = some d)
    (hb : (p.beforeMain ctx).run m = .ok () m₁) :
    (Eval.program ctx p).run m = (callMain ctx d).run m₁ := by
  rw [run_program, Eval.run_bind_of_ok hb, hd]

end Program

/-- The machine in which a function has been declared. -/
def Machine.declares (m : Machine) (d : Declared) : Machine :=
  { m with symbols := (m.symbols.declare d.func.name "function" "nil" d.pos).2 }

/-- The context of the body of `main`. -/
def Config.mainContext (config : Config) : Context :=
  .ofLevels config (config.limits.maxSteps.getD UInt64.size + 1) config.limits.maxDepth

/-- The body of `main` has run: all that comes before it has ended, and the program leaves the
machine that the body leaves. -/
def Program.RunsMain (config : Config) (p : Program) (m : Machine) : Prop :=
  ∃ d m₁, p.main? = some d ∧ (p.beforeMain config.context).run m = .ok () m₁ ∧
    ((Eval.program config.context p).run m).machine =
      ((Stmt.execAll config.mainContext d.func.body m₁.frames.nextId).run
        ((m₁.declares d).inCallOf d.func.name)).machine.back m₁.frames.nextId

section Main

variable {config : Config} {p : Program} {d : Declared} {m m₁ : Machine}

theorem run_callMain_error {s : Signal} {m' : Machine}
    (h : (Eval.runFunction config.mainContext d.func [] d.pos).run (m.declares d) = .error s m') :
    (Program.callMain config.context d).run m = .error s m' := by
  have hdecl : (Eval.declareFunction d).run m = .ok () (m.declares d) := rfl
  exact (Eval.run_bind_of_ok hdecl).trans (Eval.run_bind_of_error h)

theorem callMain_faultless (hp : d.func.params = []) :
    (Program.callMain config.context d).Faultless := by
  have hdecl : (Eval.declareFunction d).Faultless :=
    (Eval.preserves_modifyGet fun _ _ => trivial).faultless.bind fun _ => Eval.faultless_pure
  exact hdecl.bind fun _ => (run_call_faultless hp).bind fun _ => Eval.faultless_pure

/-- Where one call may run, `main` without parameters runs its body. -/
theorem callMain_machine (hp : d.func.params = []) (hd : m.depth < config.limits.maxDepth) :
    ((Program.callMain config.context d).run m).machine =
      ((Stmt.execAll config.mainContext d.func.body m.frames.nextId).run
        ((m.declares d).inCallOf d.func.name)).machine.back m.frames.nextId := by
  have hdecl : (Eval.declareFunction d).run m = .ok () (m.declares d) := rfl
  have hcall : (config.context.call d.func [] d.pos).run (m.declares d) =
      Outcome.after (·.back m.frames.nextId)
        ((Eval.returnValue (Stmt.execAll config.mainContext d.func.body m.frames.nextId)).run
          ((m.declares d).inCallOf d.func.name)) :=
    run_call hp hd
  rw [Program.callMain, Eval.run_bind_of_ok hdecl, Eval.bind_pure_machine, hcall,
    Outcome.after_machine, Eval.returnValue_machine]

/-- **The only fault a program ends in** is that of a `main` with parameters. -/
theorem program_fault_iff {f : Fault} {pos : Position} {m' : Machine} :
    (Eval.program config.context p).run m = .error (.fault f pos) m' ↔
      ∃ d m₁, p.main? = some d ∧ d.func.params ≠ [] ∧
        (p.beforeMain config.context).run m = .ok () m₁ ∧
        f = .argumentCount d.func.name d.func.params.length 0 ∧ pos = d.pos ∧
        m' = m₁.declares d := by
  constructor
  · intro hr
    rw [Program.run_program] at hr
    rcases Eval.run_bind_error.mp hr with hr | ⟨_, m₁, hb, hr⟩
    · exact absurd hr (p.beforeMain_faultless m f pos m')
    · cases hd : p.main? with
      | none =>
        rw [hd] at hr
        cases hr
      | some d =>
        rw [hd] at hr
        by_cases hp : d.func.params = []
        · exact absurd hr (callMain_faultless hp m₁ f pos m')
        · rw [run_callMain_error (run_call_params hp)] at hr
          cases hr
          exact ⟨d, m₁, rfl, hp, hb, rfl, rfl, rfl⟩
  · rintro ⟨d, m₁, hd, hp, hb, rfl, rfl, rfl⟩
    rw [Program.run_program_main hd hb]
    exact run_callMain_error (run_call_params hp)

end Main

/-! ### What a report of success means -/

section Success

variable {config : Config} {p : Program} {d : Declared} {m m' : Machine}

/-- A run that has nothing to report was not aborted. -/
theorem not_abort_of_silent {a : Abort} {pos : Position}
    (h : (m.execute config p).errors.toList = []) :
    (Eval.program config.context p).run m ≠ .error (.abort a pos) m' := by
  intro hr
  unfold Machine.execute at h
  rw [hr] at h
  simp [Machine.reportAbort, Machine.record] at h

/-- A run beyond the bounds of evaluation has no limit on its steps, and has made more of them than
can be counted. -/
theorem exhausted_steps {tidy : Prop} (h : Discipline.lax.Rests tidy m)
    (hp : tidy → p.tidy = true)
    (hr : (Eval.program config.context p).run m = .error .exhausted m') :
    config.limits.maxSteps = none ∧ UInt64.size < m'.steps := by
  obtain ⟨hrests, hstops⟩ := Discipline.program_ends config hp h
  have hspent := hstops _ _ hr
  rw [hr] at hrests
  have hdepth : m'.depth = 0 := hrests.depth
  obtain ⟨hmade, hmax⟩ := hspent (by omega) (by rw [hdepth]; simp [Config.regime])
  cases hs : config.limits.maxSteps with
  | none =>
    simp only [Config.regime, hs, Option.getD_none] at hmade
    exact ⟨rfl, hmade⟩
  | some max =>
    have hle := hmax max hs
    simp only [Config.regime, hs, Option.getD_some] at hle
    omega

/-- A program that reports nothing has come to its `main`. -/
theorem beforeMain_ends (h : Discipline.lax.Rests True m) (hp : p.tidy = true)
    (hs : (m.execute config p).errors.toList = []) :
    (∃ m₁, (p.beforeMain config.context).run m = .ok () m₁) ∨
      (config.limits.maxSteps = none ∧ UInt64.size < (m.execute config p).steps) := by
  cases hb : (p.beforeMain config.context).run m with
  | ok a m₁ => exact .inl ⟨m₁, rfl⟩
  | error s m₁ =>
    have hr : (Eval.program config.context p).run m = .error s m₁ := by
      rw [Program.run_program, Eval.run_bind_of_error hb]
    have hjump := program_not_jump h hp hr
    cases s with
    | broke => cases hjump
    | continued => cases hjump
    | returned v => cases hjump
    | fault f pos => exact absurd hb (p.beforeMain_faultless m f pos m₁)
    | abort a pos => exact absurd hr (not_abort_of_silent hs)
    | exhausted =>
      refine .inr ?_
      unfold Machine.execute
      rw [hr]
      exact exhausted_steps h (fun _ => hp) hr

/-- The machine that a source text is run on. -/
def Machine.given (parsed : Parsed) : Machine :=
  { Machine.initial with errors := Machine.initial.errors.append parsed.errors }

theorem executeParsed_initial (config : Config) (parsed : Parsed) :
    Machine.initial.executeParsed config parsed =
      (Machine.given parsed).execute config parsed.program :=
  rfl

theorem Report.success_iff (config : Config) (source : String) :
    (Report.ofText config source).success = true ↔
      ((Machine.given (Parsed.ofText source)).execute config
        (Parsed.ofText source).program).errors.toList = [] := by
  simp only [Report.success, Report.ofText, Report.ofParsed, Report.ofMachine, List.isEmpty_iff,
    executeParsed_initial]

/-- A source that declares `main` and reports nothing: the body of `main` has run, or `main` has
parameters and the fault that it got no arguments is lost, or the run has no end. -/
theorem success_cases {source : String} (hd : (Parsed.ofText source).program.main? = some d)
    (hs : (Report.ofText config source).success = true) :
    (d.func.params = [] ∧
        (Parsed.ofText source).program.RunsMain config (.given (Parsed.ofText source))) ∨
      (d.func.params ≠ [] ∧ ∃ m', (Eval.program config.context (Parsed.ofText source).program).run
          (.given (Parsed.ofText source)) =
        .error (.fault (.argumentCount d.func.name d.func.params.length 0) d.pos) m') ∨
      (config.limits.maxSteps = none ∧ UInt64.size <
        (Machine.initial.executeParsed config (Parsed.ofText source)).steps) := by
  have hp := Parsed.ofText_tidy source
  have hidle : Machine.Idle config (fun p => p.tidy = true) .initial := .initial
  have hrests : Discipline.lax.Rests True (.given (Parsed.ofText source)) :=
    (Discipline.rests_of_idle (fun _ hp (_ : True) => hp) trivial trivial hidle).diagnosed _
  have hsilent := (Report.success_iff config source).mp hs
  rcases beforeMain_ends hrests hp hsilent with ⟨m₁, hb⟩ | hlong
  · have hrun := Program.run_program_main hd hb
    by_cases hparams : d.func.params = []
    · rcases Nat.lt_or_ge m₁.depth config.limits.maxDepth with hdepth | hdepth
      · refine .inl ⟨hparams, d, m₁, hd, hb, ?_⟩
        rw [hrun]
        exact callMain_machine hparams hdepth
      · rw [run_callMain_error (run_call_deep hparams hdepth)] at hrun
        exact absurd hrun (not_abort_of_silent hsilent)
    · refine .inr (.inl ⟨hparams, m₁.declares d, ?_⟩)
      rw [hrun]
      exact run_callMain_error (run_call_params hparams)
  · exact .inr (.inr hlong)

end Success

/-- **Faults are recorded, but for one.** A statement or an expression that meets a fault records it
and goes on. A program ends in a fault exactly if its `main` has parameters and is called. So a
source that declares `main` and reports nothing has run the body of `main`, unless it has
parameters; a run that never ends aside. -/
theorem fault_lost_iff_main_has_params (config : Config) :
    (∀ rounds levels frame m,
      (∀ (s : Stmt) f pos m₁ m₂, (Eval.tick config.limits s.pos).run m = .ok () m₁ →
        (s.raw (.ofLevels config rounds levels) frame).run m₁ = .error (.fault f pos) m₂ →
        (s.exec (.ofLevels config rounds levels) frame).run m =
          .ok () (m₂.record ⟨.semantic, f.message, pos⟩)) ∧
      ∀ (e : Expr) f pos m₁,
        (e.raw (.ofLevels config rounds levels) frame).run m = .error (.fault f pos) m₁ →
        (e.eval (.ofLevels config rounds levels) frame).run m =
          .ok .nil (m₁.record ⟨.semantic, f.message, pos⟩)) ∧
    (∀ p m f pos m', (Eval.program config.context p).run m = .error (.fault f pos) m' ↔
      ∃ d m₁, p.main? = some d ∧ d.func.params ≠ [] ∧
        (p.beforeMain config.context).run m = .ok () m₁ ∧
        f = .argumentCount d.func.name d.func.params.length 0 ∧ pos = d.pos ∧
        m' = m₁.declares d) ∧
    ∀ source d, (Parsed.ofText source).program.main? = some d →
      (Report.ofText config source).success = true →
      (d.func.params = [] ∧
        (Parsed.ofText source).program.RunsMain config (.given (Parsed.ofText source))) ∨
      (d.func.params ≠ [] ∧ ∃ m', (Eval.program config.context (Parsed.ofText source).program).run
          (.given (Parsed.ofText source)) =
        .error (.fault (.argumentCount d.func.name d.func.params.length 0) d.pos) m') ∨
      (config.limits.maxSteps = none ∧ UInt64.size <
        (Machine.initial.executeParsed config (Parsed.ofText source)).steps) := by
  refine ⟨fun rounds levels frame m => ⟨?_, ?_⟩, ?_, ?_⟩
  · intro s f pos m₁ m₂ ht hr
    unfold Stmt.exec Eval.statement
    exact (Eval.run_bind_of_ok ht).trans (Eval.orElseReport_fault hr)
  · intro e f pos m₁ hr
    unfold Expr.eval Eval.settled
    exact Eval.orElseReport_fault hr
  · exact fun p m f pos m' => program_fault_iff
  · exact fun source d hd hs => success_cases hd hs

/-- A source whose `main` asks for an argument. -/
def askingMain : String := "func main(a int32) \x7b\n\x7d"

theorem askingMain_reports_success :
    (Report.ofText ⟨{}, ""⟩ askingMain).success = true ∧
      ∃ d m', (Parsed.ofText askingMain).program.main? = some d ∧
        (Eval.program (Config.context ⟨{}, ""⟩) (Parsed.ofText askingMain).program).run
          (.given (Parsed.ofText askingMain)) =
        .error (.fault (.argumentCount d.func.name 1 0) d.pos) m' := by
  have hs : (Report.ofText ⟨{}, ""⟩ askingMain).success = true := by decide +kernel
  have hsteps : (Machine.initial.executeParsed ⟨{}, ""⟩ (Parsed.ofText askingMain)).steps = 0 := by
    decide +kernel
  have hmain : ((Parsed.ofText askingMain).program.main?.map fun d => d.func.params.length) =
      some 1 := by decide +kernel
  obtain ⟨d, hd, hlen⟩ := Option.map_eq_some_iff.mp hmain
  have hruns := (fault_lost_iff_main_has_params ⟨{}, ""⟩).2.2 askingMain d hd hs
  rw [hlen, hsteps] at hruns
  rcases hruns with ⟨hnil, -⟩ | ⟨-, m', hr⟩ | ⟨-, hlt⟩
  · rw [hnil] at hlen
    cases hlen
  · exact ⟨hs, d, m', hd, hr⟩
  · exact absurd hlt (Nat.not_lt_zero _)

end Treewalk
