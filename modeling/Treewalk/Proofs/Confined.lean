/-
# Jumps stay within their construct

Whether a `break`, `continue` or `return` is taken is decided by the scopes
that are open; who takes it up is decided by the tree. The two agree. No
expression and no call ends in a jump, a statement only where the scopes
around it have room for one, and a program never.

A loop that ends is a number of rounds (`LoopRuns`): each goes on after the
body has ended or arrived at a `continue`, and the last one is where the
condition fails or the body arrived at a `break`. A switch ends with its
cases or where one of them arrived at a `break`. A jump that has nothing
around it is reported, and the statements behind it follow.

Key definitions: `LoopRuns`, `Stmt.Misplaced`, `Machine.Confines`.
Key theorems: `rounds_runs`, `loop_runs`, `switch_runs`,
`jumps_are_confined`.
-/
import Treewalk.Proofs.Jump

namespace Treewalk

/-- A loop that makes `k` rounds and then ends. -/
inductive LoopRuns (ctx : Context) (check : Option Expr) (post : Option Stmt) (body : List Stmt)
    (pos : Position) (frame : FrameId) : Nat → Machine → Machine → Prop
  /-- The condition fails. -/
  | done {m m'} : (Eval.loopCheck ctx check pos frame).run m = .ok false m' →
    LoopRuns ctx check post body pos frame 0 m m'
  /-- The body arrives at a `break`. -/
  | left {m m₁ m'} : (Eval.loopCheck ctx check pos frame).run m = .ok true m₁ →
    Stmt.AllJump ctx .leave body m₁.frames.nextId (m₁.openIn frame) m' →
    LoopRuns ctx check post body pos frame 0 m (m'.close m₁.frames.nextId)
  /-- The body ends. -/
  | round {k m m₁ m₂ m₃ m'} : (Eval.loopCheck ctx check pos frame).run m = .ok true m₁ →
    (Eval.inFrame frame fun inner => Stmt.execAll ctx body inner).run m₁ = .ok () m₂ →
    (Stmt.execOptional ctx post frame).run m₂ = .ok () m₃ →
    LoopRuns ctx check post body pos frame k m₃ m' →
    LoopRuns ctx check post body pos frame (k + 1) m m'
  /-- The body arrives at a `continue`. -/
  | next {k m m₁ m₂ m₃ m'} : (Eval.loopCheck ctx check pos frame).run m = .ok true m₁ →
    Stmt.AllJump ctx .goOn body m₁.frames.nextId (m₁.openIn frame) m₂ →
    (Stmt.execOptional ctx post frame).run (m₂.close m₁.frames.nextId) = .ok () m₃ →
    LoopRuns ctx check post body pos frame k m₃ m' →
    LoopRuns ctx check post body pos frame (k + 1) m m'

/-- A jump that has nothing around it to go to, and what is wrong with it. -/
inductive Stmt.Misplaced (scopes : List Scope) : Stmt → Fault → Prop
  | leave {pos} : ¬ Signal.broke.Enclosed scopes →
    Misplaced scopes (.breakStmt pos) .misplacedBreak
  | goOn {pos} : ¬ Signal.continued.Enclosed scopes →
    Misplaced scopes (.continueStmt pos) .misplacedContinue
  | back {es pos} : (∀ sc ∈ scopes, sc.isFunction = false) →
    Misplaced scopes (.returnStmt es pos) .misplacedReturn

/-- A signal that some construct of the tree has to take up. -/
def Signal.isJump : Signal → Bool
  | .broke | .continued | .returned _ => true
  | _ => false

/-- What a machine does with jumps, for tidy trees. -/
structure Machine.Confines (ctx : Context) (m : Machine) : Prop where
  /-- No expression ends in a jump. -/
  eval : ∀ (e : Expr) frame s m', (e.eval ctx frame).run m = .error s m' → s.isJump = false
  /-- Nor does a call. -/
  call : ∀ (func : FuncDecl) args pos s m', func.tidy = true →
    (ctx.call func args pos).run m = .error s m' → s.isJump = false
  /-- A statement ends in a jump only where the scopes have room for it. -/
  exec : ∀ (st : Stmt) frame s m', st.tidy = true → (st.exec ctx frame).run m = .error s m' →
    s.Enclosed m.symbols.scopes
  /-- Statements end in a `break` or `continue` exactly when they arrive at one. -/
  jumps : ∀ j ss frame m', Stmt.allTidy ss = true →
    ((Stmt.execAll ctx ss frame).run m = .error j.signal m' ↔ Stmt.AllJump ctx j ss frame m m')
  /-- A loop takes up what its body arrives at. -/
  loop : ∀ init check post body pos frame m', (Stmt.loop init check post body pos).tidy = true →
    (((Stmt.loop init check post body pos).raw ctx frame).run m = .ok () m' ↔
      ∃ m₁ k m₂, (Stmt.execOptional ctx init m.frames.nextId).run (m.enter .loop frame) =
          .ok () m₁ ∧ k < ctx.rounds ∧
        LoopRuns ctx check post body pos m.frames.nextId k m₁ m₂ ∧
        m' = m₂.leave m.frames.nextId)
  /-- A switch takes up the `break` that one of its cases arrives at. -/
  switch : ∀ subject clauses otherwise pos frame m',
    (Stmt.switch subject clauses otherwise pos).tidy = true →
    (((Stmt.switch subject clauses otherwise pos).raw ctx frame).run m = .ok () m' ↔
      ∃ m₁, ((switchBody ctx subject clauses otherwise m.frames.nextId).run
            (m.enter .switch frame) = .ok () m₁ ∨
          Stmt.SwitchJumps ctx .leave subject clauses otherwise m.frames.nextId
            (m.enter .switch frame) m₁) ∧
        m' = m₁.leave m.frames.nextId)
  /-- A misplaced jump is reported, and the statements behind it follow. -/
  misplaced : ∀ s f ss frame m₁, Stmt.Misplaced m.symbols.scopes s f →
    (Eval.tick ctx.config.limits s.pos).run m = .ok () m₁ →
    (Stmt.execAll ctx (s :: ss) frame).run m =
      (Stmt.execAll ctx ss frame).run (m₁.record ⟨.semantic, f.message, s.pos⟩)

section Constructs

open Discipline

variable {R : Regime} {ctx : Context} {frame : FrameId} {m m' : Machine}

/-- What the body of a loop leaves is tidy, however it ended. -/
theorem body_tidy (hc : lax.Calls R ctx) {body : List Stmt} (hb : Stmt.allTidy body = true)
    (frame : FrameId) (hm : m.Tidy) :
    ((Eval.inFrame frame fun inner => Stmt.execAll ctx body inner).run m).machine.Tidy := by
  have hkeeps : lax.Keeps R .statement
      (Eval.inFrame frame fun inner => Stmt.execAll ctx body inner) m fun _ _ => True :=
    keeps_inNewFrame (P := fun _ => True) (lax_home fun _ => hm) fun h =>
      keeps_execAll hc body _ (fun _ => hb) h
  exact hkeeps.ends.leads.settled.tidy hm

/-- **A loop that ends is a number of rounds.** -/
theorem rounds_runs (hc : lax.Calls R ctx) (ht : R.tidy) {check : Option Expr}
    {post : Option Stmt} {body : List Stmt} {pos : Position} (hb : Stmt.allTidy body = true)
    (hp : post.all Stmt.isSimple = true) : ∀ (n : Nat) {m m' : Machine}, m.Tidy →
    ((Eval.rounds (Eval.loopCheck ctx check pos frame)
        (Eval.inFrame frame fun inner => Stmt.execAll ctx body inner)
        (Stmt.execOptional ctx post frame) n).run m = .ok () m' ↔
      ∃ k < n, LoopRuns ctx check post body pos frame k m m')
  | 0, _, _, _ =>
    ⟨fun h => (by cases h), fun ⟨_, hk, _⟩ => absurd hk (Nat.not_lt_zero _)⟩
  | n + 1, m, m', hm => by
    have hcheck : lax.Keeps R .expression (Eval.loopCheck ctx check pos frame) m _ :=
      keeps_loopCheck hc (lax_ready fun _ => hm)
    have hbody : ∀ j, JumpsExactly ctx j body := fun j inner => execAll_jumps hc ht body inner hb
    have hpost : ∀ {m₂ m₃}, m₂.Tidy → (Stmt.execOptional ctx post frame).run m₂ = .ok () m₃ →
        m₃.Tidy := fun h₂ hr => (keeps_optional hc post frame (fun _ => hp)
      (lax_home fun _ => h₂)).tidy_of_ok h₂ hr
    rw [Eval.rounds_succ]
    constructor
    · rintro (hr | ⟨m₁, hr, hr₂ | ⟨m₂, m₃, hr₂ | hr₂, hr₃, h⟩⟩)
      · exact ⟨0, Nat.succ_pos n, .done hr⟩
      · have h₁ := hcheck.tidy_of_ok hm hr
        obtain ⟨m₀, hj, rfl⟩ := (inFrame_jumps h₁ (hbody .leave)).mp hr₂
        exact ⟨0, Nat.succ_pos n, .left hr hj⟩
      · have h₂ := body_tidy hc hb frame (hcheck.tidy_of_ok hm hr)
        rw [hr₂] at h₂
        obtain ⟨k, hk, hrest⟩ := (rounds_runs hc ht hb hp n (hpost h₂ hr₃)).mp h
        exact ⟨k + 1, by omega, .round hr hr₂ hr₃ hrest⟩
      · have h₁ := hcheck.tidy_of_ok hm hr
        have h₂ := body_tidy hc hb frame h₁
        rw [hr₂] at h₂
        obtain ⟨k, hk, hrest⟩ := (rounds_runs hc ht hb hp n (hpost h₂ hr₃)).mp h
        obtain ⟨m₀, hj, rfl⟩ := (inFrame_jumps h₁ (hbody .goOn)).mp hr₂
        exact ⟨k + 1, by omega, .next hr hj hr₃ hrest⟩
    · rintro ⟨k, hk, h⟩
      cases h with
      | done hr => exact .inl hr
      | left hr hj =>
        have h₁ := hcheck.tidy_of_ok hm hr
        exact .inr ⟨_, hr, .inl ((inFrame_jumps h₁ (hbody .leave)).mpr ⟨_, hj, rfl⟩)⟩
      | round hr hr₂ hr₃ h =>
        have h₂ := body_tidy hc hb frame (hcheck.tidy_of_ok hm hr)
        rw [hr₂] at h₂
        have hrest := (rounds_runs hc ht hb hp n (hpost h₂ hr₃)).mpr ⟨_, by omega, h⟩
        exact .inr ⟨_, hr, .inr ⟨_, _, .inl hr₂, hr₃, hrest⟩⟩
      | next hr hj hr₃ h =>
        have h₁ := hcheck.tidy_of_ok hm hr
        have hr₂ := (inFrame_jumps h₁ (hbody .goOn)).mpr ⟨_, hj, rfl⟩
        have h₂ := body_tidy hc hb frame h₁
        rw [hr₂] at h₂
        have hrest := (rounds_runs hc ht hb hp n (hpost h₂ hr₃)).mpr ⟨_, by omega, h⟩
        exact .inr ⟨_, hr, .inr ⟨_, _, .inr hr₂, hr₃, hrest⟩⟩

/-- **A loop ends after a number of rounds,** and with it its scope and frame. -/
theorem loop_runs (hc : lax.Calls R ctx) (ht : R.tidy) {init post : Option Stmt}
    {check : Option Expr} {body : List Stmt} {pos : Position}
    (hs : (Stmt.loop init check post body pos).tidy = true) (hm : m.Tidy) :
    ((Stmt.loop init check post body pos).raw ctx frame).run m = .ok () m' ↔
      ∃ m₁ k m₂, (Stmt.execOptional ctx init m.frames.nextId).run (m.enter .loop frame) =
          .ok () m₁ ∧ k < ctx.rounds ∧
        LoopRuns ctx check post body pos m.frames.nextId k m₁ m₂ ∧
        m' = m₂.leave m.frames.nextId := by
  obtain ⟨⟨hi, hp⟩, hb⟩ : (init.all Stmt.isSimple = true ∧ post.all Stmt.isSimple = true) ∧
      Stmt.allTidy body = true := by simpa [Stmt.tidy] using hs
  have hm' : (m.enter .loop frame).Tidy := hm
  have hinit : lax.Keeps R .loop (Stmt.execOptional ctx init m.frames.nextId) (m.enter .loop frame)
      _ := keeps_optional hc init _ (fun _ => hi) (lax_home fun _ => hm')
  change (Eval.inScope .loop (Eval.inFrame frame fun inner => do
    Stmt.execOptional ctx init inner
    Eval.rounds (Eval.loopCheck ctx check pos inner)
      (Eval.inFrame inner fun inner => Stmt.execAll ctx body inner)
      (Stmt.execOptional ctx post inner) ctx.rounds)).run m = _ ↔ _
  rw [Eval.run_inBlock, Outcome.after_eq_ok]
  constructor
  · rintro ⟨m₂, h, rfl⟩
    obtain ⟨_, m₁, hr, h⟩ := Eval.run_bind_ok.mp h
    obtain ⟨k, hk, h⟩ := (rounds_runs hc ht hb hp _ (hinit.tidy_of_ok hm' hr)).mp h
    exact ⟨m₁, k, m₂, hr, hk, h, rfl⟩
  · rintro ⟨m₁, k, m₂, hr, hk, h, rfl⟩
    have hrest := (rounds_runs hc ht hb hp _ (hinit.tidy_of_ok hm' hr)).mpr ⟨k, hk, h⟩
    exact ⟨m₂, Eval.run_bind_ok.mpr ⟨(), m₁, hr, hrest⟩, rfl⟩

/-- **A switch ends with its cases or with a `break` in one of them,** and with it its scope and
frame. -/
theorem switch_runs (hc : lax.Calls R ctx) (ht : R.tidy) {subject : Expr}
    {clauses : List (Clause Stmt)} {otherwise : Option (List Stmt)} {pos : Position}
    (hs : (Stmt.switch subject clauses otherwise pos).tidy = true) (hm : m.Tidy) :
    ((Stmt.switch subject clauses otherwise pos).raw ctx frame).run m = .ok () m' ↔
      ∃ m₁, ((switchBody ctx subject clauses otherwise m.frames.nextId).run
            (m.enter .switch frame) = .ok () m₁ ∨
          Stmt.SwitchJumps ctx .leave subject clauses otherwise m.frames.nextId
            (m.enter .switch frame) m₁) ∧
        m' = m₁.leave m.frames.nextId := by
  obtain ⟨hcl, ho⟩ : Stmt.clausesTidy clauses = true ∧ Stmt.otherwiseTidy otherwise = true := by
    simpa [Stmt.tidy] using hs
  have hm' : (m.enter .switch frame).Tidy := hm
  change (Eval.inScope .switch (Eval.inFrame frame fun inner =>
    Eval.untilBreak (switchBody ctx subject clauses otherwise inner))).run m = _ ↔ _
  rw [Eval.run_inBlock, Outcome.after_eq_ok]
  have hj : ∀ m₁, _ ↔ Stmt.SwitchJumps ctx .leave subject clauses otherwise m.frames.nextId
    (m.enter .switch frame) m₁ := fun m₁ => cases_jump (j := .leave) hc ht hcl ho hm'
  simp only [Eval.untilBreak_ok, ← hj]
  rfl

/-- **A misplaced jump is reported, and the statements behind it follow.** -/
theorem misplaced_goes_on {s : Stmt} {ss : List Stmt} {f : Fault} {m₁ : Machine}
    (h : s.Misplaced m.symbols.scopes f)
    (hr : (Eval.tick ctx.config.limits s.pos).run m = .ok () m₁) :
    (Stmt.execAll ctx (s :: ss) frame).run m =
      (Stmt.execAll ctx ss frame).run (m₁.record ⟨.semantic, f.message, s.pos⟩) := by
  have hscopes : m₁.symbols = m.symbols := by rw [Eval.tick_ok hr]
  have hraw : (s.raw ctx frame).run m₁ = .error (.fault f s.pos) m₁ := by
    rw [← hscopes] at h
    cases h with
    | leave h =>
      have ha : ¬ Jump.leave.allowed m₁.symbols = true := fun ha => h (Jump.allowed_iff.mp ha)
      exact (Jump.run_stmt .leave _ frame m₁).trans (if_neg ha)
    | goOn h =>
      have ha : ¬ Jump.goOn.allowed m₁.symbols = true := fun ha => h (Jump.allowed_iff.mp ha)
      exact (Jump.run_stmt .goOn _ frame m₁).trans (if_neg ha)
    | back h =>
      have hr : m₁.symbols.canReturn = false := by
        rw [Bool.eq_false_iff]
        intro hr
        obtain ⟨sc, hsc, hf⟩ := (SymbolTable.Raw.canReturn_iff (v := .nil)).mp hr
        exact absurd hf (by simp [h sc hsc])
      refine (Eval.run_bind_of_ok (a := m₁) rfl).trans ?_
      rw [hr]
      rfl
  refine Eval.run_bind_of_ok (a := ()) ((Eval.run_bind_of_ok hr).trans ?_)
  exact Eval.orElseReport_fault hraw

end Constructs

namespace Discipline

variable {R : Regime} {k : Mode} {m m' : Machine} {s : Signal} {α : Type} {x : Eval α}
  {post : α → Machine → Prop}

theorem Stops.enclosed (h : lax.Stops R k m s) (ht : R.tidy) : s.Enclosed m.symbols.scopes := by
  cases s with
  | broke => exact SymbolTable.Raw.canBreak_iff.mp (h ht).2
  | continued => exact SymbolTable.Raw.canContinue_iff.mp (h ht).2
  | returned v => exact SymbolTable.Raw.canReturn_iff.mp h.2.1
  | fault f pos => trivial
  | abort a pos => trivial
  | exhausted => trivial

theorem Keeps.enclosed (h : lax.Keeps R k x m post) (ht : R.tidy)
    (hr : x.run m = .error s m') : s.Enclosed m.symbols.scopes := by
  have he := h.ends
  rw [hr] at he
  rw [← he.1.settled.scopes]
  exact he.2.enclosed ht

theorem Keeps.not_jump (h : lax.Keeps R .expression x m post) (ht : R.tidy)
    (hr : x.run m = .error s m') : s.isJump = false := by
  have he := h.ends
  rw [hr] at he
  cases s with
  | broke => exact absurd (he.2 ht).1 (by simp [Mode.expression])
  | continued => exact absurd (he.2 ht).1 (by simp [Mode.expression])
  | returned v => exact absurd he.2.1 (by simp [Mode.expression])
  | fault f pos => rfl
  | abort a pos => rfl
  | exhausted => rfl

end Discipline

/-- In the global scope there is no room for a jump. -/
theorem Signal.not_jump_of_enclosed {s : Signal} (h : s.Enclosed [.global]) :
    s.isJump = false := by
  have hglobal : ∀ {inner outer : List Scope} {sc : Scope}, [.global] = inner ++ sc :: outer →
      sc = .global := fun {inner _ _} hs =>
    List.mem_singleton.mp (hs ▸ List.mem_append_right inner List.mem_cons_self)
  cases s with
  | broke =>
    obtain ⟨_, _, _, hs, hsc, -⟩ := h
    rw [hglobal hs] at hsc
    rcases hsc with hsc | hsc <;> cases hsc
  | continued =>
    obtain ⟨_, _, hs, -⟩ := h
    cases hglobal hs
  | returned v =>
    obtain ⟨sc, hmem, hsc⟩ := h
    rw [List.mem_singleton.mp hmem] at hsc
    cases hsc
  | _ => rfl

open Discipline in
/-- Whoever knows only tidy functions confines jumps. -/
theorem Machine.Tidy.confines {m : Machine} (hm : m.Tidy) (config : Config) (rounds levels : Nat) :
    m.Confines (.ofLevels config rounds levels) := by
  have hc := calls_ofLevels lax config rounds True levels
  have hr : ∀ frame, lax.Ready ⟨config.limits, rounds, levels, True⟩ m frame := fun frame =>
    lax_ready fun _ => hm
  constructor
  case eval =>
    intro e frame s m' h
    exact (keeps_raw hc e frame (hr frame)).settled.not_jump trivial h
  case call =>
    intro func args pos s m' hf h
    exact (hc.call func args pos trivial (fun _ => hm) (fun _ => hf)
      fun _ _ => trivial).not_jump trivial h
  case exec =>
    intro st frame s m' hs h
    exact (keeps_exec hc (fun _ => hs) (hr frame)).enclosed trivial h
  case jumps => exact fun j ss frame m' hs => execAll_jumps hc trivial ss frame hs hm
  case loop => exact fun _ _ _ _ _ _ _ hs => loop_runs hc trivial hs hm
  case switch => exact fun _ _ _ _ _ _ hs => switch_runs hc trivial hs hm
  case misplaced => exact fun _ _ _ _ _ h ht => misplaced_goes_on h ht

open Discipline in
/-- A program of tidy trees does not end in a jump: only the global scope is open. -/
theorem program_not_jump {config : Config} {p : Program} {m m' : Machine} {s : Signal}
    (h : lax.Rests True m) (hp : p.tidy = true)
    (hr : (Eval.program config.context p).run m = .error s m') : s.isJump = false := by
  obtain ⟨hrests, hstops⟩ := Discipline.program_ends config (fun _ => hp) h
  have hs := (hstops s m' hr).enclosed trivial
  rw [hr] at hrests
  rw [show m'.symbols.scopes = [.global] from hrests.scopes] at hs
  exact Signal.not_jump_of_enclosed hs

/-- **Jumps stay within their construct.** In every machine that a session of tidy programs
reaches, no expression and no call ends in a jump, statements only where the scopes have room for
it, each `break` and `continue` goes to the innermost loop or switch that takes it, and a misplaced
one is reported. No program ends in a jump. -/
theorem jumps_are_confined (config : Config) :
    (∀ rounds levels m, Machine.Reached config (fun p => p.tidy = true) m →
      m.Confines (.ofLevels config rounds levels)) ∧
    ∀ m (parsed : Parsed), Machine.Idle config (fun p => p.tidy = true) m →
      parsed.program.tidy = true → ∀ s m', (Eval.program config.context parsed.program).run
        { m with errors := m.errors.append parsed.errors } = .error s m' → s.isJump = false := by
  constructor
  · intro rounds levels m hm
    have hr := Discipline.runs_of_reached (D := .lax) (fun _ hp (_ : True) => hp) trivial trivial hm
    exact (hr.knows trivial).confines config rounds levels
  · intro m parsed hm hp s m' hr
    have hi := Discipline.rests_of_idle (D := .lax) (fun _ hp (_ : True) => hp) trivial trivial hm
    exact program_not_jump (hi.diagnosed _) hp hr

/-- Prints what a loop over 0, 1, 2, 3 does not skip: 1 and 3 by a `continue`, the latter from
within a switch, whose `break` at 2 ends only the switch. A `break` behind the loop is misplaced. -/
def jumpy : Program :=
  let o := Position.origin
  let i := Expr.name "i" o
  let is := fun text => Expr.binary .eq i (.int text o) o
  let skip := fun text => Stmt.ifElse [⟨is text, [.continueStmt o]⟩] none o
  ⟨[.func ⟨"main", [], [],
    [.loop (some (.shortDecl [⟨"i", o⟩] [.int "0" o] o)) (some (.binary .lt i (.int "4" o) o))
      (some (.step (.name "i") .increment o))
      [skip "1", .switch i [⟨[.int "2" o], [.breakStmt o], o⟩] (some [skip "3"]) o,
        .expr (.call "fmt.Println" [i] o) o] o,
      .breakStmt o,
      .expr (.call "fmt.Println" [.str "end" o] o) o]⟩ o]⟩

def afterJumpy : Machine := Machine.initial.executeParsed ⟨⟨3, none⟩, ""⟩ ⟨jumpy, []⟩

theorem jumpy_is_confined :
    jumpy.tidy = true ∧ afterJumpy.output = #["0", "2", "end"] ∧
      afterJumpy.errors.toList = [⟨.semantic, "break is not in a loop or switch", .origin⟩] ∧
      afterJumpy.Confines (Config.context ⟨⟨3, none⟩, ""⟩) ∧
      ∀ s m', (Eval.program (Config.context ⟨⟨3, none⟩, ""⟩) jumpy).run afterJumpy = .error s m' →
        s.isJump = false := by
  have ht : jumpy.tidy = true := by decide
  have hi : Machine.Idle ⟨⟨3, none⟩, ""⟩ (fun p => p.tidy = true) afterJumpy :=
    .executed ⟨jumpy, []⟩ ht .initial
  obtain ⟨hreached, hidle⟩ := jumps_are_confined ⟨⟨3, none⟩, ""⟩
  have hagain : ∀ m, Machine.Idle ⟨⟨3, none⟩, ""⟩ (fun p => p.tidy = true) m → ∀ s m',
      (Eval.program (Config.context ⟨⟨3, none⟩, ""⟩) jumpy).run m = .error s m' →
        s.isJump = false :=
    fun m hm => hidle m ⟨jumpy, []⟩ hm ht
  exact ⟨ht, by decide +kernel, by decide +kernel, hreached _ _ _ (.idle hi), hagain _ hi⟩

end Treewalk
