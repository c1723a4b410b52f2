/-
# The machines a session reaches

A session runs programs one after the other on one machine, under one
configuration. Between two programs the machine is idle; while a program runs
it goes through the machines that the program's action passes. In their order
these are the moments of the session. What a discipline says of them follows
from what it says of the machine before anything has run.

A program first hoists its functions, which changes nothing a discipline
looks at; all that comes after is evaluation in the global frame.

Key definitions: `Machine.Idle`, `Machine.Reached`, `Machine.Session`,
`Discipline.Rests`, `Discipline.Runs`, `Discipline.Stands`.
Key theorems: `Discipline.session_follows`, `Discipline.rests_of_idle`,
`Discipline.runs_of_reached`.
-/
import Treewalk.Proofs.Growth
import Treewalk.Proofs.Upkeep.Call
import Treewalk.Session

namespace Treewalk
namespace Machine

/-- The machine between the programs of a session, all of which satisfy `Q`. What was read of a
program may come with diagnostics of its own. -/
inductive Idle (config : Config) (Q : Program → Prop) : Machine → Prop
  | initial : Idle config Q .initial
  | executed {m : Machine} (parsed : Parsed) : Q parsed.program → Idle config Q m →
    Idle config Q (m.executeParsed config parsed)

/-- The machines a session reaches, between its programs and within them. -/
inductive Reached (config : Config) (Q : Program → Prop) : Machine → Prop
  | idle {m : Machine} : Idle config Q m → Reached config Q m
  | within {m p : Machine} (parsed : Parsed) : Q parsed.program → Idle config Q m →
    (Eval.program config.context parsed.program).passes
      { m with errors := m.errors.append parsed.errors } p →
    Reached config Q p

/-- The moments of a session one after the other, with the machine it leaves: those of each program,
and the one behind it. -/
inductive Session (config : Config) (Q : Program → Prop) : List Moment → Machine → Prop
  | initial : Session config Q [initial.still] .initial
  | executed {es fs : List Moment} {m : Machine} (parsed : Parsed) : Q parsed.program →
    Session config Q es m →
    (Eval.program config.context parsed.program).trace
      { m with errors := m.errors.append parsed.errors } fs →
    Session config Q (es ++ (fs ++ [(m.executeParsed config parsed).still]))
      (m.executeParsed config parsed)

section Session

variable {config : Config} {Q : Program → Prop} {es : List Moment} {m p : Machine} {e : Moment}

theorem Session.idle (h : Session config Q es m) : Idle config Q m := by
  induction h with
  | initial => exact .initial
  | executed parsed hp _ _ ih => exact .executed parsed hp ih

/-- A further program can always be run. -/
theorem Session.exists_executed (parsed : Parsed) (hp : Q parsed.program)
    (h : Session config Q es m) :
    ∃ fs, Session config Q (es ++ (fs ++ [(m.executeParsed config parsed).still]))
      (m.executeParsed config parsed) := by
  obtain ⟨fs, hfs⟩ := (Eval.program config.context parsed.program).traced _
  exact ⟨fs, .executed parsed hp h hfs⟩

theorem Idle.session (h : Idle config Q m) : ∃ es, Session config Q es m ∧ m.still ∈ es := by
  induction h with
  | initial => exact ⟨_, .initial, by simp⟩
  | executed parsed hp _ ih =>
    obtain ⟨es, hs, -⟩ := ih
    obtain ⟨fs, hfs⟩ := hs.exists_executed parsed hp
    exact ⟨_, hfs, by simp⟩

/-- A session meets machines that are reached, and no others. -/
theorem reached_iff :
    Reached config Q p ↔ ∃ es m, Session config Q es m ∧ ∃ e ∈ es, e.machine = p := by
  constructor
  · rintro (h | ⟨parsed, hp, h, hpass⟩)
    · obtain ⟨es, hs, hm⟩ := h.session
      exact ⟨es, p, hs, _, hm, rfl⟩
    · obtain ⟨es, hs, -⟩ := h.session
      obtain ⟨fs, hfs⟩ := (Eval.program config.context parsed.program).traced _
      obtain ⟨e, he, rfl⟩ := ((Eval.program config.context parsed.program).covers hfs p).mp hpass
      exact ⟨_, _, .executed parsed hp hs hfs, e, by simp [he], rfl⟩
  · rintro ⟨es, m, hs, e, he, rfl⟩
    induction hs with
    | initial =>
      rw [List.mem_singleton.mp he]
      exact .idle .initial
    | executed parsed hp hs hfs ih =>
      rcases List.mem_append.mp he with he | he
      · exact ih he
      rcases List.mem_append.mp he with he | he
      · exact .within parsed hp hs.idle ((Eval.covers _ hfs _).mpr ⟨e, he, rfl⟩)
      · rw [List.mem_singleton.mp he]
        exact .idle (.executed parsed hp hs.idle)

end Session

end Machine

/-! ### Hoisting -/

/-- The action ends in a result, and what holds before it holds all along. It opens no frame and
makes no event. -/
structure Eval.Preserves {α : Type} (x : Eval α) (I : Machine → Prop) : Prop where
  points : ∀ {m es}, I m → x.trace m es → ∀ e ∈ es, e = e.machine.still ∧ I e.machine
  ends : ∀ {m}, I m → ∃ a m', x.run m = .ok a m' ∧ I m'

namespace Eval

variable {α β : Type} {I : Machine → Prop}

theorem preserves_pure {a : α} : (pure a : Eval α).Preserves I :=
  ⟨by rintro m _ - rfl; simp, fun {m} h => ⟨a, m, rfl, h⟩⟩

theorem Preserves.bind {x : Eval α} {f : α → Eval β} (hx : x.Preserves I)
    (hf : ∀ a, (f a).Preserves I) : (x >>= f).Preserves I := by
  constructor
  · rintro m _ h ⟨es₁, es₂, h₁, h₂, rfl⟩ e he
    obtain ⟨a, m', hr, h'⟩ := hx.ends h
    rw [hr] at h₂
    rcases List.mem_append.mp he with he | he
    · exact hx.points h h₁ e he
    · exact (hf a).points h' h₂ e he
  · intro m h
    obtain ⟨a, m', hr, h'⟩ := hx.ends h
    obtain ⟨b, m'', hr', h''⟩ := (hf a).ends h'
    exact ⟨b, m'', (run_bind_of_ok hr).trans hr', h''⟩

theorem preserves_get : (get : Eval Machine).Preserves I :=
  ⟨by rintro m _ h rfl; simp [h, Machine.still], fun {m} h => ⟨m, m, rfl, h⟩⟩

theorem preserves_modifyGet {f : Machine → α × Machine} (hf : ∀ m, I m → I (f m).2) :
    (modifyGet f : Eval α).Preserves I := by
  constructor
  · rintro m _ h rfl
    simp [h, hf m h, Machine.still]
  · intro m h
    exact ⟨(f m).1, (f m).2, rfl, hf m h⟩

theorem preserves_modify {f : Machine → Machine} (hf : ∀ m, I m → I (f m)) :
    (modify f : Eval Unit).Preserves I :=
  preserves_modifyGet hf

end Eval

/-- What hoisting leaves alone: all but the known functions, the symbols and the diagnostics. -/
structure Machine.Hoists (tidy : Prop) (m m' : Machine) : Prop where
  memory : m'.memory = m.memory
  scopes : m'.symbols.scopes = m.symbols.scopes
  depth : m'.depth = m.depth
  steps : m'.steps = m.steps
  tidy : tidy → m'.Tidy

section Hoisting

variable {tidy : Prop} {m : Machine}

theorem preserves_declareFunction {d : Declared} :
    (Eval.declareFunction d).Preserves (m.Hoists tidy) := by
  refine (Eval.preserves_modifyGet fun m' h => ?_).bind fun _ => Eval.preserves_pure
  exact ⟨h.memory, (SymbolTable.scopes_declare ..).trans h.scopes, h.depth, h.steps, h.tidy⟩

theorem preserves_report {f : Fault} {pos : Position} :
    (Eval.report f pos).Preserves (m.Hoists tidy) :=
  Eval.preserves_modify fun _ h => ⟨h.memory, h.scopes, h.depth, h.steps, h.tidy⟩

theorem tidy_put {m : Machine} {f : FuncDecl} {name : String} (h : m.Tidy) (hf : f.tidy = true) :
    Machine.Tidy { m with functions := m.functions.put name f } := by
  intro other g hg
  by_cases hn : other = name
  · subst hn
    rw [Table.lookup_put_self] at hg
    cases hg
    exact hf
  · rw [Table.lookup_put_of_ne _ _ hn] at hg
    exact h other g hg

theorem preserves_hoist {d : Declared} (hd : tidy → d.func.tidy = true) :
    (Eval.hoist d).Preserves (m.Hoists tidy) := by
  refine Eval.preserves_get.bind fun m₁ => ?_
  by_cases hs : (m₁.functions.lookup d.func.name).isSome = true
  · simp only [if_pos hs]
    exact preserves_report
  · simp only [if_neg hs]
    refine preserves_declareFunction.bind fun _ => Eval.preserves_modify fun m' h => ?_
    exact ⟨h.memory, h.scopes, h.depth, h.steps, fun t => tidy_put (h.tidy t) (hd t)⟩

theorem preserves_hoistAll : ∀ (ds : List Declared) (seen : Bool),
    (tidy → ∀ d ∈ ds, d.func.tidy = true) → (Eval.hoistAll ds seen).Preserves (m.Hoists tidy)
  | [], _, _ => Eval.preserves_pure
  | d :: ds, seen, hd => by
    have hds : ∀ seen, (Eval.hoistAll ds seen).Preserves (m.Hoists tidy) := fun seen =>
      preserves_hoistAll ds seen fun t e he => hd t e (by simp [he])
    unfold Eval.hoistAll
    by_cases hm : d.func.name = "main"
    · simp only [if_pos hm]
      cases seen with
      | true => exact preserves_report.bind fun _ => hds true
      | false => exact hds true
    · simp only [if_neg hm]
      exact (preserves_hoist fun t => hd t d (by simp)).bind fun _ => hds seen

end Hoisting

theorem Program.tidy_functions {p : Program} (h : p.tidy = true) :
    ∀ d ∈ p.functions, d.func.tidy = true := by
  intro d hd
  obtain ⟨s, hs, hds⟩ := List.mem_filterMap.mp hd
  have ht := (Stmt.allTidy_iff _).mp h s hs
  cases s with
  | func f pos => cases hds; exact ht
  | _ => cases hds

theorem Program.tidy_globals {p : Program} (h : p.tidy = true) :
    ∀ s ∈ p.globals, s.tidy = true :=
  fun s hs => (Stmt.allTidy_iff _).mp h s ((List.mem_filter.mp hs).1)

/-! ### Programs -/

/-- The bounds a program runs under. -/
def Config.regime (config : Config) (tidy : Prop) : Regime where
  limits := config.limits
  rounds := config.limits.maxSteps.getD UInt64.size + 1
  levels := config.limits.maxDepth + 1
  tidy := tidy

namespace Discipline

variable (D : Discipline)

/-- What a discipline says of a machine between two programs. -/
structure Rests (tidy : Prop) (m : Machine) : Prop where
  scopes : m.symbols.scopes = [.global]
  depth : m.depth = 0
  inv : D.Inv m.memory
  frm : D.Frm m.memory Frames.globalId
  knows : tidy → m.Tidy
  owns : D.Owns m.memory Frames.globalId
  live : ∀ f, m.frames.isLive f = true ↔ f = Frames.globalId

/-- What a discipline says of a machine while a program runs. -/
structure Runs (tidy : Prop) (limits : Limits) (m : Machine) : Prop where
  depth : m.depth = m.symbols.scopes.countP Scope.isFunction
  bounded : m.depth ≤ limits.maxDepth
  inv : D.Inv m.memory
  knows : tidy → m.Tidy

/-- What a discipline says of a moment of a session. The frames that are there are the global one
and those of what is being executed. -/
structure Stands (tidy : Prop) (limits : Limits) (e : Moment) : Prop
    extends Runs D tidy limits e.machine where
  live : ∀ f, e.machine.frames.isLive f = true ↔ f = Frames.globalId ∨ f ∈ e.frames
  vals : ∀ v ∈ e.values, D.Val e.memory v
  declares : ∀ {f name role}, e.event = some (.declared f name role) →
    D.Declares e.memory f name role

variable {D} {R : Regime} {m p : Machine} {ctx : Context} {tidy : Prop} {config : Config}

theorem Rests.runs (h : D.Rests tidy m) (limits : Limits) : D.Runs tidy limits m :=
  ⟨by simp [h.depth, h.scopes, Scope.isFunction], by simp [h.depth], h.inv, h.knows⟩

theorem Rests.stands (h : D.Rests tidy m) (limits : Limits) : D.Stands tidy limits m.still :=
  ⟨h.runs limits, fun f => by simp [Machine.still, h.live f],
    by simp [Machine.still, Moment.values], fun he => nomatch he⟩

theorem Rests.of_memory_eq {m' : Machine} (h : D.Rests tidy m) (hm : m'.memory = m.memory)
    (hs : m'.symbols.scopes = m.symbols.scopes) (hd : m'.depth = m.depth) (ht : tidy → m'.Tidy) :
    D.Rests tidy m' := by
  have hf : m'.frames = m.frames := congrArg Memory.frames hm
  refine ⟨hs.trans h.scopes, hd.trans h.depth, ?_, ?_, ht, ?_, fun f => by rw [hf]; exact h.live f⟩
  · rw [hm]; exact h.inv
  · rw [hm]; exact h.frm
  · rw [hm]; exact h.owns

theorem Rests.of_hoists {m' : Machine} (h : D.Rests tidy m) (hm : m.Hoists tidy m') :
    D.Rests tidy m' :=
  h.of_memory_eq hm.memory hm.scopes hm.depth hm.tidy

theorem Rests.diagnosed (h : D.Rests tidy m) (errors : ErrorLog) :
    D.Rests tidy { m with errors := errors } :=
  h.of_memory_eq rfl rfl rfl h.knows

theorem Rests.of_leads {m' : Machine} (h : D.Rests tidy m) (hl : D.Leads m m') :
    D.Rests tidy m' :=
  ⟨hl.settled.scopes.trans h.scopes, hl.settled.depth.trans h.depth, hl.inv,
    D.frm_later hl.later h.frm, fun t => hl.settled.tidy (h.knows t),
    fun role hr => D.own_later hl.later (h.owns role hr),
    fun f => by rw [hl.settled.live f]; exact h.live f⟩

/-- What is met from a machine at rest on has opened all its scopes itself. -/
theorem Rests.runs_of_inside {limits : Limits} (h : D.Rests tidy m) (hi : m.Inside limits p)
    (hp : D.Inv p.memory) : D.Runs tidy limits p := by
  obtain ⟨inner, hs, hd⟩ := hi.scopes
  refine ⟨?_, ?_, hp, fun t => ?_⟩
  · rw [hd, hs, h.scopes, h.depth, List.countP_append, Nat.zero_add]
    rfl
  · have := hi.depth
    rw [h.depth] at this
    omega
  · unfold Machine.Tidy
    rw [hi.functions]
    exact h.knows t

theorem Rests.stands_of_point {e : Moment} (h : D.Rests tidy m) (he : D.Point R m e) :
    D.Stands tidy R.limits e :=
  ⟨h.runs_of_inside he.inside he.inv, fun f => by rw [he.opens f, h.live f], he.vals,
    he.declares⟩

theorem keeps_declareFunction {d : Declared} {k : Mode} (h : D.Inv m.memory) :
    D.Keeps R k (Eval.declareFunction d) m fun _ _ => True :=
  (keeps_modifyGet (P := fun _ _ => True)
    (.of_memory_eq h (.of_eq (SymbolTable.scopes_declare ..) rfl rfl (Nat.le_refl _) rfl) rfl) h
      (D.past_refl _) trivial).bind fun _ _ hl _ => keeps_pure hl.inv trivial

theorem keeps_globals (hc : D.Calls R ctx) : ∀ (ss : List Stmt) {m : Machine},
    (R.tidy → ∀ s ∈ ss, s.tidy = true) → D.Home R m Frames.globalId →
    D.Keeps R .statement (ss.forM fun s => s.exec ctx Frames.globalId) m fun _ _ => True
  | [], _, _, h => keeps_pure h.inv trivial
  | s :: ss, m, ht, h => by
    refine ((keeps_exec hc (fun t => ht t s (by simp)) h.toReady h.owns).widen
      (Mode.le_statement _)).bind fun _ m' hl _ => ?_
    exact keeps_globals hc ss (fun t s' hs' => ht t s' (by simp [hs'])) (h.of_leads hl)

/-- A program behind its hoisting. -/
theorem keeps_program (hc : D.Calls R ctx) {p : Program} (ht : R.tidy → p.tidy = true)
    (h : D.Home R m Frames.globalId) :
    D.Keeps R .statement (do
      p.globals.forM fun s => s.exec ctx Frames.globalId
      match p.main? with
      | some d =>
        Eval.declareFunction d
        let _ ← ctx.call d.func [] d.pos
      | none => pure ()) m fun _ _ => True := by
  refine (keeps_globals hc p.globals (fun t => Program.tidy_globals (ht t)) h).bind
    fun _ m₁ hl₁ _ => ?_
  have h₁ := h.of_leads hl₁
  cases hm : p.main? with
  | none => exact keeps_pure h₁.inv trivial
  | some d =>
    refine (keeps_declareFunction h₁.inv).bind fun _ m₂ hl₂ _ => ?_
    have h₂ := h₁.of_leads hl₂
    have hd : R.tidy → d.func.tidy = true := fun t =>
      Program.tidy_functions (ht t) d (List.mem_of_find?_eq_some hm)
    refine (hc.call d.func [] d.pos h₂.inv h₂.knows hd (by simp)).weaken.bind fun _ m₃ hl₃ _ => ?_
    exact keeps_pure hl₃.inv trivial

/-- What a program begins its evaluation with. -/
theorem Rests.home (h : D.Rests tidy m) : D.Home (config.regime tidy) m Frames.globalId :=
  ⟨⟨h.inv, h.knows, h.frm⟩, h.owns⟩

/-- A program is its hoisting, which ends in a machine at rest, and what comes after. -/
theorem program_hoists {p : Program} (ht : tidy → p.tidy = true) (h : D.Rests tidy m) :
    ∃ m', (Eval.hoistAll p.functions false).run m = .ok () m' ∧ m.Hoists tidy m' := by
  obtain ⟨u, m', hr, hm⟩ := (preserves_hoistAll (m := m) p.functions false
    fun t => Program.tidy_functions (ht t)).ends ⟨rfl, rfl, rfl, rfl, h.knows⟩
  exact ⟨m', hr, hm⟩

/-- While nothing happens to the memory, there is nothing to follow. -/
theorem follows_of_memory_eq {T : Moment → Prop} {E : Prop} {μ : Memory} (hE : E) :
    ∀ {es : List Moment}, (∀ e ∈ es, e.memory = μ ∧ T e) → D.Follows T μ E μ es
  | [], _ => ⟨D.past_refl _, hE⟩
  | e :: es, h => by
    obtain ⟨hm, hT⟩ := h e (by simp)
    refine fun _ => ⟨.inl (hm ▸ D.past_refl _), hT, ?_⟩
    rw [hm]
    exact follows_of_memory_eq hE fun e' he' => h e' (by simp [he'])

/-- **A program keeps every discipline,** at all moments and to its end. -/
theorem program_follows (config : Config) {p : Program} {es : List Moment}
    (ht : tidy → p.tidy = true) (h : D.Rests tidy m) (hes : (Eval.program config.context p).trace m es) :
    D.Follows (D.Stands tidy config.limits) ((Eval.program config.context p).run m).machine.memory
      (D.Rests tidy ((Eval.program config.context p).run m).machine ∧
        ∀ s m', (Eval.program config.context p).run m = .error s m' →
          D.Stops (config.regime tidy) .statement m' s) m.memory es := by
  obtain ⟨m₁, hr, hm⟩ := program_hoists ht h
  have h₁ := h.of_hoists hm
  have hc : D.Calls (config.regime tidy) config.context := calls_ofLevels D config _ tidy _
  have hk := keeps_program hc ht h₁.home
  unfold Eval.program at hes ⊢
  obtain ⟨es₁, es₂, hes₁, hes₂, rfl⟩ := hes
  rw [hr] at hes₂
  rw [Eval.run_bind_of_ok hr]
  have hends : D.Follows (D.Stands tidy config.limits) m.memory True m.memory es₁ := by
    -- while functions are hoisted, the machine is at rest
    refine follows_of_memory_eq trivial fun e he => ?_
    obtain ⟨hstill, hhoists⟩ := (preserves_hoistAll (m := m) p.functions false
      fun t => Program.tidy_functions (ht t)).points ⟨rfl, rfl, rfl, rfl, h.knows⟩ hes₁ e he
    rw [hstill]
    exact ⟨hhoists.memory, (h.of_hoists hhoists).stands _⟩
  refine hends.append fun _ => ?_
  rw [← hm.memory]
  exact (hk es₂ hes₂).imp (fun e he => h₁.stands_of_point he) fun hE =>
    ⟨h₁.of_leads hE.leads, fun s m' hs => hE.stops hs⟩

theorem memory_execute (m : Machine) (config : Config) (p : Program) :
    (m.execute config p).memory = ((Eval.program config.context p).run m).machine.memory := by
  unfold Machine.execute
  split <;> rename_i hr <;> rw [hr] <;> rfl

theorem execute_rests {p : Program}
    (h : D.Rests tidy ((Eval.program config.context p).run m).machine) :
    D.Rests tidy (m.execute config p) := by
  unfold Machine.execute
  cases hr : (Eval.program config.context p).run m with
  | ok a m' => rw [hr] at h; exact h
  | error s m' =>
    rw [hr] at h
    cases s with
    | abort a pos => exact h.diagnosed _
    | _ => exact h

theorem rests_initial (hi : D.Inv Machine.initial.memory)
    (hg : D.Frm Machine.initial.memory Frames.globalId)
    (ho : D.Owns Machine.initial.memory Frames.globalId := by exact fun _ _ => trivial) :
    D.Rests tidy .initial :=
  ⟨rfl, rfl, hi, hg, fun _ _ _ h => (nomatch h), ho, Frames.isLive_initial⟩

section Session

variable {Q : Program → Prop} {es : List Moment} (hQ : ∀ p, Q p → tidy → p.tidy = true)
include hQ

/-- **A session keeps every discipline,** if its beginning does. -/
theorem session_follows (h : Machine.Session config Q es m) (hi : D.Rests tidy .initial) :
    D.Follows (D.Stands tidy config.limits) m.memory (D.Rests tidy m) Machine.initial.memory es := by
  induction h with
  | initial =>
    refine follows_of_memory_eq hi fun e he => ?_
    rw [List.mem_singleton.mp he]
    exact ⟨rfl, hi.stands _⟩
  | @executed es fs m parsed hp _ hfs ih =>
    refine ih.append fun hm => ?_
    refine (program_follows config (hQ _ hp) (hm.diagnosed _) hfs).append fun hm' => ?_
    have hmem := memory_execute { m with errors := m.errors.append parsed.errors } config
      parsed.program
    have hrest : D.Rests tidy (m.executeParsed config parsed) := execute_rests hm'.1
    rw [← hmem]
    refine follows_of_memory_eq hrest fun e he => ?_
    rw [List.mem_singleton.mp he]
    exact ⟨rfl, hrest.stands _⟩

variable (hi : D.Inv Machine.initial.memory) (hg : D.Frm Machine.initial.memory Frames.globalId)
include hi hg

/-- What a discipline says of the machine between two programs, if it says it at first. -/
theorem rests_of_idle (h : Machine.Idle config Q m)
    (hD : D.Loose := by exact {})
    (ho : D.Owns Machine.initial.memory Frames.globalId := by exact fun _ _ => trivial) :
    D.Rests tidy m := by
  obtain ⟨es, hs, -⟩ := h.session
  exact ((session_follows hQ hs (rests_initial hi hg ho)).of_loose hD).2

/-- What a discipline says of every machine that a session reaches. -/
theorem runs_of_reached (h : Machine.Reached config Q m)
    (hD : D.Loose := by exact {})
    (ho : D.Owns Machine.initial.memory Frames.globalId := by exact fun _ _ => trivial) :
    D.Runs tidy config.limits m := by
  obtain ⟨es, m', hs, e, he, rfl⟩ := Machine.reached_iff.mp h
  exact (((session_follows hQ hs (rests_initial hi hg ho)).of_loose hD).1 e he).toRuns

end Session

/-- How a program ends. -/
theorem program_ends (config : Config) {p : Program} (ht : tidy → p.tidy = true)
    (h : D.Rests tidy m) (hD : D.Loose := by exact {}) :
    D.Rests tidy ((Eval.program config.context p).run m).machine ∧
      ∀ s m', (Eval.program config.context p).run m = .error s m' →
        D.Stops (config.regime tidy) .statement m' s := by
  obtain ⟨es, hes⟩ := (Eval.program config.context p).traced m
  exact ((program_follows config ht h hes).of_loose hD).2

end Discipline

end Treewalk
