/-
# Where jumps go

A `break` or `continue` that is executed ends everything up to the loop or
switch that takes it up. `Stmt.Jumps` says of a statement that its execution
arrives at such a jump, and how: through statements that ended before it,
through blocks and the branches of an `if`, and for a `continue` also through
the cases of a switch. There is no way through a loop, nor through a switch
for a `break`, nor through a call. That is all there is to it: a statement
ends in the signal of a jump exactly when it arrives at one (`raw_jumps`).

Whether a jump is taken is read off the open scopes. `Signal.Enclosed` says
what they have to be.

Key definitions: `Signal.Enclosed`, `Jump`, `Stmt.Jumps`, `Stmt.AllJump`.
Key theorems: `Jump.allowed_iff`, `raw_jumps`, `execAll_jumps`.
-/
import Treewalk.Proofs.Balance
import Treewalk.Proofs.Outcome

namespace Treewalk

/-- Where the scopes have room for a signal: a `break` has a loop or switch around it within the
nearest function, a `continue` a loop, and a `return` a function. -/
def Signal.Enclosed (scopes : List Scope) : Signal → Prop
  | .broke => ∃ inner sc outer, scopes = inner ++ sc :: outer ∧ (sc = .loop ∨ sc = .switch) ∧
    ∀ t ∈ inner, t.isFunction = false
  | .continued => ∃ inner outer, scopes = inner ++ .loop :: outer ∧
    ∀ t ∈ inner, t.isFunction = false
  | .returned _ => ∃ sc ∈ scopes, sc.isFunction = true
  | _ => True

/-- A jump within a function. -/
inductive Jump where
  /-- Out of a loop or switch: `break`. -/
  | leave
  /-- To the next round of a loop: `continue`. -/
  | goOn
  deriving DecidableEq

namespace Jump

def signal : Jump → Signal
  | leave => .broke
  | goOn => .continued

def stmt (pos : Position) : Jump → Stmt
  | leave => .breakStmt pos
  | goOn => .continueStmt pos

def allowed (t : SymbolTable) : Jump → Bool
  | leave => t.canBreak
  | goOn => t.canContinue

/-- What is wrong with a jump where it is not allowed. -/
def misplaced : Jump → Fault
  | leave => .misplacedBreak
  | goOn => .misplacedContinue

end Jump

/-- The modes whose actions may end in a jump. -/
def Mode.admits (k : Mode) : Jump → Bool
  | .leave => k.breaks
  | .goOn => k.continues

namespace Stmt

variable (ctx : Context) (j : Jump)

/-- Whether the body of a case runs: it stands behind the one that matched, or it matches. -/
def caseRuns (subject : Value) (es : List Expr) (found : Bool) (frame : FrameId) : Eval Bool :=
  if found then pure true else Eval.caseMatches ctx subject frame es

mutual

/-- Executing a statement from `m` arrives at a jump that no loop or switch within it takes up, and
leaves `m'`. -/
inductive Jumps : Stmt → FrameId → Machine → Machine → Prop
  | here {s pos frame m} : s = j.stmt pos → j.signal.Enclosed m.symbols.scopes →
    Jumps s frame m m
  | block {body pos frame m m'} : AllJump body m.frames.nextId (m.enter .block frame) m' →
    Jumps (.block body pos) frame m (m'.leave m.frames.nextId)
  | branch {branches otherwise pos frame m m'} : BranchJumps branches frame m m' →
    Jumps (.ifElse branches otherwise pos) frame m m'
  | otherwise {branches body pos frame m m₁ m'} :
    (execBranches ctx branches frame).run m = .ok false m₁ →
    AllJump body m₁.frames.nextId (m₁.enter .elseBlock frame) m' →
    Jumps (.ifElse branches (some body) pos) frame m (m'.leave m₁.frames.nextId)
  | switch {subject clauses otherwise pos frame m m'} : j = .goOn →
    SwitchJumps subject clauses otherwise m.frames.nextId (m.enter .switch frame) m' →
    Jumps (.switch subject clauses otherwise pos) frame m (m'.leave m.frames.nextId)

/-- One of the statements arrives at a jump, those before it having ended. -/
inductive AllJump : List Stmt → FrameId → Machine → Machine → Prop
  | first {s ss frame m m₁ m'} : (Eval.tick ctx.config.limits s.pos).run m = .ok () m₁ →
    Jumps s frame m₁ m' → AllJump (s :: ss) frame m m'
  | later {s ss frame m m₁ m'} : (s.exec ctx frame).run m = .ok () m₁ →
    AllJump ss frame m₁ m' → AllJump (s :: ss) frame m m'

/-- The branch whose condition holds arrives at a jump. -/
inductive BranchJumps : List (Branch Stmt) → FrameId → Machine → Machine → Prop
  | taken {e body rest frame m m₁ m'} : (Eval.condition ctx e frame).run m = .ok true m₁ →
    AllJump body m₁.frames.nextId (m₁.enter .ifBlock frame) m' →
    BranchJumps (⟨e, body⟩ :: rest) frame m (m'.leave m₁.frames.nextId)
  | passed {e body rest frame m m₁ m'} : (Eval.condition ctx e frame).run m = .ok false m₁ →
    BranchJumps rest frame m₁ m' → BranchJumps (⟨e, body⟩ :: rest) frame m m'

/-- A case of a switch, or what stands for all others, arrives at a jump. -/
inductive SwitchJumps : Expr → List (Clause Stmt) → Option (List Stmt) → FrameId → Machine →
    Machine → Prop
  | clause {subject clauses otherwise frame m m₁ m' v} :
    (subject.operand ctx frame).run m = .ok v m₁ → ClauseJumps v clauses false frame m₁ m' →
    SwitchJumps subject clauses otherwise frame m m'
  | otherwise {subject clauses body frame m m₁ m₂ m' v} :
    (subject.operand ctx frame).run m = .ok v m₁ →
    (execClauses ctx v clauses false frame).run m₁ = .ok false m₂ →
    AllJump body m₂.frames.nextId (m₂.openIn frame) m' →
    SwitchJumps subject clauses (some body) frame m (m'.close m₂.frames.nextId)

/-- A case arrives at a jump: the first that matches, or one behind it. -/
inductive ClauseJumps : Value → List (Clause Stmt) → Bool → FrameId → Machine → Machine → Prop
  | runs {v es body pos rest found frame m m₁ m'} :
    (caseRuns ctx v es found frame).run m = .ok true m₁ →
    AllJump body m₁.frames.nextId (m₁.openIn frame) m' →
    ClauseJumps v (⟨es, body, pos⟩ :: rest) found frame m (m'.close m₁.frames.nextId)
  | behind {v es body pos rest found frame m m₁ m₂ m'} :
    (caseRuns ctx v es found frame).run m = .ok true m₁ →
    (Eval.inFrame frame fun inner => execAll ctx body inner).run m₁ = .ok () m₂ →
    ClauseJumps v rest true frame m₂ m' →
    ClauseJumps v (⟨es, body, pos⟩ :: rest) found frame m m'
  | passed {v es body pos rest found frame m m₁ m'} :
    (caseRuns ctx v es found frame).run m = .ok false m₁ → ClauseJumps v rest false frame m₁ m' →
    ClauseJumps v (⟨es, body, pos⟩ :: rest) found frame m m'

end

end Stmt

/-! ### What the scopes allow -/

theorem SymbolTable.Raw.encloses_iff {accept : Scope → Bool} {scopes : List Scope} :
    encloses accept scopes = true ↔ ∃ inner sc outer, scopes = inner ++ sc :: outer ∧
      accept sc = true ∧ ∀ t ∈ inner, t.isFunction = false := by
  induction scopes with
  | nil => simp [encloses]
  | cons s rest ih =>
    simp only [encloses, Bool.or_eq_true, Bool.and_eq_true, Bool.not_eq_true', ih]
    constructor
    · rintro (h | ⟨hf, inner, sc, outer, rfl, ha, hi⟩)
      · exact ⟨[], s, rest, rfl, h, by simp⟩
      · exact ⟨s :: inner, sc, outer, rfl, ha, by simpa using ⟨hf, hi⟩⟩
    · rintro ⟨inner, sc, outer, he, ha, hi⟩
      cases inner with
      | nil => cases he; exact .inl ha
      | cons t inner =>
        cases he
        have hi' : s.isFunction = false ∧ ∀ t ∈ inner, t.isFunction = false := by simpa using hi
        exact .inr ⟨hi'.1, inner, sc, outer, rfl, ha, hi'.2⟩

theorem SymbolTable.Raw.canBreak_iff {t : SymbolTable.Raw} :
    t.canBreak = true ↔ Signal.broke.Enclosed t.scopes := by
  simp [canBreak, encloses_iff, Signal.Enclosed]

theorem SymbolTable.Raw.canContinue_iff {t : SymbolTable.Raw} :
    t.canContinue = true ↔ Signal.continued.Enclosed t.scopes := by
  rw [canContinue, encloses_iff]
  constructor
  · rintro ⟨inner, sc, outer, hs, ha, hi⟩
    obtain rfl : sc = .loop := by simpa using ha
    exact ⟨inner, outer, hs, hi⟩
  · rintro ⟨inner, outer, hs, hi⟩
    exact ⟨inner, .loop, outer, hs, rfl, hi⟩

/-- The nearest function is a function. -/
theorem SymbolTable.Raw.canReturn_iff {t : SymbolTable.Raw} {v : Value} :
    t.canReturn = true ↔ (Signal.returned v).Enclosed t.scopes := by
  simp only [canReturn, Signal.Enclosed]
  induction t.scopes with
  | nil => simp [encloses]
  | cons s rest ih =>
    cases hs : s.isFunction <;> simp [encloses, hs, ih]

theorem Jump.allowed_iff {t : SymbolTable} {j : Jump} :
    j.allowed t = true ↔ j.signal.Enclosed t.scopes := by
  cases j with
  | leave => exact SymbolTable.Raw.canBreak_iff
  | goOn => exact SymbolTable.Raw.canContinue_iff

/-! ### What cannot jump -/

namespace Discipline

variable {R : Regime} {k : Mode} {j : Jump} {m m' : Machine} {α β : Type} {x : Eval α}
  {post : α → Machine → Prop}

theorem Keeps.run_ne_jump (h : lax.Keeps R k x m post) (ht : R.tidy) (hk : k.admits j = false) :
    x.run m ≠ .error j.signal m' := by
  intro hr
  have he := h.ends
  rw [hr] at he
  cases j with
  | leave => exact absurd (he.2 ht).1 (by simpa [Mode.admits] using hk)
  | goOn => exact absurd (he.2 ht).1 (by simpa [Mode.admits] using hk)

theorem Keeps.tidy_of_ok {a : α} (h : lax.Keeps R k x m post) (hm : m.Tidy)
    (hr : x.run m = .ok a m') : m'.Tidy := by
  have he := h.ends
  rw [hr] at he
  exact he.1.settled.tidy hm

/-- Behind what cannot jump, a jump comes from what follows. -/
theorem Keeps.bind_jumps {f : α → Eval β} (h : lax.Keeps R .expression x m post) (ht : R.tidy) :
    (x >>= f).run m = .error j.signal m' ↔
      ∃ a m₁, x.run m = .ok a m₁ ∧ (f a).run m₁ = .error j.signal m' := by
  rw [Eval.run_bind_error]
  exact or_iff_right (h.run_ne_jump ht (by cases j <;> rfl))

end Discipline

/-! ### A statement ends in a jump exactly when it arrives at one -/

section Tree

open Discipline

variable {R : Regime} {ctx : Context} {j : Jump} {frame : FrameId} {m m' : Machine}

theorem Eval.orElseReport_jumps {α : Type} {x : Eval α} {a : α} :
    (Eval.orElseReport x a).run m = .error j.signal m' ↔ x.run m = .error j.signal m' := by
  simp only [Eval.orElseReport, Eval.handle]
  cases x.run m with
  | ok b m₁ => rfl
  | error s m₁ => cases s <;> cases j <;> simp [Jump.signal]

/-- What comes out of a switch: not a `break`. -/
theorem Eval.untilBreak_jumps {x : Eval Unit} :
    (Eval.untilBreak x).run m = .error j.signal m' ↔
      j = .goOn ∧ x.run m = .error j.signal m' := by
  simp only [Eval.untilBreak, Eval.handle]
  cases x.run m with
  | ok b m₁ => simp
  | error s m₁ => cases s <;> cases j <;> simp [Jump.signal]

theorem keeps_step (hc : lax.Calls R ctx) (pos : Position) :
    lax.Keeps R .expression (Eval.tick ctx.config.limits pos) m fun _ _ => True := by
  rw [hc.limits]
  exact (keeps_tick trivial).mono fun _ _ _ _ => trivial

theorem exec_jumps (hc : lax.Calls R ctx) (ht : R.tidy) {s : Stmt} :
    (s.exec ctx frame).run m = .error j.signal m' ↔
      ∃ m₁, (Eval.tick ctx.config.limits s.pos).run m = .ok () m₁ ∧
        (s.raw ctx frame).run m₁ = .error j.signal m' := by
  unfold Stmt.exec Eval.statement
  rw [(keeps_step hc s.pos).bind_jumps ht]
  simp only [Eval.orElseReport_jumps]
  exact ⟨fun ⟨_, m₁, h⟩ => ⟨m₁, h⟩, fun ⟨m₁, h⟩ => ⟨(), m₁, h⟩⟩

/-- What has no jump of the kind among its own does not arrive at one. -/
theorem no_jumps (hc : lax.Calls R ctx) (ht : R.tidy) {s : Stmt} (hs : s.tidy = true) (hm : m.Tidy)
    (hk : (Mode.ofStmt s).admits j = false) (hj : ¬ s.Jumps ctx j frame m m') :
    (s.raw ctx frame).run m = .error j.signal m' ↔ s.Jumps ctx j frame m m' :=
  iff_of_false
    ((keeps_stmt hc s frame (fun _ => hs) (lax_home fun _ => hm)).run_ne_jump ht hk) hj

/-- A jump is taken where it is allowed, and is a fault elsewhere. -/
theorem Jump.run_stmt (i : Jump) (pos : Position) (frame : FrameId) (m : Machine) :
    ((i.stmt pos).raw ctx frame).run m =
      if i.allowed m.symbols then .error i.signal m else .error (.fault i.misplaced pos) m := by
  cases i with
  | leave =>
    change (if m.symbols.canBreak then Eval.signal .broke
      else Eval.fault .misplacedBreak pos : Eval Unit).run m =
      if m.symbols.canBreak then _ else _
    cases m.symbols.canBreak <;> rfl
  | goOn =>
    change (if m.symbols.canContinue then Eval.signal .continued
      else Eval.fault .misplacedContinue pos : Eval Unit).run m =
      if m.symbols.canContinue then _ else _
    cases m.symbols.canContinue <;> rfl

theorem own_jumps {i : Jump} {pos : Position} :
    ((i.stmt pos).raw ctx frame).run m = .error j.signal m' ↔
      (i.stmt pos).Jumps ctx j frame m m' := by
  rw [Jump.run_stmt]
  constructor
  · by_cases ha : i.allowed m.symbols = true
    · rw [if_pos ha]
      intro h
      cases i <;> cases j <;> cases h <;> exact .here rfl (Jump.allowed_iff.mp ha)
    · rw [if_neg ha]
      intro h
      cases j <;> cases h
  · intro h
    cases i <;> rcases h with ⟨hi, ha⟩ <;> cases j <;> cases hi <;>
      rw [if_pos (Jump.allowed_iff.mpr ha)]

/-- A body ends in a jump exactly when it arrives at one. -/
def JumpsExactly (ctx : Context) (j : Jump) (body : List Stmt) : Prop :=
  ∀ inner {m m' : Machine}, m.Tidy →
    ((Stmt.execAll ctx body inner).run m = .error j.signal m' ↔ Stmt.AllJump ctx j body inner m m')

/-- A body in a scope and a frame of its own. -/
theorem inBlock_jumps {sc : Scope} {body : List Stmt} (hm : m.Tidy)
    (hb : JumpsExactly ctx j body) :
    (Eval.inScope sc (Eval.inFrame frame fun inner => Stmt.execAll ctx body inner)).run m =
        .error j.signal m' ↔
      ∃ m₁, Stmt.AllJump ctx j body m.frames.nextId (m.enter sc frame) m₁ ∧
        m' = m₁.leave m.frames.nextId := by
  have hm' : (m.enter sc frame).Tidy := hm
  simp only [Eval.run_inBlock, Outcome.after_eq_error, hb _ hm']

/-- A body in a frame of its own. -/
theorem inFrame_jumps {body : List Stmt} (hm : m.Tidy) (hb : JumpsExactly ctx j body) :
    (Eval.inFrame frame fun inner => Stmt.execAll ctx body inner).run m = .error j.signal m' ↔
      ∃ m₁, Stmt.AllJump ctx j body m.frames.nextId (m.openIn frame) m₁ ∧
        m' = m₁.close m.frames.nextId := by
  have hm' : (m.openIn frame).Tidy := hm
  simp only [Eval.run_inFrame, Outcome.after_eq_error, hb _ hm']

/-- The cases of a switch, one after the other. -/
theorem run_execClauses {v : Value} {es : List Expr} {body : List Stmt} {pos : Position}
    {rest : List (Clause Stmt)} {found : Bool} :
    (Stmt.execClauses ctx v (⟨es, body, pos⟩ :: rest) found frame).run m =
      match (Stmt.caseRuns ctx v es found frame).run m with
      | .ok true m₁ => (do
          Eval.inFrame frame fun inner => Stmt.execAll ctx body inner
          Stmt.execClauses ctx v rest true frame : Eval Bool).run m₁
      | .ok false m₁ => (Stmt.execClauses ctx v rest false frame).run m₁
      | .error s m₁ => .error s m₁ := by
  cases found with
  | true => rfl
  | false =>
    refine (Eval.run_bind _ _ _).trans ?_
    change _ = match (Eval.caseMatches ctx v frame es).run m with
      | .ok true m₁ => _
      | .ok false m₁ => _
      | .error s m₁ => _
    cases (Eval.caseMatches ctx v frame es).run m with
    | error s m₁ => rfl
    | ok b m₁ => cases b <;> rfl

theorem keeps_caseRuns (hc : lax.Calls R ctx) {v : Value} {es : List Expr} {found : Bool}
    (hm : m.Tidy) :
    lax.Keeps R .expression (Stmt.caseRuns ctx v es found frame) m fun _ _ => True := by
  cases found with
  | true => exact keeps_pure trivial trivial
  | false => exact keeps_caseMatches hc es (lax_ready fun _ => hm)

/-- What a switch does in its scope and frame. -/
def switchBody (ctx : Context) (subject : Expr) (clauses : List (Clause Stmt))
    (otherwise : Option (List Stmt)) (frame : FrameId) : Eval Unit := do
  let v ← subject.operand ctx frame
  unless ← Stmt.execClauses ctx v clauses false frame do
    Stmt.execOtherwise ctx otherwise frame

theorem switchBody_jumps (hc : lax.Calls R ctx) (ht : R.tidy) {subject : Expr}
    {clauses : List (Clause Stmt)} {otherwise : Option (List Stmt)}
    (hs : Stmt.clausesTidy clauses = true) (hm : m.Tidy)
    (hclauses : ∀ v {m m' : Machine}, m.Tidy →
      ((Stmt.execClauses ctx v clauses false frame).run m = .error j.signal m' ↔
        Stmt.ClauseJumps ctx j v clauses false frame m m'))
    (hbody : ∀ body, otherwise = some body → JumpsExactly ctx j body) :
    (switchBody ctx subject clauses otherwise frame).run m = .error j.signal m' ↔
      Stmt.SwitchJumps ctx j subject clauses otherwise frame m m' := by
  have hkeep : lax.Keeps R .expression (subject.operand ctx frame) m lax.GivesOne :=
    keeps_operand hc (lax_ready fun _ => hm)
  have hcl : ∀ v {m₁ m₂ b}, m₁.Tidy →
      (Stmt.execClauses ctx v clauses false frame).run m₁ = .ok b m₂ → m₂.Tidy :=
    fun v _ _ _ h₁ hr => (keeps_clauses (D := lax) hc v clauses false frame (fun _ => hs)
      (lax_home fun _ => h₁)).tidy_of_ok h₁ hr
  refine (hkeep.bind_jumps ht).trans ⟨?_, ?_⟩
  · rintro ⟨v, m₁, hr, h⟩
    have h₁ := hkeep.tidy_of_ok hm hr
    rcases Eval.run_bind_error.mp h with h | ⟨b, m₂, hr₂, h⟩
    · exact .clause hr ((hclauses v h₁).mp h)
    · cases b with
      | true => cases h
      | false =>
        cases otherwise with
        | none => cases h
        | some body =>
          obtain ⟨m₃, hj, rfl⟩ := (inFrame_jumps (hcl v h₁ hr₂) (hbody body rfl)).mp h
          exact .otherwise hr hr₂ hj
  · rintro (⟨hr, hj⟩ | ⟨hr, hr₂, hj⟩)
    · have h₁ := hkeep.tidy_of_ok hm hr
      exact ⟨_, _, hr, Eval.run_bind_error.mpr (.inl ((hclauses _ h₁).mpr hj))⟩
    · have h₁ := hkeep.tidy_of_ok hm hr
      have h := (inFrame_jumps (hcl _ h₁ hr₂) (hbody _ rfl)).mpr ⟨_, hj, rfl⟩
      exact ⟨_, _, hr, Eval.run_bind_error.mpr (.inr ⟨false, _, hr₂, h⟩)⟩

mutual

/-- **A statement ends in a jump exactly when it arrives at one.** -/
theorem raw_jumps (hc : lax.Calls R ctx) (ht : R.tidy) : ∀ (s : Stmt) (frame : FrameId)
    {m m' : Machine}, s.tidy = true → m.Tidy →
    ((s.raw ctx frame).run m = .error j.signal m' ↔ s.Jumps ctx j frame m m')
  | .block body pos, frame, m, m', hs, hm => by
    refine (inBlock_jumps hm fun inner => execAll_jumps hc ht body inner hs).trans ⟨?_, ?_⟩
    · rintro ⟨m₁, h, rfl⟩
      exact .block h
    · rintro (h | h)
      · cases j <;> cases h
      · exact ⟨_, h, rfl⟩
  | .ifElse branches otherwise pos, frame, m, m', hs, hm => by
    have hs' : Stmt.branchesTidy branches = true ∧ Stmt.otherwiseTidy otherwise = true := by
      simpa [Stmt.tidy] using hs
    have hkeep := keeps_branches (D := lax) hc branches frame (fun _ => hs'.1)
      (lax_home fun _ => hm)
    have hother := otherwise_jumps hc ht otherwise hs'.2
    refine Eval.run_bind_error.trans ⟨?_, ?_⟩
    · rintro (h | ⟨b, m₁, hr, h⟩)
      · exact .branch ((execBranches_jumps hc ht branches frame hs'.1 hm).mp h)
      · have h₁ := hkeep.tidy_of_ok hm hr
        cases b with
        | true => cases h
        | false =>
          cases otherwise with
          | none => cases h
          | some body =>
            obtain ⟨m₂, hj, rfl⟩ := (inBlock_jumps h₁ (hother body rfl)).mp h
            exact .otherwise hr hj
    · rintro (h | _ | h | ⟨hr, h⟩)
      · cases j <;> cases h
      · exact .inl ((execBranches_jumps hc ht branches frame hs'.1 hm).mpr h)
      · have h₁ := hkeep.tidy_of_ok hm hr
        exact .inr ⟨false, _, hr, (inBlock_jumps h₁ (hother _ rfl)).mpr ⟨_, h, rfl⟩⟩
  | .switch subject clauses otherwise pos, frame, m, m', hs, hm => by
    have hs' : Stmt.clausesTidy clauses = true ∧ Stmt.otherwiseTidy otherwise = true := by
      simpa [Stmt.tidy] using hs
    have hm' : (m.enter .switch frame).Tidy := hm
    have hother := otherwise_jumps hc ht otherwise hs'.2
    have hbody : ∀ m₁, (switchBody ctx subject clauses otherwise m.frames.nextId).run
        (m.enter .switch frame) = .error j.signal m₁ ↔ _ := fun m₁ =>
      switchBody_jumps hc ht hs'.1 hm'
        (fun v => execClauses_jumps hc ht v clauses false m.frames.nextId hs'.1) hother
    change (Eval.inScope .switch (Eval.inFrame frame fun inner =>
      Eval.untilBreak (switchBody ctx subject clauses otherwise inner))).run m = _ ↔ _
    rw [Eval.run_inBlock, Outcome.after_eq_error]
    constructor
    · rintro ⟨m₁, hr, rfl⟩
      obtain ⟨hj, hr⟩ := Eval.untilBreak_jumps.mp hr
      exact .switch hj ((hbody m₁).mp hr)
    · rintro (h | _ | _ | _ | ⟨hj, h⟩)
      · cases j <;> cases h
      · exact ⟨_, Eval.untilBreak_jumps.mpr ⟨hj, (hbody _).mpr h⟩, rfl⟩
  | .breakStmt _, _, _, _, _, _ => own_jumps (i := .leave)
  | .continueStmt _, _, _, _, _, _ => own_jumps (i := .goOn)
  | .loop .., _, _, _, hs, hm | .varDecl .., _, _, _, hs, hm | .constDecl .., _, _, _, hs, hm
  | .shortDecl .., _, _, _, hs, hm | .assign .., _, _, _, hs, hm | .step .., _, _, _, hs, hm
  | .expr .., _, _, _, hs, hm | .returnStmt .., _, _, _, hs, hm | .func .., _, _, _, hs, hm => by
    refine no_jumps hc ht hs hm (by cases j <;> rfl) ?_
    rintro ⟨h⟩
    cases j <;> cases h

theorem execAll_jumps (hc : lax.Calls R ctx) (ht : R.tidy) : ∀ (ss : List Stmt) (frame : FrameId)
    {m m' : Machine}, Stmt.allTidy ss = true → m.Tidy →
    ((Stmt.execAll ctx ss frame).run m = .error j.signal m' ↔ Stmt.AllJump ctx j ss frame m m')
  | [], _, _, _, _, _ => ⟨fun h => (by cases h), fun h => (by cases h)⟩
  | s :: ss, frame, m, m', hs, hm => by
    have hs' : s.tidy = true ∧ Stmt.allTidy ss = true := by simpa [Stmt.allTidy] using hs
    have hkeep : lax.Keeps R _ (s.exec ctx frame) m _ :=
      keeps_exec hc (fun _ => hs'.1) (lax_ready fun _ => hm)
    refine Eval.run_bind_error.trans ((or_congr_left (exec_jumps hc ht)).trans ⟨?_, ?_⟩)
    · rintro (⟨m₁, hr, hx⟩ | ⟨_, m₁, hr, hx⟩)
      · have h₁ := (keeps_step hc s.pos).tidy_of_ok hm hr
        exact .first hr ((raw_jumps hc ht s frame hs'.1 h₁).mp hx)
      · have h₁ := hkeep.tidy_of_ok hm hr
        exact .later hr ((execAll_jumps hc ht ss frame hs'.2 h₁).mp hx)
    · rintro (⟨hr, hj⟩ | ⟨hr, hj⟩)
      · have h₁ := (keeps_step hc s.pos).tidy_of_ok hm hr
        exact .inl ⟨_, hr, (raw_jumps hc ht s frame hs'.1 h₁).mpr hj⟩
      · have h₁ := hkeep.tidy_of_ok hm hr
        exact .inr ⟨_, _, hr, (execAll_jumps hc ht ss frame hs'.2 h₁).mpr hj⟩

theorem otherwise_jumps (hc : lax.Calls R ctx) (ht : R.tidy) : ∀ otherwise : Option (List Stmt),
    Stmt.otherwiseTidy otherwise = true → ∀ body, otherwise = some body → JumpsExactly ctx j body
  | none, _, _, h => by cases h
  | some body, hs, _, h => by
    cases h
    exact fun inner => execAll_jumps hc ht body inner hs

theorem execBranches_jumps (hc : lax.Calls R ctx) (ht : R.tidy) :
    ∀ (branches : List (Branch Stmt)) (frame : FrameId) {m m' : Machine},
    Stmt.branchesTidy branches = true → m.Tidy →
    ((Stmt.execBranches ctx branches frame).run m = .error j.signal m' ↔
      Stmt.BranchJumps ctx j branches frame m m')
  | [], _, _, _, _, _ => ⟨fun h => (by cases h), fun h => (by cases h)⟩
  | ⟨e, body⟩ :: rest, frame, m, m', hs, hm => by
    have hs' : Stmt.allTidy body = true ∧ Stmt.branchesTidy rest = true := by
      simpa [Stmt.branchesTidy] using hs
    have hkeep : lax.Keeps R .expression (Eval.condition ctx e frame) m _ :=
      keeps_condition hc (lax_ready fun _ => hm)
    have hbody : JumpsExactly ctx j body := fun inner => execAll_jumps hc ht body inner hs'.1
    refine (hkeep.bind_jumps ht).trans ⟨?_, ?_⟩
    · rintro ⟨b, m₁, hr, h⟩
      have h₁ := hkeep.tidy_of_ok hm hr
      cases b with
      | false => exact .passed hr ((execBranches_jumps hc ht rest frame hs'.2 h₁).mp h)
      | true =>
        rcases Eval.run_bind_error.mp h with h | ⟨_, _, _, h⟩
        · obtain ⟨m₂, hj, rfl⟩ := (inBlock_jumps h₁ hbody).mp h
          exact .taken hr hj
        · cases h
    · rintro (⟨hr, hj⟩ | ⟨hr, hj⟩)
      · have h₁ := hkeep.tidy_of_ok hm hr
        exact ⟨true, _, hr, Eval.run_bind_error.mpr (.inl ((inBlock_jumps h₁ hbody).mpr ⟨_, hj, rfl⟩))⟩
      · have h₁ := hkeep.tidy_of_ok hm hr
        exact ⟨false, _, hr, (execBranches_jumps hc ht rest frame hs'.2 h₁).mpr hj⟩

theorem execClauses_jumps (hc : lax.Calls R ctx) (ht : R.tidy) (v : Value) :
    ∀ (clauses : List (Clause Stmt)) (found : Bool) (frame : FrameId) {m m' : Machine},
    Stmt.clausesTidy clauses = true → m.Tidy →
    ((Stmt.execClauses ctx v clauses found frame).run m = .error j.signal m' ↔
      Stmt.ClauseJumps ctx j v clauses found frame m m')
  | [], _, _, _, _, _, _ => ⟨fun h => (by cases h), fun h => (by cases h)⟩
  | ⟨es, body, pos⟩ :: rest, found, frame, m, m', hs, hm => by
    have hs' : Stmt.allTidy body = true ∧ Stmt.clausesTidy rest = true := by
      simpa [Stmt.clausesTidy] using hs
    have hkeep : lax.Keeps R .expression (Stmt.caseRuns ctx v es found frame) m _ :=
      keeps_caseRuns hc hm
    have hbody : JumpsExactly ctx j body := fun inner => execAll_jumps hc ht body inner hs'.1
    have hran : ∀ {m₁ m₂ : Machine}, m₁.Tidy →
        (Eval.inFrame frame fun inner => Stmt.execAll ctx body inner).run m₁ = .ok () m₂ →
        m₂.Tidy := fun {m₁ _} h₁ hr =>
      (keeps_inNewFrame (D := lax) (P := fun _ => True) (lax_home fun _ => h₁)
        fun h => keeps_execAll hc body _ (fun _ => hs'.1) h).tidy_of_ok h₁ hr
    rw [run_execClauses]
    constructor
    · cases hr : (Stmt.caseRuns ctx v es found frame).run m with
      | error s m₁ =>
        intro h
        cases h
        exact absurd hr (hkeep.run_ne_jump ht (by cases j <;> rfl))
      | ok b m₁ =>
        have h₁ := hkeep.tidy_of_ok hm hr
        cases b with
        | false => exact fun h => .passed hr ((execClauses_jumps hc ht v rest _ _ hs'.2 h₁).mp h)
        | true =>
          intro h
          rcases Eval.run_bind_error.mp h with h | ⟨_, m₂, hr₂, h⟩
          · obtain ⟨m₂, hj, rfl⟩ := (inFrame_jumps h₁ hbody).mp h
            exact .runs hr hj
          · have h₂ := hran h₁ hr₂
            exact .behind hr hr₂ ((execClauses_jumps hc ht v rest _ _ hs'.2 h₂).mp h)
    · rintro (⟨hr, hj⟩ | ⟨hr, hr₂, hj⟩ | ⟨hr, hj⟩)
      · have h₁ := hkeep.tidy_of_ok hm hr
        rw [hr]
        exact Eval.run_bind_error.mpr (.inl ((inFrame_jumps h₁ hbody).mpr ⟨_, hj, rfl⟩))
      · have h₂ := hran (hkeep.tidy_of_ok hm hr) hr₂
        rw [hr]
        exact Eval.run_bind_error.mpr
          (.inr ⟨_, _, hr₂, (execClauses_jumps hc ht v rest _ _ hs'.2 h₂).mpr hj⟩)
      · have h₁ := hkeep.tidy_of_ok hm hr
        rw [hr]
        exact (execClauses_jumps hc ht v rest _ _ hs'.2 h₁).mpr hj

end

/-- The cases of a switch end in a jump exactly when they arrive at one. -/
theorem cases_jump (hc : lax.Calls R ctx) (ht : R.tidy) {subject : Expr}
    {clauses : List (Clause Stmt)} {otherwise : Option (List Stmt)}
    (hs : Stmt.clausesTidy clauses = true) (ho : Stmt.otherwiseTidy otherwise = true)
    (hm : m.Tidy) : (switchBody ctx subject clauses otherwise frame).run m = .error j.signal m' ↔
      Stmt.SwitchJumps ctx j subject clauses otherwise frame m m' := by
  exact switchBody_jumps hc ht hs hm (fun v => execClauses_jumps hc ht v clauses false frame hs)
    (otherwise_jumps hc ht otherwise ho)

end Tree

end Treewalk
