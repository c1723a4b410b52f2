/-
# Tied machines

Two machines are tied if they differ in nothing that a program can see: in the
numbers of the entries of their symbol tables, and in the order in which
functions were made known. Their tables hold entries of the given sites only,
and the functions they know declare nothing elsewhere. The entries that the
frames refer to are there.

Two actions are coupled if from tied machines they end alike, with tied
machines, and the machines on the way are tied to something too. All the ways
of putting actions together respect that.

Key definitions: `Machine.starting`, `Bond.Tied`, `Bond.same`, `Bond.Ends`,
`Bond.Coupled`, `Bond.Keeps`.
Key theorems: `Bond.Coupled.bind`, `Bond.coupled_get`, `Bond.Coupled.bracket`,
`Bond.Coupled.orElseReport`, `Bond.Coupled.rounds`.
-/
import Treewalk.Proofs.Bond.Ledger
import Treewalk.Proofs.Bond.Renumber
import Treewalk.Proofs.Lookup

namespace Treewalk

/-- The machine before anything has run, with what was reported when the program was read. -/
def Machine.starting (errors : ErrorLog) : Machine := { Machine.initial with errors }

namespace Bond

variable {B : Bond} {ss : List Scope} {m m' : Machine}

/-- The machines differ in the numbers of entries only, and the scopes are open in both above the
global one. -/
structure Tied (B : Bond) (ss : List Scope) (m m' : Machine) : Prop where
  table : B.Matches m.symbols m'.symbols
  scopes : m.symbols.scopes = ss ++ [.global]
  frames : m'.frames = m.frames.renumber B.number
  below : m.frames.EntriesBelow m.symbols.symbols.size
  functions : ∀ x, m'.functions.lookup x = m.functions.lookup x
  known : ∀ {x f}, m.functions.lookup x = some f → ∀ s ∈ Func.sites f, B.Site s
  heap : m'.heap = m.heap
  errors : m'.errors = m.errors
  output : m'.output = m.output
  depth : m'.depth = m.depth
  steps : m'.steps = m.steps

namespace Tied

/-! ### What a program can see -/

theorem hasLocal (h : B.Tied ss m m') (frame : FrameId) (name : String) :
    m'.frames.hasLocal frame name = m.frames.hasLocal frame name := by
  rw [h.frames, Frames.hasLocal_renumber]

theorem local? (h : B.Tied ss m m') (frame : FrameId) (name : String) :
    m'.frames.local? frame name = m.frames.local? frame name := by
  rw [h.frames, Frames.local?_renumber]

theorem resolve (h : B.Tied ss m m') (frame : FrameId) (name : String) :
    m'.frames.resolve frame name = m.frames.resolve frame name := by
  rw [h.frames, Frames.resolve_renumber]

theorem value? (h : B.Tied ss m m') (frame : FrameId) (name : String) :
    m'.frames.value? frame name = m.frames.value? frame name := by
  rw [h.frames, Frames.value?_renumber]

theorem kind? (h : B.Tied ss m m') (frame : FrameId) (name : String) :
    m'.frames.kind? frame name = m.frames.kind? frame name := by
  rw [h.frames, Frames.kind?_renumber]

theorem isConst (h : B.Tied ss m m') (frame : FrameId) (name : String) :
    m'.frames.isConst frame name = m.frames.isConst frame name := by
  rw [h.frames, Frames.isConst_renumber]

theorem nextId (h : B.Tied ss m m') : m'.frames.nextId = m.frames.nextId := by
  rw [h.frames, Frames.nextId_renumber]

theorem typeLabel (h : B.Tied ss m m') (v : Value) : m'.typeLabel v = m.typeLabel v := by
  rw [Machine.typeLabel, h.frames, h.heap, Frames.typeLabel_renumber, Machine.typeLabel]

theorem slotLabel (h : B.Tied ss m m') (slot : Kind) (v : Value) :
    m'.slotLabel slot v = m.slotLabel slot v := by
  rw [Machine.slotLabel, h.typeLabel, Machine.slotLabel]

theorem atGlobal (h : B.Tied ss m m') : m'.symbols.atGlobal = m.symbols.atGlobal := by
  rw [SymbolTable.Raw.atGlobal, h.table.current, SymbolTable.Raw.atGlobal]

theorem canBreak (h : B.Tied ss m m') : m'.symbols.canBreak = m.symbols.canBreak := by
  rw [SymbolTable.Raw.canBreak, h.table.scopes, SymbolTable.Raw.canBreak]

theorem canContinue (h : B.Tied ss m m') : m'.symbols.canContinue = m.symbols.canContinue := by
  rw [SymbolTable.Raw.canContinue, h.table.scopes, SymbolTable.Raw.canContinue]

theorem canReturn (h : B.Tied ss m m') : m'.symbols.canReturn = m.symbols.canReturn := by
  rw [SymbolTable.Raw.canReturn, h.table.scopes, SymbolTable.Raw.canReturn]

/-! ### Changes -/

theorem setErrors (h : B.Tied ss m m') (errors : ErrorLog) :
    B.Tied ss { m with errors } { m' with errors } :=
  { h with errors := rfl }

theorem record (h : B.Tied ss m m') (d : Diagnostic) : B.Tied ss (m.record d) (m'.record d) :=
  { h with errors := congrArg (·.push d) h.errors }

theorem report (h : B.Tied ss m m') (f : Fault) (pos : Position) :
    B.Tied ss (m.report f pos) (m'.report f pos) :=
  h.record _

theorem onHeap (h : B.Tied ss m m') (heap : Heap) :
    B.Tied ss { m with heap } { m' with heap } :=
  { h with heap := rfl }

theorem setFrames (h : B.Tied ss m m') {frames frames' : Frames}
    (hf : frames' = frames.renumber B.number)
    (hbelow : frames.EntriesBelow m.symbols.symbols.size) :
    B.Tied ss { m with frames } { m' with frames := frames' } :=
  { h with frames := hf, below := hbelow }

theorem openIn (h : B.Tied ss m m') (parent : FrameId) :
    B.Tied ss { m with frames := m.frames.openIn parent }
      { m' with frames := m'.frames.openIn parent } :=
  h.setFrames (by rw [h.frames, Frames.openIn_renumber]) (h.below.openIn parent)

theorem close (h : B.Tied ss m m') (id : FrameId) :
    B.Tied ss { m with frames := m.frames.close id } { m' with frames := m'.frames.close id } :=
  h.setFrames (by rw [h.frames, Frames.close_renumber]) (h.below.close id)

theorem setLocal (h : B.Tied ss m m') (owner : FrameId) (name : String) (v : Value) :
    B.Tied ss { m with frames := m.frames.setLocal owner name v }
      { m' with frames := m'.frames.setLocal owner name v } :=
  h.setFrames (by rw [h.frames, Frames.setLocal_renumber]) (h.below.setLocal owner name v)

theorem assign (h : B.Tied ss m m') (frame : FrameId) (name : String) (v : Value) :
    B.Tied ss { m with frames := (m.frames.assign frame name v).2 }
      { m' with frames := (m'.frames.assign frame name v).2 } := by
  have hr' := h.resolve frame name
  cases hr : m.frames.resolve frame name with
  | none =>
    rw [Frames.assign_of_resolve_none hr, Frames.assign_of_resolve_none (hr'.trans hr)]
    exact h
  | some owner =>
    rw [Frames.assign_of_resolve hr, Frames.assign_of_resolve (hr'.trans hr)]
    exact h.setLocal owner name v

theorem push (h : B.Tied ss m m') (s : Scope) :
    B.Tied (s :: ss) { m with symbols := m.symbols.push s }
      { m' with symbols := m'.symbols.push s } :=
  { h with table := h.table.push s, scopes := congrArg (List.cons s) h.scopes }

theorem pop {s : Scope} (h : B.Tied (s :: ss) m m') :
    B.Tied ss { m with symbols := m.symbols.pop } { m' with symbols := m'.symbols.pop } :=
  { h with
    table := h.table.pop
    scopes := by simp [SymbolTable.pop, SymbolTable.Raw.pop, h.scopes] }

theorem update (h : B.Tied ss m m') (entry : Nat) (value : String) :
    B.Tied ss { m with symbols := m.symbols.update entry value }
      { m' with symbols := m'.symbols.update (B.number entry) value } :=
  { h with
    table := h.table.update entry value
    below := h.below.mono (Nat.le_of_eq Array.size_modify.symm) }

/-- The entry of a variable is renewed in both. -/
theorem refresh (h : B.Tied ss m m') (x : Variable) : B.Tied ss (m.refresh x) (m'.refresh x) := by
  have hsymbol : m'.frames.symbol? x.owner x.name =
      (m.frames.symbol? x.owner x.name).map B.number := by rw [h.frames, Frames.symbol?_renumber]
  have htext : ∀ v, m'.heap.text v = m.heap.text v := fun v => by rw [h.heap]
  unfold Machine.refresh
  rw [hsymbol, h.value?]
  cases m.frames.symbol? x.owner x.name with
  | none => exact h
  | some entry =>
    cases m.frames.value? x.owner x.name with
    | none => exact h
    | some v =>
      simp only [Option.map_some, htext]
      exact h.update entry _

end Tied

/-- A run compared with itself. -/
def same (S : Treewalk.Site → Prop) : Bond := ⟨S, Equiv.refl Nat⟩

/-- The machine before anything has run is tied to itself. -/
theorem tied_starting (S : Treewalk.Site → Prop) (errors : ErrorLog) :
    (same S).Tied [] (.starting errors) (.starting errors) where
  table := ⟨SymbolTable.kept_empty, rfl, rfl, fun _ _ => rfl, fun _ => rfl⟩
  scopes := rfl
  frames := (Frames.renumber_initial _).symm
  below := .initial
  functions _ := rfl
  known h := nomatch h
  heap := rfl
  errors := rfl
  output := rfl
  depth := rfl
  steps := rfl

/-! ### Coupled actions -/

/-- The outcomes are alike, and leave tied machines. -/
inductive Ends (B : Bond) (ss : List Scope) {α : Type} : Outcome α → Outcome α → Prop
  | ok {a : α} {m m' : Machine} (h : B.Tied ss m m') : Ends B ss (.ok a m) (.ok a m')
  | error {s : Signal} {m m' : Machine} (h : B.Tied ss m m') : Ends B ss (.error s m) (.error s m')

/-- From tied machines the actions end alike, and the first only passes machines that are tied to
others. -/
structure Coupled (B : Bond) (ss : List Scope) {α : Type} (x y : Eval α) : Prop where
  passes : ∀ {m m'}, B.Tied ss m m' → ∀ p, x.passes m p → ∃ ss' p', B.Tied ss' p p'
  ends : ∀ {m m'}, B.Tied ss m m' → B.Ends ss (x.run m) (y.run m')

/-- The action keeps machines tied. -/
abbrev Keeps (B : Bond) (ss : List Scope) {α : Type} (x : Eval α) : Prop := B.Coupled ss x x

section Combinators

open Eval

variable {α β : Type} {x y : Eval α}

theorem keeps_pure {a : α} : B.Keeps ss (pure a : Eval α) :=
  ⟨fun _ _ hp => hp.elim, fun h => .ok h⟩

theorem keeps_signal {s : Signal} : B.Keeps ss (signal s : Eval α) := by
  refine ⟨fun {m m'} h p hp => ?_, fun h => .error h⟩
  obtain rfl : p = m := hp
  exact ⟨ss, m', h⟩

theorem keeps_fault {f : Fault} {pos : Position} : B.Keeps ss (fault f pos : Eval α) :=
  keeps_signal

theorem Coupled.bind {f g : α → Eval β} (hx : B.Coupled ss x y)
    (hf : ∀ a, B.Coupled ss (f a) (g a)) : B.Coupled ss (x >>= f) (y >>= g) := by
  constructor
  · rintro m m' h p (hp | ⟨a, m₁, hr, hp⟩)
    · exact hx.passes h p hp
    · have hends := hx.ends h
      rw [hr] at hends
      generalize y.run m' = r at hends
      cases hends with
      | ok h₁ => exact (hf a).passes h₁ p hp
  · intro m m' h
    have hends := hx.ends h
    rw [run_bind, run_bind]
    generalize x.run m = r at hends ⊢
    generalize y.run m' = r' at hends ⊢
    cases hends with
    | ok h₁ => exact (hf _).ends h₁
    | error h₁ => exact .error h₁

theorem Coupled.map {f : α → β} (hx : B.Coupled ss x y) : B.Coupled ss (f <$> x) (f <$> y) :=
  hx.bind fun _ => keeps_pure

/-- What follows on a look at the machine may differ in what it is given, if it does the same. -/
theorem coupled_get {f g : Machine → Eval α}
    (h : ∀ m m', B.Tied ss m m' → B.Coupled ss (f m) (g m')) :
    B.Coupled ss (get >>= f) (get >>= g) := by
  constructor
  · rintro m m' ht p (hp | ⟨_, _, hr, hp⟩)
    · obtain rfl : p = m := hp
      exact ⟨ss, m', ht⟩
    · cases hr
      exact (h m m' ht).passes ht p hp
  · exact fun {m m'} ht => (h m m' ht).ends ht

theorem keeps_modifyGet {f : Machine → α × Machine}
    (h : ∀ m m', B.Tied ss m m' → (f m').1 = (f m).1 ∧ B.Tied ss (f m).2 (f m').2) :
    B.Keeps ss (modifyGet f : Eval α) := by
  constructor
  · rintro m m' ht p (rfl | rfl)
    · exact ⟨ss, m', ht⟩
    · exact ⟨ss, _, (h m m' ht).2⟩
  · intro m m' ht
    obtain ⟨hvalue, htied⟩ := h m m' ht
    have hrun : (modifyGet f : Eval α).run m' = .ok (f m).1 (f m').2 := by
      rw [← hvalue]
      rfl
    rw [hrun]
    exact .ok htied

theorem keeps_modify {f : Machine → Machine} (h : ∀ m m', B.Tied ss m m' → B.Tied ss (f m) (f m')) :
    B.Keeps ss (modify f : Eval Unit) :=
  keeps_modifyGet fun m m' ht => ⟨rfl, h m m' ht⟩

theorem keeps_report {f : Fault} {pos : Position} : B.Keeps ss (report f pos) :=
  keeps_modify fun _ _ h => h.report f pos

/-- A note that leaves tied machines tied, from there on. -/
theorem tied_note {m m' : Machine} {e : Event} {f g : Machine → Machine} (ht : B.Tied ss m m')
    (h : B.Tied ss (f m) (g m')) :
    (∀ p, (note e f).passes m p → ∃ ss' p', B.Tied ss' p p') ∧
      B.Ends ss ((note e f).run m) ((note e g).run m') := by
  refine ⟨fun p hp => ?_, .ok h⟩
  obtain rfl | rfl := hp
  · exact ⟨ss, m', ht⟩
  · exact ⟨ss, _, h⟩

theorem keeps_note {e : Event} {f : Machine → Machine}
    (h : ∀ m m', B.Tied ss m m' → B.Tied ss (f m) (f m')) : B.Keeps ss (note e f) :=
  ⟨fun ht => (tied_note ht (h _ _ ht)).1, fun ht => (tied_note ht (h _ _ ht)).2⟩

theorem coupled_ite {c : Prop} [Decidable c] {x' y' : Eval α} (h : B.Coupled ss x y)
    (h' : B.Coupled ss x' y') : B.Coupled ss (if c then x else x') (if c then y else y') := by
  by_cases hc : c
  · rw [if_pos hc, if_pos hc]; exact h
  · rw [if_neg hc, if_neg hc]; exact h'

theorem keeps_require {a? : Option α} {f : Fault} {pos : Position} :
    B.Keeps ss (require a? f pos) := by
  cases a? with
  | some a => exact keeps_pure
  | none => exact keeps_fault

theorem keeps_lift {ε : Type} [Coe ε Fault] {r : Except ε α} {pos : Position} :
    B.Keeps ss (lift r pos) := by
  cases r with
  | ok a => exact keeps_pure
  | error e => exact keeps_fault

theorem keeps_onHeap {f : Heap → α × Heap} : B.Keeps ss (onHeap f) := by
  refine keeps_modifyGet fun m m' h => ?_
  have hf : f m'.heap = f m.heap := by rw [h.heap]
  refine ⟨by rw [hf], ?_⟩
  rw [hf]
  exact h.onHeap _

/-- A check, behind which both go on. -/
theorem Coupled.ifFault {c : Prop} [Decidable c] {f : Fault} {pos : Position}
    (h : B.Coupled ss x y) :
    B.Coupled ss (if c then (Eval.fault f pos : Eval PUnit) >>= fun _ => x else x)
      (if c then (Eval.fault f pos : Eval PUnit) >>= fun _ => y else y) :=
  coupled_ite (keeps_fault.bind fun _ => h) h

theorem Coupled.unlessFault {c : Prop} [Decidable c] {f : Fault} {pos : Position}
    (h : B.Coupled ss x y) :
    B.Coupled ss (if c then x else (Eval.fault f pos : Eval PUnit) >>= fun _ => x)
      (if c then y else (Eval.fault f pos : Eval PUnit) >>= fun _ => y) :=
  coupled_ite h (keeps_fault.bind fun _ => h)

/-- What is read off outcomes that are alike is alike. -/
theorem Coupled.handle {next : Outcome α → Outcome β} (hx : B.Coupled ss x y)
    (hnext : ∀ r r', B.Ends ss r r' → B.Ends ss (next r) (next r')) :
    B.Coupled ss (x.handle next) (y.handle next) := by
  refine ⟨fun {m m'} h p hp => ?_, fun h => hnext _ _ (hx.ends h)⟩
  obtain hp | rfl := hp
  · exact hx.passes h p hp
  · have hends := hnext _ _ (hx.ends h)
    generalize next (x.run m) = r at hends
    generalize next (y.run m') = r' at hends
    cases hends with
    | ok h₁ => exact ⟨ss, _, h₁⟩
    | error h₁ => exact ⟨ss, _, h₁⟩

theorem Coupled.orElseReport {a : α} (h : B.Coupled ss x y) :
    B.Coupled ss (x.orElseReport a) (y.orElseReport a) := by
  refine h.handle fun r r' hends => ?_
  cases hends with
  | ok h₁ => exact .ok h₁
  | @error s m m' h₁ =>
    cases s with
    | fault f pos => exact .ok (h₁.report f pos)
    | _ => exact .error h₁

theorem Coupled.goesOn {x y : Eval Unit} (h : B.Coupled ss x y) :
    B.Coupled ss x.goesOn y.goesOn := by
  refine h.handle fun r r' hends => ?_
  cases hends with
  | ok h₁ => exact .ok h₁
  | @error s m m' h₁ =>
    cases s with
    | broke => exact .ok h₁
    | continued => exact .ok h₁
    | _ => exact .error h₁

theorem Coupled.untilBreak {x y : Eval Unit} (h : B.Coupled ss x y) :
    B.Coupled ss x.untilBreak y.untilBreak := by
  refine h.handle fun r r' hends => ?_
  cases hends with
  | ok h₁ => exact .ok h₁
  | @error s m m' h₁ =>
    cases s with
    | broke => exact .ok h₁
    | _ => exact .error h₁

theorem Coupled.returnValue {x y : Eval Unit} (h : B.Coupled ss x y) :
    B.Coupled ss x.returnValue y.returnValue := by
  refine h.handle fun r r' hends => ?_
  cases hends with
  | ok h₁ => exact .ok h₁
  | @error s m m' h₁ =>
    cases s with
    | returned v => exact .ok h₁
    | _ => exact .error h₁

theorem Coupled.settled {x y : Eval Value} (h : B.Coupled ss x y) :
    B.Coupled ss x.settled y.settled :=
  h.orElseReport

theorem Coupled.one {x y : Eval Value} {pos : Position} (h : B.Coupled ss x y) :
    B.Coupled ss (x.one pos) (y.one pos) :=
  h.settled.bind fun _ => coupled_ite keeps_fault keeps_pure

/-- Between two changes the scopes may be others. -/
theorem Coupled.bracket {opened opened' : List FrameId} {before after : Machine → Machine}
    {ss' : List Scope} (hx : B.Coupled ss' x y)
    (hbefore : ∀ m m', B.Tied ss m m' → B.Tied ss' (before m) (before m'))
    (hafter : ∀ m m', B.Tied ss' m m' → B.Tied ss (after m) (after m')) :
    B.Coupled ss (x.bracket opened before after) (y.bracket opened' before after) := by
  refine ⟨fun {m m'} h p hp => hx.passes (hbefore m m' h) p hp, fun {m m'} h => ?_⟩
  have hends := hx.ends (hbefore m m' h)
  unfold Eval.bracket
  simp only
  generalize x.run (before m) = r at hends ⊢
  generalize y.run (before m') = r' at hends ⊢
  cases hends with
  | ok h₁ => exact .ok (hafter _ _ h₁)
  | error h₁ => exact .error (hafter _ _ h₁)

theorem Coupled.inScope {s : Scope} (h : B.Coupled (s :: ss) x y) :
    B.Coupled ss (x.inScope s) (y.inScope s) :=
  h.bracket (fun _ _ ht => ht.push s) fun _ _ ht => ht.pop

theorem Coupled.inCall (h : B.Coupled ss x y) : B.Coupled ss x.inCall y.inCall :=
  h.bracket (fun _ _ ht => { ht with depth := congrArg (· + 1) ht.depth })
    fun _ _ ht => { ht with depth := congrArg (· - 1) ht.depth }

theorem coupled_inFrame {parent : FrameId} {x y : FrameId → Eval α}
    (h : ∀ id, B.Coupled ss (x id) (y id)) :
    B.Coupled ss (inFrame parent x) (inFrame parent y) := by
  refine coupled_get fun m m' ht => ?_
  rw [ht.nextId]
  exact (h _).bracket (fun _ _ ht => ht.openIn parent) fun _ _ ht => ht.close _

theorem keeps_tick {limits : Limits} {pos : Position} :
    B.Keeps ss (tick limits pos) := by
  have hstep : ∀ m m' : Machine, B.Tied ss m m' →
      B.Tied ss { m with steps := m.steps + 1 } { m' with steps := m'.steps + 1 } :=
    fun m m' h => { h with steps := congrArg (· + 1) h.steps }
  refine (keeps_modify hstep).bind fun _ => ?_
  cases limits.maxSteps with
  | none => exact keeps_pure
  | some max =>
    refine coupled_get fun m m' h => ?_
    rw [h.steps]
    exact coupled_ite keeps_signal keeps_pure

/-- Loops of as many rounds at most. -/
theorem Coupled.rounds {check check' : Eval Bool} {body body' post post' : Eval Unit}
    (hcheck : B.Coupled ss check check') (hbody : B.Coupled ss body body')
    (hpost : B.Coupled ss post post') :
    ∀ n, B.Coupled ss (Eval.rounds check body post n) (Eval.rounds check' body' post' n)
  | 0 => keeps_signal
  | n + 1 => by
    refine hcheck.bind fun go => coupled_ite ?_ keeps_pure
    refine hbody.goesOn.bind fun on => coupled_ite ?_ keeps_pure
    exact hpost.bind fun _ => hcheck.rounds hbody hpost n

end Combinators
end Bond
end Treewalk
