/-
# Disciplines

Much of what evaluation keeps up has one shape: an invariant of the memory,
which is the frames and the heap, a condition on the values that evaluation
may hold meanwhile, and a sense in which a later memory goes on from an
earlier one. A `Discipline` is such an invariant together with what it has to
say about each elementary change of the memory. That an action keeps a
discipline (`Discipline.Keeps`) is said of all the moments it goes through, one
after the other, and of every way it may end.

A discipline may be one that not every run keeps: it may forbid compound
assignments, or array literals with elements of another type. Then it speaks
of a run up to the first moment at which that is done (`Discipline.Allows`).
It may also say how the memory of a moment goes on from that of every earlier
one (`Discipline.Past`), but for some declarations and assignments.

What evaluation does to scopes, frames, call depth, steps and signals is the
same whatever the discipline, and is part of `Keeps`: an action leaves scopes,
frames and depth as they were (`Machine.Settled`), in between they only grow
and agree with each other (`Machine.Inside`, `Machine.Opens`), and only certain
signals leave it (`Discipline.Stops`).

Key definitions: `Memory`, `Machine.Settled`, `Machine.Inside`, `Machine.Opens`,
`Regime`, `Discipline`, `Discipline.Follows`, `Discipline.Keeps`.
Key theorems: `Discipline.Follows.append`, `Discipline.Follows.at`,
`Discipline.Follows.past`.
-/
import Treewalk.Proofs.Kinds
import Treewalk.Proofs.Lookup
import Treewalk.Proofs.Tidy

namespace Treewalk

/-- What a machine holds for the variables and the arrays of a program. -/
structure Memory where
  frames : Frames
  heap : Heap

namespace Memory

/-- A declaration. -/
def bind (μ : Memory) (frame : FrameId) (name : String) (slot : Slot) (entry : Nat) : Memory :=
  { μ with frames := (μ.frames.bind frame name slot).bindSymbol frame name entry }

/-- A write to a variable. -/
def set (μ : Memory) (owner : FrameId) (name : String) (v : Value) : Memory :=
  { μ with frames := μ.frames.setLocal owner name v }

/-- A write to an element. -/
def put (μ : Memory) (id : StorageId) (i : Nat) (v : Value) : Memory :=
  { μ with heap := μ.heap.put id i v }

/-- A new storage. -/
def alloc (μ : Memory) (s : Storage) : Memory := { μ with heap := (μ.heap.alloc s).2 }

def openIn (μ : Memory) (parent : FrameId) : Memory :=
  { μ with frames := μ.frames.openIn parent }

def close (μ : Memory) (id : FrameId) : Memory := { μ with frames := μ.frames.close id }

theorem local?_bind (μ : Memory) (f : FrameId) (name : String) (slot : Slot) (entry : Nat)
    (j : FrameId) (x : String) :
    (μ.bind f name slot entry).frames.local? j x =
      if j = f ∧ x = name then (μ.frames.parent? f).map fun _ => slot else μ.frames.local? j x := by
  rw [bind, Frames.local?_bindSymbol, Frames.local?_bind]

theorem local?_set (μ : Memory) (owner : FrameId) (name : String) (v : Value) (j : FrameId)
    (x : String) :
    (μ.set owner name v).frames.local? j x =
      if j = owner ∧ x = name then (μ.frames.local? owner name).map ({ · with value := v })
      else μ.frames.local? j x :=
  Frames.local?_setLocal ..

theorem parent?_bind (μ : Memory) (f : FrameId) (name : String) (slot : Slot) (entry : Nat)
    (j : FrameId) : (μ.bind f name slot entry).frames.parent? j = μ.frames.parent? j := by
  rw [bind, Frames.parent?_bindSymbol, Frames.parent?_bind]

theorem nextId_bind (μ : Memory) (f : FrameId) (name : String) (slot : Slot) (entry : Nat) :
    (μ.bind f name slot entry).frames.nextId = μ.frames.nextId := by
  rw [bind, Frames.nextId_bindSymbol, Frames.nextId_bind]

theorem local?_bind_self {μ : Memory} {f : FrameId} {name : String} {slot : Slot} {entry : Nat}
    (h : (μ.bind f name slot entry).frames.isLive f = true) :
    (μ.bind f name slot entry).frames.local? f name = some slot := by
  rw [Frames.isLive_eq, parent?_bind] at h
  obtain ⟨parent, hp⟩ := Option.isSome_iff_exists.mp h
  rw [local?_bind, if_pos ⟨rfl, rfl⟩, hp]
  rfl

/-- What is declared has a value of its kind. Only a parameter may be declared anew, and in place of
no constant. -/
structure Admits (μ : Memory) (f : FrameId) (name : String) (slot : Slot) (role : Role) : Prop where
  fits : slot.kind.Fits slot.value
  constant : slot.constant = true ↔ role = .constant
  free : ∀ {s}, μ.frames.local? f name = some s → role = .parameter ∧ s.constant = false

end Memory

/-- A value with nothing behind it: neither array nor pointer, and only one. -/
def Value.isPlain : Value → Bool
  | .array _ | .pointer .. | .multi _ => false
  | _ => true

namespace Machine

def memory (m : Machine) : Memory := ⟨m.frames, m.heap⟩

/-- No array literal has been reported to have an element of another type. -/
def Unmixed (m : Machine) : Prop :=
  ∀ expected found pos,
    ⟨.semantic, (Fault.elementType expected found).message, pos⟩ ∉ m.errors.toList

/-- The machine in the scope of a call. -/
def called (m : Machine) (name : String) : Machine :=
  { m with symbols := m.symbols.push (.function name), depth := m.depth + 1 }

/-- Whether the functions a machine knows are tidy. -/
def Tidy (m : Machine) : Prop :=
  ∀ name f, m.functions.lookup name = some f → f.tidy = true

/-- `m'` is what an action leaves of `m`: it has closed all it opened. -/
structure Settled (m m' : Machine) : Prop where
  scopes : m'.symbols.scopes = m.symbols.scopes
  depth : m'.depth = m.depth
  functions : m'.functions = m.functions
  steps : m.steps ≤ m'.steps
  live : ∀ f, m'.frames.isLive f = m.frames.isLive f

/-- `p` is met in the course of an action that began in `m`: scopes were opened inside those of
`m`, and the depth has grown by the functions among them, up to its limit. -/
structure Inside (limits : Limits) (m p : Machine) : Prop where
  scopes : ∃ inner, p.symbols.scopes = inner ++ m.symbols.scopes ∧
    p.depth = m.depth + inner.countP Scope.isFunction
  depth : p.depth ≤ max m.depth limits.maxDepth
  functions : p.functions = m.functions

/-- At the moment `e` of an action that began in `m`, the frames that are there are those of `m` and
those of what is being executed. -/
def Opens (m : Machine) (e : Moment) : Prop :=
  ∀ f, e.machine.frames.isLive f = true ↔ m.frames.isLive f = true ∨ f ∈ e.frames

theorem Settled.refl (m : Machine) : m.Settled m := ⟨rfl, rfl, rfl, Nat.le_refl _, fun _ => rfl⟩

/-- A change of nothing but symbols, diagnostics and output. -/
theorem Settled.of_eq {m m' : Machine} (hs : m'.symbols.scopes = m.symbols.scopes)
    (hd : m'.depth = m.depth) (hf : m'.functions = m.functions) (ht : m.steps ≤ m'.steps)
    (hm : m'.frames = m.frames) : m.Settled m' :=
  ⟨hs, hd, hf, ht, fun _ => by rw [hm]⟩

theorem Settled.trans {m m' m'' : Machine} (h : m.Settled m') (h' : m'.Settled m'') :
    m.Settled m'' :=
  ⟨h'.scopes.trans h.scopes, h'.depth.trans h.depth, h'.functions.trans h.functions,
    Nat.le_trans h.steps h'.steps, fun f => (h'.live f).trans (h.live f)⟩

theorem Settled.inside {m m' : Machine} (limits : Limits) (h : m.Settled m') :
    m.Inside limits m' :=
  ⟨⟨[], by simp [h.scopes], by simp [h.depth]⟩, by rw [h.depth]; exact Nat.le_max_left _ _,
    h.functions⟩

theorem Inside.of_settled {limits : Limits} {m m' p : Machine} (h : m.Settled m')
    (hp : m'.Inside limits p) : m.Inside limits p := by
  obtain ⟨inner, hs, hd⟩ := hp.scopes
  refine ⟨⟨inner, ?_, ?_⟩, ?_, hp.functions.trans h.functions⟩
  · rw [hs, h.scopes]
  · rw [hd, h.depth]
  · rw [← h.depth]; exact hp.depth

theorem Settled.opens {m m' : Machine} {ev : Option Event} (h : m.Settled m') :
    m.Opens { machine := m', event := ev } := fun f => by
  simp [h.live f]

theorem Opens.of_settled {m m' : Machine} {e : Moment} (h : m.Settled m') (he : m'.Opens e) :
    m.Opens e := fun f => by
  rw [he f, h.live f]

/-- At a moment inside a new frame, that frame is there besides those of the moment. -/
theorem Opens.within {m : Machine} {parent : FrameId} {e : Moment}
    (h : Opens { m with frames := m.frames.openIn parent } e) :
    m.Opens (e.within [m.frames.nextId]) := fun f => by
  simp only [Moment.within, h f, Frames.isLive_openIn, List.mem_append, List.mem_singleton]
  rw [or_assoc, or_comm (a := f = _)]

theorem Opens.within_nil {m m' : Machine} {e : Moment} (h : m'.Opens e)
    (hf : m'.frames = m.frames) : m.Opens (e.within []) := fun f => by
  simp only [Moment.within, h f, hf, List.append_nil]

theorem Settled.tidy {m m' : Machine} (h : m.Settled m') (ht : m.Tidy) : m'.Tidy := by
  unfold Tidy
  rw [h.functions]
  exact ht

end Machine

/-- The values that are handed to a function or back from it. -/
def Event.values : Event → List Value
  | .passed args => args
  | .raised (.returned (.multi vs)) => vs
  | .raised (.returned v) => [v]
  | _ => []

namespace Moment

def memory (e : Moment) : Memory := e.machine.memory

/-- The values that are on their way at a moment. -/
def values (e : Moment) : List Value := e.event.elim [] Event.values

end Moment

/-- The bounds a run is looked at under: its limits, the rounds a loop may make and the levels of
calls; and whether its trees are held to be tidy. -/
structure Regime where
  limits : Limits
  rounds : Nat
  levels : Nat
  tidy : Prop

/-- The steps up to the `n`-th have been made, and within the limit. -/
def Limits.Made (limits : Limits) (n : Nat) (m : Machine) : Prop :=
  n ≤ m.steps ∧ ∀ max, limits.maxSteps = some max → n ≤ max

theorem Limits.Made.later {limits : Limits} {n : Nat} {m m' : Machine} (h : limits.Made n m)
    (hs : m.steps ≤ m'.steps) : limits.Made n m' :=
  ⟨Nat.le_trans h.1 hs, h.2⟩

theorem Limits.Made.le {limits : Limits} {n k : Nat} {m : Machine} (h : limits.Made n m)
    (hk : k ≤ n) : limits.Made k m :=
  ⟨Nat.le_trans hk h.1, fun max hmax => Nat.le_trans hk (h.2 max hmax)⟩

namespace Regime

/-- What is known when evaluation went beyond its own bounds: with levels enough for the calls that
are allowed, a loop has made all its rounds. -/
def Spent (R : Regime) (m : Machine) : Prop :=
  m.depth ≤ R.limits.maxDepth → R.limits.maxDepth < m.depth + R.levels →
    R.limits.Made R.rounds m

/-- The regime around a call. -/
def above (R : Regime) : Regime := { R with levels := R.levels + 1 }

/-- The functions a machine knows are as the regime has them. -/
def Knows (R : Regime) (m : Machine) : Prop := R.tidy → m.Tidy

end Regime

/-- Which jumps an action may end in: a `break`, a `continue`, a `return`. -/
structure Mode where
  breaks : Bool
  continues : Bool
  returns : Bool

namespace Mode

def expression : Mode := ⟨false, false, false⟩

def statement : Mode := ⟨true, true, true⟩

/-- A loop takes up `break` and `continue`. -/
def loop : Mode := ⟨false, false, true⟩

/-- A switch takes up `break`. -/
def switch : Mode := ⟨false, true, true⟩

/-- The body of a call, whose result has been taken up. -/
def body : Mode := ⟨true, true, false⟩

/-- The second may end in all the jumps of the first. -/
def Le (k k' : Mode) : Prop :=
  (k.breaks = true → k'.breaks = true) ∧ (k.continues = true → k'.continues = true) ∧
    (k.returns = true → k'.returns = true)

/-- The jumps a statement may end in: its own, and those of its parts that it does not take up. -/
def ofStmt : Stmt → Mode
  | .block .. | .ifElse .. => statement
  | .loop .. => loop
  | .switch .. => switch
  | .breakStmt _ => ⟨true, false, false⟩
  | .continueStmt _ => ⟨false, true, false⟩
  | .returnStmt .. => ⟨false, false, true⟩
  | _ => expression

theorem ofStmt_of_isSimple {s : Stmt} (h : s.isSimple = true) : ofStmt s = expression := by
  cases s <;> simp_all [Stmt.isSimple, ofStmt]

theorem expression_le (k : Mode) : expression.Le k := by simp [Le, expression]

theorem le_statement (k : Mode) : k.Le statement := by simp [Le, statement]

end Mode

/-- An invariant of the memory, with what it has to allow of each elementary change. What a
discipline has nothing to say of is as it may be. -/
structure Discipline where
  Inv : Memory → Prop
  /-- The second memory goes on from the first. -/
  Later : Memory → Memory → Prop := fun _ _ => True
  /-- The values evaluation may hold. -/
  Val : Memory → Value → Prop := fun _ _ => True
  /-- The frames names are looked up from. -/
  Frm : Memory → FrameId → Prop := fun _ _ => True
  /-- The frames names are declared in. -/
  Own : Memory → FrameId → Role → Prop := fun _ _ _ => True
  /-- The variables that may be read. -/
  Sees : Memory → Variable → Prop := fun _ _ => True
  /-- The variables that may be written. -/
  Writes : Memory → Variable → Prop := fun _ _ => True
  /-- The sizes a storage may declare for the number of its elements. -/
  Fits : Nat → Nat → Prop := fun _ _ => True
  /-- Whether there may be compound assignments. -/
  combines : Prop := True
  /-- Whether there may be array literals with elements of another type. -/
  mixes : Prop := True
  /-- The memories up to which the discipline speaks of a run. -/
  Permits : Memory → Prop := fun _ => True
  /-- The second memory goes on from the first, whatever was being executed then. -/
  Past : Memory → Memory → Prop := fun _ _ => True
  /-- The declarations and assignments of which `Past` may be lost, with the memory after them. -/
  Excepts : Memory → Event → Prop := fun _ _ => False
  refl : ∀ μ, Later μ μ := by intros; trivial
  trans : ∀ {μ ν ξ}, Later μ ν → Later ν ξ → Later μ ξ := by intros; trivial
  val_later : ∀ {μ ν v}, Later μ ν → Val μ v → Val ν v := by intros; trivial
  frm_later : ∀ {μ ν f}, Later μ ν → Frm μ f → Frm ν f := by intros; trivial
  own_later : ∀ {μ ν f role}, Later μ ν → Own μ f role → Own ν f role := by intros; trivial
  sees_later : ∀ {μ ν x}, Later μ ν → Sees μ x → Sees ν x := by intros; trivial
  writes_later : ∀ {μ ν x}, Later μ ν → Writes μ x → Writes ν x := by intros; trivial
  sees_of_writes : ∀ {μ x}, Writes μ x → Sees μ x := by intros; trivial
  val_plain : ∀ {μ v}, v.isPlain = true → Val μ v := by intros; trivial
  val_multi : ∀ {μ vs}, Val μ (.multi vs) → ∀ v ∈ vs, Val μ v := by intros; trivial
  sees_name : ∀ {μ f x owner}, Inv μ → Frm μ f → μ.frames.resolve f x = some owner →
    Sees μ ⟨owner, x⟩ := by intros; trivial
  writes_name : ∀ {μ f x owner}, Inv μ → Frm μ f → μ.frames.resolve f x = some owner →
    μ.frames.isConst owner x = false → Writes μ ⟨owner, x⟩ := by intros; trivial
  val_address : ∀ {μ f x owner}, Inv μ → Permits μ → Frm μ f →
    μ.frames.resolve f x = some owner → μ.frames.isConst owner x = false →
    Val μ (.pointer owner x) := by intros; trivial
  writes_pointer : ∀ {μ f x}, Inv μ → Val μ (.pointer f x) → μ.frames.hasLocal f x = true →
    Writes μ ⟨f, x⟩ := by intros; trivial
  val_read : ∀ {μ x v}, Inv μ → Sees μ x → μ.frames.value? x.owner x.name = some v → Val μ v := by
    intros; trivial
  val_item : ∀ {μ id v}, Inv μ → Val μ (.array id) → v ∈ (μ.heap.get id).items → Val μ v := by
    intros; trivial
  fits_self : ∀ {n}, n ≤ maxSize → Fits n n := by intros; trivial
  fits_get : ∀ {μ id}, Inv μ → Val μ (.array id) →
    Fits (μ.heap.get id).size (μ.heap.get id).items.size := by intros; trivial
  uniform_get : ∀ {μ id}, Inv μ → Val μ (.array id) → mixes ∨ (μ.heap.get id).Uniform := by
    intros; exact .inl trivial
  set : ∀ {μ x owner v}, Inv μ → Writes μ x → Val μ v →
    μ.frames.resolve x.owner x.name = some owner →
    (combines ∨ ∀ {s}, μ.frames.local? owner x.name = some s → s.Takes v) →
    Inv (μ.set owner x.name v) ∧ Later μ (μ.set owner x.name v)
  bind : ∀ {μ f name slot entry role}, Inv μ → Frm μ f → Own μ f role → Val μ slot.value →
    μ.Admits f name slot role →
    Inv (μ.bind f name slot entry) ∧ Later μ (μ.bind f name slot entry)
  put : ∀ {μ id i v}, Inv μ → Val μ (.array id) → Val μ v → i < (μ.heap.get id).items.size →
    (∀ stored, v = .array stored → stored ≠ id ∧ μ.heap.holds stored id = false) →
    (combines ∨ (μ.heap.get id).TakesAt i v) →
    Inv (μ.put id i v) ∧ Later μ (μ.put id i v)
  alloc : ∀ {μ s}, Inv μ → (∀ v ∈ s.items, Val μ v) → Fits s.size s.items.size →
    (mixes ∨ s.Uniform) →
    Inv (μ.alloc s) ∧ Later μ (μ.alloc s) ∧ Val (μ.alloc s) (.array μ.heap.size)
  openIn : ∀ {μ parent}, Inv μ → (Frm μ parent ∨ parent = Frames.globalId) →
    Inv (μ.openIn parent) ∧ Frm (μ.openIn parent) μ.frames.nextId ∧
      ∀ v, Val μ v → Val (μ.openIn parent) v
  own_openIn : ∀ {μ parent} role, Inv μ → Own (μ.openIn parent) μ.frames.nextId role := by
    intros; trivial
  close : ∀ {μ parent ν}, Inv μ → Later (μ.openIn parent) ν → Inv ν →
    Inv (ν.close μ.frames.nextId) ∧ Later μ (ν.close μ.frames.nextId) ∧
      ∀ v, Val ν v → Val (ν.close μ.frames.nextId) v
  past_refl : ∀ μ, Past μ μ := by intros; trivial
  past_trans : ∀ {μ ν ξ}, Past μ ν → Past ν ξ → Past μ ξ := by intros; trivial
  past_set : ∀ {μ x owner} v, Inv μ → Writes μ x → μ.frames.resolve x.owner x.name = some owner →
    Past μ (μ.set owner x.name v) ∨
      Excepts (μ.set owner x.name v) (.assigned owner x.name) := by intros; exact .inl trivial
  past_bind : ∀ {μ f name slot role} entry, Inv μ → Val μ slot.value → μ.Admits f name slot role →
    Past μ (μ.bind f name slot entry) ∨
      Excepts (μ.bind f name slot entry) (.declared f name role) := by intros; exact .inl trivial
  past_heap : ∀ {μ : Memory} {h}, Inv μ → Later μ { μ with heap := h } →
    Past μ { μ with heap := h } := by intros; trivial
  past_openIn : ∀ {μ} parent, Inv μ → Past μ (μ.openIn parent) := by intros; trivial
  past_close : ∀ {μ} id, Inv μ → Past μ (μ.close id) := by intros; trivial

namespace Discipline

variable (D : Discipline)

/-- A value an expression may have: one that may be held, or several of them. -/
def Res (μ : Memory) (v : Value) : Prop :=
  D.Val μ v ∨ ∃ vs, v = .multi vs ∧ 2 ≤ vs.length ∧ ∀ w ∈ vs, D.Val μ w

/-- The signals that may leave an action: jumps only where the scopes allow them, as far as trees
are tidy. -/
def Stops (R : Regime) (k : Mode) (m : Machine) : Signal → Prop
  | .broke => R.tidy → k.breaks = true ∧ m.symbols.canBreak = true
  | .continued => R.tidy → k.continues = true ∧ m.symbols.canContinue = true
  | .returned v => k.returns = true ∧ m.symbols.canReturn = true ∧ D.Res m.memory v
  | .fault .. => True
  | .abort .. => True
  | .exhausted => R.Spent m

/-- `m'` is what an action leaves of `m`. -/
structure Leads (m m' : Machine) : Prop where
  settled : m.Settled m'
  inv : D.Inv m'.memory
  later : D.Later m.memory m'.memory

/-- How an action that began in `m` may end. -/
def Ends {α : Type} (R : Regime) (k : Mode) (m : Machine) (post : α → Machine → Prop) :
    Outcome α → Prop
  | .ok a m' => D.Leads m m' ∧ post a m'
  | .error s m' => D.Leads m m' ∧ D.Stops R k m' s

/-- What is done at a moment is nothing that the discipline forbids. -/
structure Allows (e : Moment) : Prop where
  combined : e.event = some .combined → D.combines
  mixed : D.mixes ∨ e.machine.Unmixed
  permits : D.Permits e.memory

/-- The discipline forbids nothing. -/
structure Loose : Prop where
  combines : D.combines := by trivial
  mixes : D.mixes := by trivial
  permits : ∀ μ, D.Permits μ := by exact fun _ => trivial

theorem Loose.allows {D : Discipline} (h : D.Loose) (e : Moment) : D.Allows e :=
  ⟨fun _ => h.combines, .inl h.mixes, h.permits _⟩

/-- Behind a declaration or an assignment of which `Past` may be lost. -/
def Disturbs (e : Moment) : Prop := ∃ ev, e.event = some ev ∧ D.Excepts e.memory ev

/-- What a discipline says of a name behind its declaration. -/
structure Declares (μ : Memory) (f : FrameId) (name : String) (role : Role) : Prop where
  own : D.Own μ f role
  frm : D.Frm μ f
  slot : μ.frames.isLive f = true →
    ∃ s, μ.frames.local? f name = some s ∧ (s.constant = true ↔ role = .constant)

/-- What a discipline says of a moment of an action that began in `m`. -/
structure Point (R : Regime) (m : Machine) (e : Moment) : Prop where
  inside : m.Inside R.limits e.machine
  opens : m.Opens e
  inv : D.Inv e.memory
  vals : ∀ v ∈ e.values, D.Val e.memory v
  declares : ∀ {f name role}, e.event = some (.declared f name role) →
    D.Declares e.memory f name role

/-- Moments one after the other, the memory being `μ` before the first of them and `ν` after the
last: up to one that is not allowed each is as it should be (`T`), and if all are allowed, the end
is (`E`). -/
def Follows (T : Moment → Prop) (ν : Memory) (E : Prop) : Memory → List Moment → Prop
  | μ, [] => D.Past μ ν ∧ E
  | μ, e :: es => D.Allows e →
    (D.Past μ e.memory ∨ D.Disturbs e) ∧ T e ∧ Follows T ν E e.memory es

/-- An action keeps the discipline from `m` on: at all moments it goes through, and however it
ends. -/
def Keeps {α : Type} (R : Regime) (k : Mode) (x : Eval α) (m : Machine)
    (post : α → Machine → Prop) : Prop :=
  ∀ es, x.trace m es →
    D.Follows (D.Point R m) (x.run m).machine.memory (D.Ends R k m post (x.run m)) m.memory es

/-- What evaluation in a frame begins with. -/
structure Ready (R : Regime) (m : Machine) (frame : FrameId) : Prop where
  inv : D.Inv m.memory
  knows : R.Knows m
  frm : D.Frm m.memory frame

/-- Statements may declare names in the frame. -/
def Owns (μ : Memory) (frame : FrameId) : Prop := ∀ role, role ≠ .parameter → D.Own μ frame role

/-- What statements in a frame begin with. -/
structure Home (R : Regime) (m : Machine) (frame : FrameId) : Prop extends Ready D R m frame where
  owns : D.Owns m.memory frame

variable {D} {R R' : Regime} {k k' : Mode} {m m' m'' : Machine} {α β : Type}

theorem Leads.refl (h : D.Inv m.memory) : D.Leads m m := ⟨.refl m, h, D.refl _⟩

theorem Leads.trans (h : D.Leads m m') (h' : D.Leads m' m'') : D.Leads m m'' :=
  ⟨h.settled.trans h'.settled, h'.inv, D.trans h.later h'.later⟩

/-- A change that leaves the memory alone. -/
theorem Leads.of_memory_eq (h : D.Inv m.memory) (hs : m.Settled m') (he : m'.memory = m.memory) :
    D.Leads m m' := by
  refine ⟨hs, ?_, ?_⟩
  · rw [he]; exact h
  · rw [he]; exact D.refl _

theorem Leads.point (h : D.Leads m m') : D.Point R m { machine := m' } :=
  ⟨h.settled.inside _, h.settled.opens, h.inv, by simp [Moment.values], fun he => nomatch he⟩

theorem Point.of_settled {e : Moment} (h : m.Settled m') (he : D.Point R m' e) : D.Point R m e :=
  ⟨.of_settled h he.inside, .of_settled h he.opens, he.inv, he.vals, he.declares⟩

theorem Ready.of_leads {frame : FrameId} (h : D.Ready R m frame) (hl : D.Leads m m') :
    D.Ready R m' frame :=
  ⟨hl.inv, fun t => hl.settled.tidy (h.knows t), D.frm_later hl.later h.frm⟩

theorem Home.of_leads {frame : FrameId} (h : D.Home R m frame) (hl : D.Leads m m') :
    D.Home R m' frame :=
  ⟨h.toReady.of_leads hl, fun role hr => D.own_later hl.later (h.owns role hr)⟩

theorem Leads.val {v : Value} (h : D.Leads m m') (hv : D.Val m.memory v) : D.Val m'.memory v :=
  D.val_later h.later hv

theorem Res.val {μ : Memory} {v : Value} (h : D.Res μ v) (hv : v.isMulti = false) : D.Val μ v := by
  rcases h with h | ⟨vs, rfl, -⟩
  · exact h
  · simp [Value.isMulti] at hv

theorem Res.multi {μ : Memory} {vs : List Value} (h : D.Res μ (.multi vs)) :
    ∀ w ∈ vs, D.Val μ w := by
  rcases h with h | ⟨ws, hw, -, hv⟩
  · exact D.val_multi h
  · cases hw
    exact hv

theorem Res.imp {μ ν : Memory} {v : Value} (h : D.Res μ v)
    (hval : ∀ w, D.Val μ w → D.Val ν w) : D.Res ν v := by
  rcases h with h | ⟨vs, rfl, hl, hv⟩
  · exact .inl (hval v h)
  · exact .inr ⟨vs, rfl, hl, fun w hw => hval w (hv w hw)⟩

theorem val_nil {μ : Memory} : D.Val μ .nil := D.val_plain rfl

/-! ### Following moments -/

section Follows

variable {es es' : List Moment} {μ ν ξ : Memory} {E E' : Prop} {T T' : Moment → Prop}

theorem Follows.of_past (h : D.Follows T ξ E ν es) (hp : D.Past μ ν) : D.Follows T ξ E μ es := by
  cases es with
  | nil => exact ⟨D.past_trans hp h.1, h.2⟩
  | cons e es =>
    intro ha
    obtain ⟨h₁, h₂⟩ := h ha
    exact ⟨h₁.imp_left (D.past_trans hp), h₂⟩

/-- Moments, and others after them. -/
theorem Follows.append (h : D.Follows T ν E μ es) (h' : E → D.Follows T ξ E' ν es') :
    D.Follows T ξ E' μ (es ++ es') := by
  induction es generalizing μ with
  | nil => exact (h' h.2).of_past h.1
  | cons e es ih =>
    intro ha
    obtain ⟨h₁, h₂, h₃⟩ := h ha
    exact ⟨h₁, h₂, ih h₃⟩

/-- The same moments, met in the course of something else. -/
theorem Follows.within {opened : List FrameId} (h : D.Follows T ν E μ es)
    (hpoint : ∀ e, T e → T' (e.within opened)) (hE : E → D.Past ν ξ ∧ E') :
    D.Follows T' ξ E' μ (es.map (Moment.within opened)) := by
  induction es generalizing μ with
  | nil => exact ⟨D.past_trans h.1 (hE h.2).1, (hE h.2).2⟩
  | cons e es ih =>
    intro ha
    obtain ⟨h₁, h₂, h₃⟩ := h ⟨ha.combined, ha.mixed, ha.permits⟩
    exact ⟨h₁, hpoint e h₂, ih h₃⟩

theorem Follows.imp (h : D.Follows T ν E μ es) (hpoint : ∀ e, T e → T' e) (hE : E → E') :
    D.Follows T' ν E' μ es := by
  induction es generalizing μ with
  | nil => exact ⟨h.1, hE h.2⟩
  | cons e es ih =>
    intro ha
    obtain ⟨h₁, h₂, h₃⟩ := h ha
    exact ⟨h₁, hpoint e h₂, ih h₃⟩

/-- A moment before which all was allowed is as it should be, and so is what comes after it. -/
theorem Follows.at {e : Moment} (h : D.Follows T ν E μ (es ++ e :: es'))
    (ha : ∀ e' ∈ es ++ [e], D.Allows e') : T e ∧ D.Follows T ν E e.memory es' := by
  induction es generalizing μ with
  | nil => exact (h (ha e (by simp))).2
  | cons e' es ih =>
    exact ih (h (ha e' (by simp))).2.2 fun x hx => ha x (by simp_all)

/-- How a moment goes on from the memory before, if nothing disturbs that. -/
theorem Follows.past {e : Moment} (h : D.Follows T ν E μ (es ++ e :: es'))
    (ha : ∀ e' ∈ es ++ [e], D.Allows e' ∧ ¬ D.Disturbs e') : D.Past μ e.memory := by
  induction es generalizing μ with
  | nil =>
    obtain ⟨hallows, hquiet⟩ := ha e (by simp)
    exact (h hallows).1.resolve_right hquiet
  | cons e' es ih =>
    obtain ⟨hallows, hquiet⟩ := ha e' (by simp)
    obtain ⟨h₁, -, h₃⟩ := h hallows
    exact D.past_trans (h₁.resolve_right hquiet) (ih h₃ fun x hx => ha x (by simp_all))

theorem Follows.past_end (h : D.Follows T ν E μ es)
    (ha : ∀ e ∈ es, D.Allows e ∧ ¬ D.Disturbs e) : D.Past μ ν := by
  induction es generalizing μ with
  | nil => exact h.1
  | cons e es ih =>
    obtain ⟨hallows, hquiet⟩ := ha e (by simp)
    obtain ⟨h₁, -, h₃⟩ := h hallows
    exact D.past_trans (h₁.resolve_right hquiet) (ih h₃ fun x hx => ha x (by simp [hx]))

/-- Where nothing is forbidden, every moment is as it should be, and so is the end. -/
theorem Follows.of_loose (hD : D.Loose) (h : D.Follows T ν E μ es) : (∀ e ∈ es, T e) ∧ E := by
  induction es generalizing μ with
  | nil => exact ⟨by simp, h.2⟩
  | cons e es ih =>
    obtain ⟨-, h₂, h₃⟩ := h (hD.allows e)
    obtain ⟨hes, hE⟩ := ih h₃
    exact ⟨List.forall_mem_cons.mpr ⟨h₂, hes⟩, hE⟩

/-- Where nothing is forbidden or disturbs, every moment goes on from every earlier one. -/
theorem Follows.pairwise (hD : D.Loose) (hE : ∀ e, ¬ D.Disturbs e) (h : D.Follows T ν E μ es) :
    es.Pairwise fun e e' => D.Past e.memory e'.memory := by
  induction es generalizing μ with
  | nil => exact .nil
  | cons e es ih =>
    obtain ⟨-, -, h₃⟩ := h (hD.allows e)
    refine List.pairwise_cons.mpr ⟨fun e' he' => ?_, ih h₃⟩
    obtain ⟨ps, qs, rfl⟩ := List.append_of_mem he'
    exact h₃.past fun x _ => ⟨hD.allows x, hE x⟩

end Follows

end Discipline

end Treewalk
