/-
# A call changes only what it can reach

What a call can get hold of is found by following references: from the global
variables and from the pointers in its arguments, through variables, elements
and pointers (`Memory.Reaches`). Every variable and every storage that was
there before the call and is not among these is the same after it, however
the call ends (`call_keeps_unreached`). An array argument is not itself among
them: the call works on a copy, and only the pointers in it are shared.

The invariant is that of a discipline, `Discipline.isolated`, relative to the
memory before the call. All cells that are new or reached hold only
references to such cells, all others are as they were, and the frames of the
call lie in each other or in the global frame. The arguments are the one
place where other cells come in, and there they are copied to the end of
their nesting, which is finite in every memory a session reaches.

Key definitions: `Memory.FoundIn`, `Memory.Reaches`, `Memory.Isolated`,
`Discipline.isolated`.
Key theorems: `Memory.isolated_start`, `Discipline.makes_copyTo_found`,
`call_keeps_unreached`.
-/
import Treewalk.Proofs.Formed
import Treewalk.Proofs.Outcome

namespace Treewalk
namespace Memory

/-- The values found in arguments, at any depth inside arrays. -/
inductive FoundIn (μ : Memory) (args : List Value) : Value → Prop
  | arg {v : Value} : v ∈ args → FoundIn μ args v
  | element {id : StorageId} {v : Value} : FoundIn μ args (.array id) →
    v ∈ (μ.heap.get id).items → FoundIn μ args v

/-- The cells reached from the global frame and from the pointers in arguments. -/
inductive Reaches (μ : Memory) (args : List Value) : Cell → Prop
  | global (name : String) : Reaches μ args (.slot Frames.globalId name)
  | passed {frame : FrameId} {name : String} : μ.FoundIn args (.pointer frame name) →
    Reaches μ args (.slot frame name)
  | follow {c d : Cell} {v : Value} : Reaches μ args c → μ.Holds v c → v.cell? = some d →
    Reaches μ args d

/-- A call may use a cell: it was reached from the start, or has been made since. -/
def Open (μ : Memory) (args : List Value) (c : Cell) : Prop := μ.Made c → μ.Reaches args c

/-- A call may hold a value: a single one, and what it refers to is open. -/
def OpenValue (μ : Memory) (args : List Value) (v : Value) : Prop :=
  v.kind ≠ .multi ∧ ∀ c, v.cell? = some c → μ.Open args c

/-- The frames of a call, and the global one. -/
def OpenFrame (μ : Memory) (frame : FrameId) : Prop :=
  frame = Frames.globalId ∨ μ.frames.nextId ≤ frame

theorem OpenFrame.slot {μ : Memory} {args : List Value} {frame : FrameId} (h : μ.OpenFrame frame)
    (name : String) : μ.Open args (.slot frame name) := by
  intro hm
  rcases h with rfl | h
  · exact .global name
  · exact absurd hm (Nat.not_lt_of_le h)

/-- The memory `μ` in the course of a call that began in the memory `base`. -/
structure Isolated (base : Memory) (args : List Value) (μ : Memory) : Prop where
  same : ∀ c, ¬ base.Open args c → base.SameAt μ c
  values : ∀ c v, base.Open args c → μ.Holds v c → base.OpenValue args v
  parents : ∀ f p, base.OpenFrame f → μ.frames.parent? f = some (some p) → base.OpenFrame p
  nextId : base.frames.nextId ≤ μ.frames.nextId
  size : base.heap.size ≤ μ.heap.size

theorem isolated_start {base : Memory} (h : base.Formed) (args : List Value) :
    base.Isolated args base where
  same c _ := .refl base c
  values c v hc hv := by
    have hr := hc (made_of_holds hv)
    refine ⟨fun hk => ?_, fun d hd _ => hr.follow hv hd⟩
    have hs := h.values c v hv
    cases v with
    | multi vs => exact hs
    | _ => cases hk
  parents f p hf hp := by
    rcases hf with rfl | hf
    · rw [h.global] at hp
      cases hp
    · exact absurd (Frames.lt_nextId_of_parent? hp) (Nat.not_lt_of_le hf)
  nextId := Nat.le_refl _
  size := Nat.le_refl _

namespace Isolated

variable {base μ : Memory} {args : List Value} {f owner : FrameId} {id : StorageId}
  {name : String} {v : Value}

theorem openFrame_of_resolve (h : base.Isolated args μ) (hf : base.frames.nextId ≤ f)
    (hr : μ.frames.resolve f name = some owner) : base.OpenFrame owner :=
  Frames.resolve_closed h.parents (.inr hf) hr

theorem made_of_not_open {c : Cell} (hn : ¬ base.Open args c) : base.Made c :=
  by_contra fun hm => hn fun h => absurd h hm

theorem made (h : base.Isolated args μ) {c : Cell} (hc : base.Made c) : μ.Made c := by
  cases c with
  | slot f x => exact Nat.lt_of_lt_of_le hc h.nextId
  | storage id => exact Nat.lt_of_lt_of_le hc h.size

theorem set (h : base.Isolated args μ) (hc : base.Open args (.slot owner name))
    (hv : base.OpenValue args v) : base.Isolated args (μ.set owner name v) where
  same c hn := by
    refine (h.same c hn).trans (sameAt_set ?_)
    rintro rfl
    exact hn hc
  values c w hc hw := by
    rcases holds_set hw with ⟨-, rfl⟩ | hw
    · exact hv
    · exact h.values c w hc hw
  parents f p hf hp := by
    rw [Memory.set, Frames.parent?_setLocal] at hp
    exact h.parents f p hf hp
  nextId := by
    rw [Memory.set, Frames.nextId_setLocal]
    exact h.nextId
  size := h.size

theorem bind {slot : Slot} {entry : Nat} (h : base.Isolated args μ)
    (hf : base.frames.nextId ≤ f) (hv : base.OpenValue args slot.value) :
    base.Isolated args (μ.bind f name slot entry) where
  same c hn := by
    refine (h.same c hn).trans (sameAt_bind ?_)
    rintro rfl
    exact hn (OpenFrame.slot (.inr hf) name)
  values c w hc hw := by
    rcases holds_bind hw with ⟨-, rfl⟩ | hw
    · exact hv
    · exact h.values c w hc hw
  parents g p hg hp := by
    rw [Memory.bind, Frames.parent?_bindSymbol, Frames.parent?_bind] at hp
    exact h.parents g p hg hp
  nextId := by
    rw [Memory.bind, Frames.nextId_bindSymbol, Frames.nextId_bind]
    exact h.nextId
  size := h.size

theorem put {i : Nat} (h : base.Isolated args μ) (hc : base.Open args (.storage id))
    (hv : base.OpenValue args v) : base.Isolated args (μ.put id i v) where
  same c hn := by
    refine (h.same c hn).trans (sameAt_put ?_)
    rintro rfl
    exact hn hc
  values c w hc hw := by
    rcases holds_put hw with ⟨-, rfl⟩ | hw
    · exact hv
    · exact h.values c w hc hw
  parents := h.parents
  nextId := h.nextId
  size := by
    rw [Memory.put, Heap.size_put]
    exact h.size

theorem alloc {s : Storage} (h : base.Isolated args μ)
    (hs : ∀ v ∈ s.items, base.OpenValue args v) : base.Isolated args (μ.alloc s) where
  same c hn := (h.same c hn).trans (sameAt_alloc (h.made (made_of_not_open hn)))
  values c w hc hw := by
    rcases holds_alloc hw with ⟨-, hw⟩ | hw
    · exact hs w hw
    · exact h.values c w hc hw
  parents := h.parents
  nextId := h.nextId
  size := by
    rw [Memory.alloc, Heap.size_alloc]
    exact Nat.le_succ_of_le h.size

theorem openIn {parent : FrameId} (h : base.Isolated args μ) (hp : base.OpenFrame parent) :
    base.Isolated args (μ.openIn parent) where
  same c hn := (h.same c hn).trans sameAt_openIn
  values c w hc hw := h.values c w hc (sameAt_openIn.holds hw)
  parents f p hf hfp := by
    rw [Memory.openIn, Frames.parent?_openIn] at hfp
    split at hfp
    · cases hfp
      exact hp
    · exact h.parents f p hf hfp
  nextId := by
    rw [Memory.openIn, Frames.nextId_openIn]
    exact Nat.le_succ_of_le h.nextId
  size := h.size

theorem close (h : base.Isolated args μ) (hf : base.frames.nextId ≤ f) :
    base.Isolated args (μ.close f) where
  same c hn := by
    refine (h.same c hn).trans (sameAt_close ?_)
    rintro x rfl
    exact hn (OpenFrame.slot (.inr hf) x)
  values c w hc hw := h.values c w hc (holds_close hw)
  parents g p hg hp := by
    rw [Memory.close, Frames.parent?_close] at hp
    split at hp
    · cases hp
    · exact h.parents g p hg hp
  nextId := by
    rw [Memory.close, Frames.nextId_close]
    exact h.nextId
  size := h.size

end Isolated

/-- What is kept of the frames from one memory to a later one: those that are gone stay gone, and a
frame loses no binding as long as it is there. -/
structure Continues (μ ν : Memory) : Prop where
  nextId : μ.frames.nextId ≤ ν.frames.nextId
  gone : ∀ f, f < μ.frames.nextId → μ.frames.parent? f = none → ν.frames.parent? f = none
  kept : ∀ f x, μ.frames.hasLocal f x = true →
    ν.frames.hasLocal f x = true ∨ ν.frames.parent? f = none

namespace Continues

variable {μ ν ξ : Memory} {f owner : FrameId} {name : String}

theorem refl (μ : Memory) : μ.Continues μ := ⟨Nat.le_refl _, fun _ _ h => h, fun _ _ h => .inl h⟩

theorem trans (h : μ.Continues ν) (h' : ν.Continues ξ) : μ.Continues ξ where
  nextId := Nat.le_trans h.nextId h'.nextId
  gone f hf hg := h'.gone f (Nat.lt_of_lt_of_le hf h.nextId) (h.gone f hf hg)
  kept f x hx := by
    rcases h.kept f x hx with hν | hν
    · exact h'.kept f x hν
    · obtain ⟨p, hp⟩ := Frames.parent?_of_hasLocal hx
      exact .inr (h'.gone f (Nat.lt_of_lt_of_le (Frames.lt_nextId_of_parent? hp) h.nextId) hν)

/-- A change that leaves the frames as they are but for the contents of variables. -/
theorem of_frames (hn : ν.frames.nextId = μ.frames.nextId)
    (hp : ∀ f, ν.frames.parent? f = μ.frames.parent? f)
    (hl : ∀ f x, μ.frames.hasLocal f x = true → ν.frames.hasLocal f x = true) :
    μ.Continues ν :=
  ⟨Nat.le_of_eq hn.symm, fun f _ h => (hp f).trans h, fun f x h => .inl (hl f x h)⟩

theorem set {v : Value} : μ.Continues (μ.set owner name v) := by
  refine of_frames (Frames.nextId_setLocal ..) (Frames.parent?_setLocal _ _ _ _) fun f x h => ?_
  rw [Memory.set, Frames.hasLocal_setLocal]
  exact h

theorem bind {slot : Slot} {entry : Nat} : μ.Continues (μ.bind f name slot entry) := by
  refine of_frames ?_ (fun g => ?_) fun g x h => ?_
  · rw [Memory.bind, Frames.nextId_bindSymbol, Frames.nextId_bind]
  · rw [Memory.bind, Frames.parent?_bindSymbol, Frames.parent?_bind]
  · rw [Memory.bind, Frames.hasLocal_bindSymbol, Frames.hasLocal_bind]
    split
    · rename_i hgx
      obtain ⟨p, hp⟩ := Frames.parent?_of_hasLocal h
      rw [hgx.1] at hp
      rw [hp]
      rfl
    · exact h

theorem of_heap {h : Heap} : μ.Continues { μ with heap := h } :=
  of_frames rfl (fun _ => rfl) fun _ _ h => h

/-- A frame that was opened and closed again has left no trace. -/
theorem close {parent : FrameId} (h : (μ.openIn parent).Continues ν) :
    μ.Continues (ν.close μ.frames.nextId) where
  nextId := by
    rw [Memory.close, Frames.nextId_close]
    have hn := h.nextId
    rw [Memory.openIn, Frames.nextId_openIn] at hn
    exact Nat.le_of_succ_le hn
  gone f hf hg := by
    rw [Memory.close, Frames.parent?_close, if_neg (Nat.ne_of_lt hf)]
    refine h.gone f ?_ ?_
    · rw [Memory.openIn, Frames.nextId_openIn]
      exact Nat.lt_succ_of_lt hf
    · rw [Memory.openIn, Frames.parent?_openIn, if_neg (Nat.ne_of_lt hf)]
      exact hg
  kept f x hx := by
    obtain ⟨p, hp⟩ := Frames.parent?_of_hasLocal hx
    have hne := Nat.ne_of_lt (Frames.lt_nextId_of_parent? hp)
    rw [Memory.close, Frames.hasLocal_close, if_neg hne, Frames.parent?_close, if_neg hne]
    refine h.kept f x ?_
    rw [Memory.openIn, Frames.hasLocal_openIn]
    exact hx

end Continues

/-- A variable that was bound in its own frame: it still is, unless the frame is gone. -/
structure Bound (μ : Memory) (x : Variable) : Prop where
  lt : x.owner < μ.frames.nextId
  bound : μ.frames.hasLocal x.owner x.name = true ∨ μ.frames.parent? x.owner = none

theorem Bound.of_hasLocal {μ : Memory} {x : Variable}
    (h : μ.frames.hasLocal x.owner x.name = true) : μ.Bound x := by
  obtain ⟨p, hp⟩ := Frames.parent?_of_hasLocal h
  exact ⟨Frames.lt_nextId_of_parent? hp, .inl h⟩

theorem Bound.later {μ ν : Memory} {x : Variable} (h : μ.Bound x) (hl : μ.Continues ν) :
    ν.Bound x where
  lt := Nat.lt_of_lt_of_le h.lt hl.nextId
  bound := by
    rcases h.bound with hx | hx
    · exact hl.kept _ _ hx
    · exact .inr (hl.gone _ h.lt hx)

/-- The name of a variable stands for no other variable in the frame of the variable. -/
theorem Bound.eq_of_resolve {μ : Memory} {x : Variable} {owner : FrameId} (h : μ.Bound x)
    (hr : μ.frames.resolve x.owner x.name = some owner) : owner = x.owner := by
  rcases h.bound with hx | hx
  · rw [Frames.resolve_of_hasLocal hx] at hr
    cases hr
    rfl
  · rw [Frames.resolve_of_parent?_none hx] at hr
    cases hr

end Memory

/-- A type accepts values of its kind; a pointer may be nil. -/
theorem Ty.kind_of_accepts {t : Ty} {v : Value} (h : t.accepts v = true) :
    v.kind = t.kind ∨ v = .nil := by
  unfold Ty.accepts at h
  split at h
  · exact .inr rfl
  · exact .inl (by simpa using Eq.symm (by simpa using h))

theorem Ty.not_multi_of_accepts {t : Ty} {v : Value} (h : t.accepts v = true) :
    v.kind ≠ .multi := by
  intro hm
  rcases Ty.kind_of_accepts h with hk | rfl
  · rw [hm] at hk
    cases t <;> cases hk
  · cases hm

namespace Discipline

open Memory

/-- What a call keeps that began in the memory `base`: it works in its own frames, and holds, sees
and writes open cells only. -/
def isolated (base : Memory) (args : List Value) : Discipline where
  Inv := base.Isolated args
  Later := Continues
  Val _ := base.OpenValue args
  Frm _ f := base.frames.nextId ≤ f
  Sees μ x := base.Open args (.slot x.owner x.name) ∧ μ.Bound x
  Writes μ x := base.Open args (.slot x.owner x.name) ∧ μ.Bound x
  refl := .refl
  trans := .trans
  val_later _ h := h
  frm_later _ h := h
  sees_later hl h := ⟨h.1, h.2.later hl⟩
  writes_later hl h := ⟨h.1, h.2.later hl⟩
  sees_of_writes h := h
  val_plain {_ v} h := by cases v <;> simp_all [Value.isPlain, OpenValue, Value.kind, Value.cell?]
  val_multi h := absurd rfl h.1
  sees_name h hf hr :=
    ⟨(h.openFrame_of_resolve hf hr).slot _, .of_hasLocal (Frames.hasLocal_of_resolve hr)⟩
  writes_name h hf hr _ :=
    ⟨(h.openFrame_of_resolve hf hr).slot _, .of_hasLocal (Frames.hasLocal_of_resolve hr)⟩
  val_address h _ hf hr _ := by
    refine ⟨by simp [Value.kind], fun c hc => ?_⟩
    cases hc
    exact (h.openFrame_of_resolve hf hr).slot _
  writes_pointer _ hv hl := ⟨hv.2 _ rfl, .of_hasLocal hl⟩
  val_read h hx hv := by
    obtain ⟨owner, ho, hv⟩ := holds_of_value? hv
    rw [hx.2.eq_of_resolve ho] at hv
    exact h.values _ _ hx.1 hv
  val_item {_ id _} h ha hv := h.values (.storage id) _ (ha.2 _ rfl) hv
  set h hx hv ho _ := by
    rw [hx.2.eq_of_resolve ho]
    exact ⟨h.set hx.1 hv, .set⟩
  bind h hf _ hv _ := ⟨h.bind hf hv, .bind⟩
  put h ha hv _ _ _ := ⟨h.put (ha.2 _ rfl) hv, .of_heap⟩
  alloc h hs _ _ := by
    refine ⟨h.alloc hs, .of_heap, by simp [Value.kind], fun c hc => ?_⟩
    cases hc
    exact fun hm => absurd hm (Nat.not_lt_of_le h.size)
  openIn h hp := ⟨h.openIn hp.symm, h.nextId, fun _ hv => hv⟩
  close h hl h' := ⟨h'.close h.nextId, hl.close, fun _ hv => hv⟩

/-! ### The arguments -/

section Arguments

variable {base μ : Memory} {args : List Value} {v : Value}

/-- What is found in the arguments is open, arrays apart. -/
theorem openValue_of_found (hv : base.FoundIn args v) (hm : v.kind ≠ .multi)
    (ha : ∀ id, v = .array id → base.Open args (.storage id)) : base.OpenValue args v := by
  refine ⟨hm, fun c hc => ?_⟩
  cases v with
  | array id =>
    cases hc
    exact ha id rfl
  | pointer frame name =>
    cases hc
    exact fun _ => .passed hv
  | _ => cases hc

/-- A copy as deep as the nesting of what is found in the arguments has only open cells: an array
that is not open is as it was when the call began, and its elements are found in the arguments. -/
theorem makes_copyTo_found (hb : base.Formed) : ∀ (depth : Nat) (v : Value) {μ : Memory},
    base.Isolated args μ → base.FoundIn args v → v.kind ≠ .multi →
    (∀ id, v = .array id → base.heap.rank id ≤ depth) →
    (isolated base args).Makes μ (μ.heap.copyTo depth v).1 (μ.heap.copyTo depth v).2 := by
  intro depth
  induction depth with
  | zero =>
    intro v μ h hv hm hd
    refine makes_copyTo 0 v h (openValue_of_found hv hm fun id hid hmade => ?_)
    have hpos := Heap.rank_pos hmade
    have hle := hd id hid
    omega
  | succ depth ih =>
    intro v μ h hv hm hd
    by_cases hopen : ∀ id, v = .array id → base.Open args (.storage id)
    · exact makes_copyTo (depth + 1) v h (openValue_of_found hv hm hopen)
    · push Not at hopen
      obtain ⟨id, rfl, hno⟩ := hopen
      refine makes_copyTo_array h (fun w hw g hg _ => ?_) trivial (.inl trivial)
      have hw : base.Holds w (.storage id) := (h.same _ hno).holds hw
      have hwm : w.kind ≠ .multi := by
        have hs := hb.values _ w hw
        cases w with
        | multi ws => exact hs.elim
        | _ => simp [Value.kind]
      refine ih w hg (.element hv hw) hwm fun inner hin => ?_
      subst hin
      have hlt := Heap.rank_lt hb.acyclic (a := id) hw
      have hle := hd id rfl
      omega

variable {R : Regime} {ctx : Context} {m : Machine} {frame : FrameId}

/-- A value that is several at once is nobody's parameter, so its copy does not matter. -/
theorem keeps_copy_found (hb : base.Formed) (h : base.Isolated args m.memory)
    (hv : base.FoundIn args v) :
    (isolated base args).Keeps R .expression (Eval.copy v) m
      fun w _ => w.kind ≠ .multi → base.OpenValue args w := by
  by_cases hm : v.kind = .multi
  · cases v with
    | multi vs =>
      refine (keeps_copy_multi h).mono fun w _ _ hw hk => ?_
      rw [hw] at hk
      exact absurd rfl hk
    | _ => cases hm
  · have hdepth : ∀ id, v = .array id → base.heap.rank id ≤ m.heap.size := fun id _ =>
      Nat.le_trans (base.heap.rank_le_size id) h.size
    exact (keeps_onHeap h (makes_copyTo_found hb _ v h hv hm hdepth)).mono fun _ _ _ hw _ => hw

theorem keeps_bindParam_found (hc : (isolated base args).Calls R ctx) (hb : base.Formed)
    (h : (isolated base args).Callee R m frame) {p : Param} (hv : base.FoundIn args v) :
    (isolated base args).Keeps R .expression (Eval.bindParam ctx frame p v) m
      fun _ m' => Plain m' frame := by
  refine keeps_bindParam_of hc h fun t m₁ hl₁ ht => ?_
  by_cases hp : p.byPointer = true
  · -- only a pointer or nil is passed as it is
    simp only [if_pos hp]
    refine keeps_pure hl₁.inv fun ha => ?_
    have hk := Ty.kind_of_accepts ha
    rw [ht hp] at hk
    refine openValue_of_found hv (Ty.not_multi_of_accepts ha) fun id hid => ?_
    subst hid
    rcases hk with hk | hk <;> cases hk
  · simp only [if_neg hp]
    refine (keeps_copy_found hb hl₁.inv hv).map fun w m' _ hw ha => ?_
    rcases t.convert_eq w with he | he
    · rw [he] at ha ⊢
      exact hw (Ty.not_multi_of_accepts ha)
    · exact (isolated base args).val_plain (μ := m'.memory) he

/-- A call keeps its isolation from the memory it begins in, whatever its arguments. -/
theorem keeps_runFunction_found (hb : m.memory.Formed)
    (hc : (isolated m.memory args).Calls R ctx) (hk : R.Knows m) (func : FuncDecl)
    (ht : R.tidy → func.tidy = true) (pos : Position) :
    (isolated m.memory args).Keeps R.above .expression (Eval.runFunction ctx func args pos) m
      (isolated m.memory args).Gives := by
  have hstart := isolated_start hb args
  refine keeps_runFunction_of hc hstart hk ht (keeps_bindParams_of _ (callee_called hstart hk) ?_)
  intro p hp m' _ h'
  exact keeps_bindParam_found hc hb h' (.arg (List.of_mem_zip hp).2)

end Arguments

end Discipline

/-- **A call changes only what it can reach.** Every variable and every storage that was there
before the call, and that is reached neither from the global frame nor from a pointer in the
arguments, has the same content after it, however the call ends. -/
theorem call_keeps_unreached (config : Config) (rounds levels : Nat) {m : Machine}
    (hm : m.Reached config fun _ => True) (func : FuncDecl) (args : List Value) (pos : Position)
    {c : Cell} (hc : m.memory.Made c) (hr : ¬ m.memory.Reaches args c) :
    m.memory.SameAt ((Eval.invoke config rounds levels func args pos).run m).machine.memory c := by
  cases levels with
  | zero => exact .refl _ c
  | succ levels =>
    have hcalls := (Discipline.isolated m.memory args).calls_ofLevels config rounds False levels
    have hcall := Discipline.keeps_runFunction_found (formed_of_reached hm) hcalls
      (fun hf => hf.elim) func (fun hf => hf.elim) pos
    exact hcall.ends.leads.inv.same c fun ho => hr (ho hc)

/-- A call of a function without parameters passes the machine that its body leaves. -/
theorem Eval.passes_call {m : Machine} (config : Config) (func : FuncDecl) (pos : Position)
    (hp : func.params = []) (hd : m.depth < config.limits.maxDepth) :
    (config.context.call func [] pos).passes m
      ((Stmt.execAll (.ofLevels config (config.limits.maxSteps.getD UInt64.size + 1)
        config.limits.maxDepth) func.body m.frames.nextId).run
        { m.called func.name with frames := m.frames.openIn Frames.globalId }).machine := by
  have hdepth : ¬ config.limits.maxDepth ≤ m.depth := Nat.not_le_of_lt hd
  change (runFunction _ func [] pos).passes m _
  unfold runFunction
  rw [hp]
  refine .inr ⟨m, m, rfl, ?_⟩
  simp only [Context.ofLevels, if_neg hdepth]
  exact .inr ⟨m.called func.name, m.called func.name, rfl, .inr (returnValue_machine _ _).symm⟩

/-- `main` has two variables and an array of two arrays. -/
def sharer : FuncDecl :=
  let o := Position.origin
  let rows := TypeExpr.array (.int "2" o) (.array (.int "1" o) .int32)
  ⟨"main", [], [], [.shortDecl [⟨"x", o⟩] [.int "1" o] o, .shortDecl [⟨"y", o⟩] [.int "5" o] o,
    .shortDecl [⟨"a", o⟩]
      [.array rows [.elements [.int "3" o] o, .elements [.int "4" o] o] o] o]⟩

/-- A function that writes into a row of its array and through its pointer. -/
def overwrite : FuncDecl :=
  let o := Position.origin
  let rows := TypeExpr.array (.int "2" o) (.array (.int "1" o) .int32)
  ⟨"overwrite", [⟨"b", rows, o⟩, ⟨"p", .pointer .int32, o⟩], [],
    [.assign (.index "b" [.int "1" o, .int "0" o]) .plain (.int "9" o) o,
      .assign (.deref "p") .plain (.int "7" o) o]⟩

/-- The machine at the end of `main`, with its frame still open. -/
def inSharer : Machine :=
  let m := ((Eval.declareFunction ⟨sharer, .origin⟩).run .initial).machine
  ((Stmt.execAll (.ofLevels ⟨⟨3, none⟩, ""⟩ (UInt64.size + 1) 3) sharer.body 1).run
    { m.called "main" with frames := m.frames.openIn Frames.globalId }).machine

/-- The machine after a call of the function with the array and the address of `x`. -/
def afterOverwrite : Machine :=
  ((Eval.invoke ⟨⟨3, none⟩, ""⟩ 1 2 overwrite [.array 2, .pointer 1 "x"] .origin).run
    inSharer).machine

theorem inSharer_reached : inSharer.Reached ⟨⟨3, none⟩, ""⟩ fun _ => True := by
  have hcall := Eval.passes_call
    (m := ((Eval.declareFunction ⟨sharer, .origin⟩).run .initial).machine)
    ⟨⟨3, none⟩, ""⟩ sharer .origin rfl (by decide)
  refine .within ⟨⟨[.func sharer .origin]⟩, []⟩ trivial .initial ?_
  unfold Eval.program
  -- past the functions, the globals and the declaration of `main`, into its call
  exact .inr ⟨(), .initial, rfl, .inr ⟨(), .initial, rfl, .inr ⟨(), _, rfl, .inl hcall⟩⟩⟩

/-- The call reaches `x` and the globals, of which there are none, and that is all. -/
theorem inSharer_reaches {c : Cell}
    (h : inSharer.memory.Reaches [.array 2, .pointer 1 "x"] c) :
    c = .slot 1 "x" ∨ ∃ name, c = .slot Frames.globalId name := by
  have hglobal : (inSharer.frames.get? Frames.globalId).all (·.vars.isEmpty) = true := by
    decide +kernel
  have hx : (inSharer.frames.local? 1 "x").all (·.value.cell?.isNone) = true := by decide +kernel
  have hitems : inSharer.heap.storages.all (·.items.all (·.kind != .pointer)) = true := by
    decide +kernel
  have hfound : ∀ v, inSharer.memory.FoundIn [.array 2, .pointer 1 "x"] v →
      v ∈ [Value.array 2, .pointer 1 "x"] ∨ (v.kind != .pointer) = true := by
    intro v hv
    cases hv with
    | arg hv => exact .inl hv
    | @element id _ _ hw =>
      have hlt : id < inSharer.heap.storages.size := Heap.lt_size_of_mem hw
      have hget : inSharer.heap.get id = inSharer.heap.storages[id] := by
        rw [Heap.get, Heap.get?, Array.getElem?_eq_getElem hlt]
        rfl
      have hs := Array.all_eq_true'.mp hitems _ (Array.getElem_mem hlt)
      rw [← hget] at hs
      exact .inr (Array.all_eq_true'.mp hs _ hw)
  induction h with
  | global name => exact .inr ⟨name, rfl⟩
  | passed hp =>
    rcases hfound _ hp with hp | hp
    · simp only [List.mem_cons, List.not_mem_nil, or_false, reduceCtorEq, false_or] at hp
      cases hp
      exact .inl rfl
    · cases hp
  | follow _ hv hd ih =>
    exfalso
    rcases ih with rfl | ⟨name, rfl⟩
    · obtain ⟨s, hs, rfl⟩ := hv
      change inSharer.frames.local? 1 "x" = some s at hs
      rw [hs, Option.all_some, hd] at hx
      cases hx
    · obtain ⟨s, hs, -⟩ := hv
      obtain ⟨fr, hf, hs⟩ := Option.bind_eq_some_iff.mp hs
      change inSharer.frames.get? Frames.globalId = some fr at hf
      rw [hf, Option.all_some, List.isEmpty_iff] at hglobal
      rw [Frame.slot?, hglobal] at hs
      cases hs

theorem overwrite_changes_x_only :
    (afterOverwrite.frames.value? 1 "x").map afterOverwrite.heap.text = some "7" ∧
      (∀ name, name ≠ "x" → inSharer.memory.SameAt afterOverwrite.memory (.slot 1 name)) ∧
      ∀ id, id < 3 → inSharer.memory.SameAt afterOverwrite.memory (.storage id) := by
  have hframe : 1 < inSharer.frames.nextId := by decide +kernel
  have hsize : 3 ≤ inSharer.heap.size := by decide +kernel
  refine ⟨by decide +kernel, fun name hn => ?_, fun id hid => ?_⟩
  · refine call_keeps_unreached _ _ _ inSharer_reached _ _ _ hframe fun hr => ?_
    rcases inSharer_reaches hr with h | ⟨_, h⟩
    · cases h
      exact hn rfl
    · cases h
  · have hmade : inSharer.memory.Made (.storage id) := Nat.lt_of_lt_of_le hid hsize
    refine call_keeps_unreached _ _ _ inSharer_reached _ _ _ hmade fun hr => ?_
    rcases inSharer_reaches hr with h | ⟨_, h⟩ <;> cases h

end Treewalk
