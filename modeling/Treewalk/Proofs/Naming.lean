/-
# Names and their entries

An expression declares nothing in the frames it is evaluated from, and the
frames it opens are gone when it ends. So a name that a frame sees is bound in
the same frame afterwards, whatever was called (`Discipline.naming`).

Every name that a frame binds has an entry, whose number the frame keeps
beside it (`Discipline.entered`). That the symbol table has an entry of that
number is known of machines that are tied to any others.

Key definitions: `Memory.SameNames`, `Machine.Filed`, `Discipline.naming`,
`Discipline.entered`.
Key theorems: `Frames.resolve_congr`, `Discipline.Leads.resolve_of_naming`,
`entered_of_reached`, `Bond.exists_tied_of_reached`.
-/
import Treewalk.Proofs.Bond.Tree
import Treewalk.Proofs.Reached

namespace Treewalk

/-! ### Names that stay -/

namespace Frames

variable {fs gs : Frames} {f owner : FrameId} {name : String}

theorem resolveIn_congr (hp : ∀ g, g < fs.nextId → gs.parent? g = fs.parent? g)
    (hb : ∀ g, g < fs.nextId → gs.hasLocal g name = fs.hasLocal g name) :
    ∀ (n : Nat) (f : FrameId), fs.resolveIn name n f = some owner →
      gs.resolveIn name n f = some owner
  | 0, _, h => by cases h
  | n + 1, f, h => by
    rw [walks_resolve.step]
    obtain ⟨bound, rfl⟩ | ⟨free, p, around, hrest⟩ := resolveIn_cases h
    · have hlt := lt_nextId_of_isLive (isLive_of_hasLocal bound)
      rw [hb _ hlt, if_pos bound]
    · -- the frame is still there, inside the same one
      have hlt := lt_nextId_of_parent? around
      rw [hb f hlt, if_neg (Bool.eq_false_iff.mp free), (hp f hlt).trans around]
      exact resolveIn_congr hp hb n p hrest

/-- A name is bound in the same frame where frames have the same parents and names. -/
theorem resolve_congr (hp : ∀ g, g < fs.nextId → gs.parent? g = fs.parent? g)
    (hb : ∀ g, g < fs.nextId → gs.hasLocal g name = fs.hasLocal g name)
    (h : fs.resolve f name = some owner) : gs.resolve f name = some owner :=
  resolveIn_congr hp hb _ f h

end Frames

namespace Memory

/-- The frames of `base` have the same parents in `μ` and bind the same names. -/
structure SameNames (base μ : Memory) : Prop where
  made : base.frames.nextId ≤ μ.frames.nextId
  parent : ∀ {f}, f < base.frames.nextId → μ.frames.parent? f = base.frames.parent? f
  bound : ∀ {f x}, f < base.frames.nextId → μ.frames.hasLocal f x = base.frames.hasLocal f x

namespace SameNames

variable {base μ : Memory}

theorem refl (μ : Memory) : μ.SameNames μ := ⟨Nat.le_refl _, fun _ => rfl, fun _ => rfl⟩

theorem set (h : base.SameNames μ) (owner : FrameId) (name : String) (v : Value) :
    base.SameNames (μ.set owner name v) := by
  refine ⟨?_, fun hf => ?_, fun hf => ?_⟩
  · rw [Memory.set, Frames.nextId_setLocal]
    exact h.made
  · rw [Memory.set, Frames.parent?_setLocal]
    exact h.parent hf
  · rw [Memory.set, Frames.hasLocal_setLocal]
    exact h.bound hf

theorem bind (h : base.SameNames μ) {f : FrameId} (hf : base.frames.nextId ≤ f) (name : String)
    (slot : Slot) (entry : Nat) : base.SameNames (μ.bind f name slot entry) := by
  refine ⟨by rw [nextId_bind]; exact h.made, fun hg => ?_, fun {g x} hg => ?_⟩
  · rw [parent?_bind]
    exact h.parent hg
  · have hne : ¬ (g = f ∧ x = name) := fun he => Nat.not_lt.mpr hf (he.1 ▸ hg)
    rw [Memory.bind, Frames.hasLocal_bindSymbol, Frames.hasLocal_bind, if_neg hne]
    exact h.bound hg

theorem openIn (h : base.SameNames μ) (parent : FrameId) : base.SameNames (μ.openIn parent) := by
  refine ⟨?_, fun {f} hf => ?_, fun hf => ?_⟩
  · rw [Memory.openIn, Frames.nextId_openIn]
    exact Nat.le_succ_of_le h.made
  · have hne : f ≠ μ.frames.nextId := Nat.ne_of_lt (Nat.lt_of_lt_of_le hf h.made)
    rw [Memory.openIn, Frames.parent?_openIn, if_neg hne]
    exact h.parent hf
  · rw [Memory.openIn, Frames.hasLocal_openIn]
    exact h.bound hf

theorem close (h : base.SameNames μ) {id : FrameId} (hid : base.frames.nextId ≤ id) :
    base.SameNames (μ.close id) := by
  have hne : ∀ {f}, f < base.frames.nextId → f ≠ id :=
    fun hf => Nat.ne_of_lt (Nat.lt_of_lt_of_le hf hid)
  refine ⟨?_, fun hf => ?_, fun hf => ?_⟩
  · rw [Memory.close, Frames.nextId_close]
    exact h.made
  · rw [Memory.close, Frames.parent?_close, if_neg (hne hf)]
    exact h.parent hf
  · rw [Memory.close, Frames.hasLocal_close, if_neg (hne hf)]
    exact h.bound hf

end SameNames
end Memory

namespace Discipline

/-- The frames of `base` keep their parents and their names. -/
def naming (base : Memory) : Discipline where
  Inv μ := base.SameNames μ
  Own _ f _ := base.frames.nextId ≤ f
  own_later _ h := h
  set h _ _ _ _ := ⟨h.set _ _ _, trivial⟩
  bind h _ hf _ _ := ⟨h.bind hf _ _ _, trivial⟩
  put h _ _ _ _ _ := ⟨⟨h.made, h.parent, h.bound⟩, trivial⟩
  alloc h _ _ _ := ⟨⟨h.made, h.parent, h.bound⟩, trivial, trivial⟩
  openIn h _ := ⟨h.openIn _, trivial, fun _ _ => trivial⟩
  own_openIn _ h := h.made
  close hμ _ h := ⟨h.close hμ.made, trivial, fun _ _ => trivial⟩

variable {m m' : Machine} {frame owner : FrameId} {x : String}

/-- After an action that keeps names, a name that a frame saw is bound where it was. -/
theorem Leads.resolve_of_naming (h : (naming m.memory).Leads m m')
    (hx : m.frames.resolve frame x = some owner) : m'.frames.resolve frame x = some owner :=
  Frames.resolve_congr (fun _ hg => h.inv.parent hg) (fun _ hg => h.inv.bound hg) hx

end Discipline

/-! ### Entries -/

namespace Memory

/-- Every name that a frame binds has an entry. -/
def Entered (μ : Memory) : Prop :=
  ∀ f x, μ.frames.hasLocal f x = true → ∃ entry, μ.frames.entryOf? f x = some entry

namespace Entered

variable {μ : Memory}

theorem initial : Entered ⟨.initial, .empty⟩ := by
  intro f x h
  rw [Frames.hasLocal_eq, Frames.local?_initial] at h
  cases h

theorem set (h : μ.Entered) (owner : FrameId) (name : String) (v : Value) :
    (μ.set owner name v).Entered := by
  intro f x hx
  rw [Memory.set, Frames.hasLocal_setLocal] at hx
  rw [Memory.set, Frames.entryOf?_setLocal]
  exact h f x hx

theorem bind (h : μ.Entered) (f : FrameId) (name : String) (slot : Slot) (entry : Nat) :
    (μ.bind f name slot entry).Entered := by
  intro g x hx
  rw [Memory.bind, Frames.hasLocal_bindSymbol, Frames.hasLocal_bind] at hx
  rw [Memory.bind, Frames.entryOf?_bindSymbol]
  by_cases hgx : g = f ∧ x = name
  · rw [if_pos hgx] at hx
    obtain ⟨p, hp⟩ := Option.isSome_iff_exists.mp hx
    rw [if_pos hgx, Frames.parent?_bind, hp]
    exact ⟨entry, rfl⟩
  · rw [if_neg hgx] at hx
    rw [if_neg hgx, Frames.entryOf?_bind]
    exact h g x hx

theorem openIn (h : μ.Entered) (parent : FrameId) : (μ.openIn parent).Entered := by
  intro f x hx
  rw [Memory.openIn, Frames.hasLocal_openIn] at hx
  obtain ⟨e, he⟩ := h f x hx
  refine ⟨e, ?_⟩
  rwa [Memory.openIn, Frames.entryOf?_openIn]

theorem close (h : μ.Entered) (id : FrameId) : (μ.close id).Entered := by
  intro f x hx
  rw [Memory.close, Frames.hasLocal_close] at hx
  by_cases hf : f = id
  · rw [if_pos hf] at hx
    cases hx
  · rw [if_neg hf] at hx
    obtain ⟨e, he⟩ := h f x hx
    refine ⟨e, ?_⟩
    rwa [Memory.close, Frames.entryOf?_close, if_neg hf]

end Entered
end Memory

/-- Every name has its entry. -/
def Discipline.entered : Discipline where
  Inv := Memory.Entered
  set h _ _ _ _ := ⟨h.set _ _ _, trivial⟩
  bind h _ _ _ _ := ⟨h.bind _ _ _ _, trivial⟩
  put h _ _ _ _ _ := ⟨h, trivial⟩
  alloc h _ _ _ := ⟨h, trivial, trivial⟩
  openIn h _ := ⟨h.openIn _, trivial, fun _ _ => trivial⟩
  close _ _ h := ⟨h.close _, trivial, fun _ _ => trivial⟩

theorem entered_of_reached {config : Config} {Q : Program → Prop} {m : Machine}
    (h : m.Reached config Q) : m.memory.Entered := by
  have hr : Discipline.entered.Runs False config.limits m :=
    Discipline.runs_of_reached (fun _ _ hf => hf.elim) .initial trivial h
  exact hr.inv

/-- Every name that a frame binds has an entry in the symbol table. -/
def Machine.Filed (m : Machine) : Prop :=
  ∀ f x, m.frames.hasLocal f x = true →
    ∃ entry, m.frames.entryOf? f x = some entry ∧ entry < m.symbols.symbols.size

theorem Memory.Entered.filed {m : Machine} (h : m.memory.Entered)
    (hbelow : m.frames.EntriesBelow m.symbols.symbols.size) : m.Filed := by
  intro f x hx
  obtain ⟨entry, hentry⟩ := h f x hx
  exact ⟨entry, hentry, hbelow f x entry hentry⟩

namespace Bond

variable {config : Config} {Q : Program → Prop} {m : Machine}

/-- Where declarations may stand everywhere, any program keeps machines tied. -/
theorem keeps_anyProgram (config : Config) (p : Program) :
    (same fun _ => True).Keeps [] (Eval.program config.context p) :=
  keeps_program (calls_ofLevels _ config _ _) fun _ _ => trivial

/-- Between programs a machine is tied to itself. -/
theorem tied_of_idle (h : m.Idle config Q) : (same fun _ => True).Tied [] m m := by
  induction h with
  | initial => exact tied_starting _ .empty
  | executed parsed _ _ ih =>
    exact ((keeps_anyProgram config parsed.program).ends (ih.setErrors _)).execute

/-- Every machine that a session reaches is tied to some other. -/
theorem exists_tied_of_reached (h : m.Reached config Q) :
    ∃ ss m', (same fun _ => True).Tied ss m m' := by
  cases h with
  | idle h => exact ⟨[], m, tied_of_idle h⟩
  | within parsed _ h hp =>
    exact (keeps_anyProgram config parsed.program).passes ((tied_of_idle h).setErrors _) m hp

end Bond

end Treewalk
