/-
# Constants are immutable

From one moment of a session to every later one, frames that are gone stay
gone, and what a frame binds it binds until it is gone: a constant with all
that it holds, a variable as a variable (`Memory.Steady`). What could break this
is a write to a constant. Names of constants are refused by the writes
themselves; what is left are pointers, and no address of a constant is ever
given out. So every pointer aims at a variable of its own frame, or at a frame
that is gone (`Memory.Aimed`), and that is the discipline.

Key definitions: `Memory.Steady`, `Memory.Aimed`, `Discipline.aimed`,
`Moment.Has`.
Key theorems: `Discipline.aimed_of_session`, `constants_are_immutable`.
-/
import Treewalk.Proofs.Ages
import Treewalk.Proofs.Cell
import Treewalk.Proofs.Reached

namespace Treewalk
namespace Memory

/-- What a frame binds in `μ` it binds in `ν` or is gone: a variable as a variable, and a constant
just as it was. -/
def Steady : Memory → Memory → Prop :=
  Carries fun _ _ s s' => s'.constant = s.constant ∧ (s.constant = true → s' = s)

namespace Steady

variable {μ ν ξ : Memory}

theorem refl (μ : Memory) : μ.Steady μ := Carries.refl (fun _ _ _ => ⟨rfl, fun _ => rfl⟩) μ

theorem trans (h : μ.Steady ν) (h' : ν.Steady ξ) : μ.Steady ξ :=
  Carries.trans (fun h₁ h₂ =>
    ⟨h₂.1.trans h₁.1, fun hc => (h₂.2 (h₁.1.trans hc)).trans (h₁.2 hc)⟩) h h'

theorem set {owner : FrameId} {name : String} (v : Value)
    (h : ∀ {s}, μ.frames.local? owner name = some s → s.constant = false) :
    μ.Steady (μ.set owner name v) := by
  refine Carries.set (fun _ _ _ => ⟨rfl, fun _ => rfl⟩) fun hs => ⟨rfl, fun hc => ?_⟩
  rw [h hs] at hc
  cases hc

/-- A declaration may stand in place of a variable, never of a constant. -/
theorem bind {f : FrameId} {name : String} {slot : Slot} {role : Role} (entry : Nat)
    (h : μ.Admits f name slot role) : μ.Steady (μ.bind f name slot entry) := by
  refine Carries.bind (fun _ _ _ => ⟨rfl, fun _ => rfl⟩) entry fun {s} hs => ?_
  obtain ⟨rfl, hc⟩ := h.free hs
  have hslot : slot.constant = false := by
    cases hc' : slot.constant with
    | false => rfl
    | true => cases h.constant.mp hc'
  refine ⟨hslot.trans hc.symm, fun hc' => ?_⟩
  rw [hc] at hc'
  cases hc'

theorem openIn (μ : Memory) (parent : FrameId) : μ.Steady (μ.openIn parent) :=
  Carries.openIn (fun _ _ _ => ⟨rfl, fun _ => rfl⟩) μ parent

theorem close (μ : Memory) (id : FrameId) : μ.Steady (μ.close id) :=
  Carries.close (fun _ _ _ => ⟨rfl, fun _ => rfl⟩) μ id

theorem of_heap (μ : Memory) (h : Heap) : μ.Steady { μ with heap := h } :=
  Carries.of_heap (fun _ _ _ => ⟨rfl, fun _ => rfl⟩) μ h

end Steady

/-- The frame binds a variable of the name, as long as it is there. -/
structure Aimed (μ : Memory) (f : FrameId) (x : String) : Prop where
  made : f < μ.frames.nextId
  slot : μ.frames.isLive f = true → ∃ s, μ.frames.local? f x = some s ∧ s.constant = false

namespace Aimed

variable {μ ν : Memory} {f owner : FrameId} {x : String}

theorem later (h : μ.Aimed f x) (hl : μ.Steady ν) : ν.Aimed f x := by
  refine ⟨Nat.lt_of_lt_of_le h.made hl.made, fun hlive => ?_⟩
  obtain ⟨s, hs, hc⟩ := h.slot (hl.live h.made hlive)
  obtain ⟨s', hs', hc', -⟩ := hl.slot hs hlive
  exact ⟨s', hs', hc'.trans hc⟩

/-- What a name stands for that is no constant. -/
theorem of_resolve (hr : μ.frames.resolve f x = some owner)
    (hc : μ.frames.isConst owner x = false) : μ.Aimed owner x := by
  have hlocal := Frames.hasLocal_of_resolve hr
  refine ⟨Frames.lt_nextId_of_isLive (Frames.isLive_of_hasLocal hlocal), fun _ => ?_⟩
  obtain ⟨s, hs⟩ := Frames.local?_of_hasLocal hlocal
  refine ⟨s, hs, ?_⟩
  simpa [Frames.isConst_eq, (Frames.slot?_of_resolve hr).2, hs] using hc

/-- A variable that is aimed at is found in its own frame. -/
theorem owner_eq (h : μ.Aimed f x) (hr : μ.frames.resolve f x = some owner) : owner = f := by
  have hlive : μ.frames.isLive f = true := by
    by_contra hl
    rw [Bool.not_eq_true, ← Frames.parent?_eq_none_iff] at hl
    rw [Frames.resolve_of_parent?_none hl] at hr
    cases hr
  obtain ⟨s, hs, -⟩ := h.slot hlive
  rw [Frames.resolve_of_hasLocal (Frames.hasLocal_of_local? hs)] at hr
  exact (Option.some.inj hr).symm

theorem isConst_eq_false (h : μ.Aimed f x) : μ.frames.isConst f x = false := by
  cases hr : μ.frames.resolve f x with
  | none => simp [Frames.isConst_eq, Frames.slot?, hr]
  | some owner =>
    rw [h.owner_eq hr] at hr
    obtain ⟨s, hs, hc⟩ := h.slot (Frames.isLive_of_hasLocal (Frames.hasLocal_of_resolve hr))
    simp [Frames.isConst_eq, Frames.slot?, hr, hs, hc]

theorem steady_set (h : μ.Aimed f x) (hr : μ.frames.resolve f x = some owner) (v : Value) :
    μ.Steady (μ.set owner x v) := by
  rw [h.owner_eq hr]
  refine .set v fun hs => ?_
  obtain ⟨s, hs', hc⟩ := h.slot (Frames.isLive_of_local? hs)
  rw [hs'] at hs
  cases hs
  exact hc

end Aimed
end Memory

/-- A single value; if it is a pointer, it aims at a variable. -/
def Value.AimedIn (μ : Memory) (v : Value) : Prop :=
  v.kind ≠ .multi ∧ ∀ f x, v = .pointer f x → μ.Aimed f x

theorem Value.AimedIn.later {μ ν : Memory} {v : Value} (h : v.AimedIn μ) (hl : μ.Steady ν) :
    v.AimedIn ν :=
  ⟨h.1, fun f x hv => (h.2 f x hv).later hl⟩

theorem Value.aimedIn_of_isPlain {μ : Memory} {v : Value} (h : v.isPlain = true) : v.AimedIn μ := by
  cases v <;> simp_all [isPlain, AimedIn, kind]

namespace Memory

/-- All pointers that are kept aim at variables. -/
def WellAimed (μ : Memory) : Prop := μ.AllHold (·.AimedIn μ)

/-- `ν` comes after `μ` in the course of one action, which closes no frame that it found. -/
structure Advances (μ ν : Memory) : Prop where
  steady : μ.Steady ν
  stays : ∀ {f}, μ.frames.isLive f = true → ν.frames.isLive f = true

variable {μ ν ξ : Memory} {v : Value}

/-- What is held in `μ` is still well aimed later. -/
theorem WellAimed.later (h : μ.WellAimed) (hl : μ.Steady ν) : μ.AllHold (·.AimedIn ν) :=
  h.imp fun _ hv => hv.later hl

theorem Steady.advances (h : μ.Steady ν)
    (hp : ∀ f, ν.frames.parent? f = μ.frames.parent? f) : μ.Advances ν :=
  ⟨h, fun hf => by rwa [Frames.isLive_of_parent?_eq hp]⟩

theorem advances_heap (μ : Memory) (h : Heap) : μ.Advances { μ with heap := h } :=
  (Steady.of_heap μ h).advances fun _ => rfl

/-- A frame opened and closed again. -/
theorem Advances.close {parent : FrameId} (h : (μ.openIn parent).Advances ν) :
    μ.Advances (ν.close μ.frames.nextId) := by
  refine ⟨((Steady.openIn μ parent).trans h.steady).trans (.close ν _), fun {f} hf => ?_⟩
  refine (Frames.isLive_close ..).mpr ⟨h.stays ((Frames.isLive_openIn ..).mpr (.inl hf)), ?_⟩
  exact Nat.ne_of_lt (Frames.lt_nextId_of_isLive hf)

end Memory

namespace Discipline

open Memory

/-- What evaluation keeps so that constants stay: it holds and follows only pointers that aim at
variables. -/
def aimed : Discipline where
  Inv := WellAimed
  Later := Advances
  Val μ v := v.AimedIn μ
  Frm μ f := μ.frames.isLive f = true
  Writes μ x := μ.Aimed x.owner x.name
  Past := Steady
  refl μ := ⟨.refl μ, fun h => h⟩
  trans h h' := ⟨h.steady.trans h'.steady, fun hf => h'.stays (h.stays hf)⟩
  val_later hl hv := hv.later hl.steady
  frm_later hl hf := hl.stays hf
  writes_later hl h := h.later hl.steady
  val_plain := Value.aimedIn_of_isPlain
  val_multi h := absurd rfl h.1
  writes_name _ _ hr hc := .of_resolve hr hc
  val_address _ _ _ hr hc := by
    refine ⟨by simp [Value.kind], fun f x hv => ?_⟩
    cases hv
    exact .of_resolve hr hc
  writes_pointer _ hv _ := hv.2 _ _ rfl
  val_read h _ hv := by
    obtain ⟨owner, -, hv⟩ := holds_of_value? hv
    exact h _ _ hv
  val_item {_ id _} h _ hv := h (.storage id) _ hv
  set {_ x _ v} h hx hv hr _ := by
    have hs := hx.steady_set hr v
    exact ⟨(h.later hs).set (hv.later hs), hs.advances fun _ => Frames.parent?_setLocal ..⟩
  bind {_ _ _ _ entry _} h _ _ hv ha := by
    have hs := Steady.bind entry ha
    exact ⟨(h.later hs).bind (hv.later hs), hs.advances fun _ => parent?_bind ..⟩
  put {μ id i v} h _ hv _ _ _ := by
    have hl := advances_heap μ (μ.heap.put id i v)
    exact ⟨(h.later hl.steady).put (hv.later hl.steady), hl⟩
  alloc {μ s} h hs _ _ := by
    have hl := advances_heap μ (μ.heap.alloc s).2
    refine ⟨(h.later hl.steady).alloc fun v hv => (hs v hv).later hl.steady, hl, ?_, by simp⟩
    simp [Value.kind]
  openIn {μ parent} h _ := by
    have hs := Steady.openIn μ parent
    refine ⟨(h.later hs).openIn, ?_, fun v hv => hv.later hs⟩
    exact (Frames.isLive_openIn ..).mpr (.inr rfl)
  close {μ _ ν} _ hl h := by
    have hs := Steady.close ν μ.frames.nextId
    exact ⟨(h.later hs).close, hl.close, fun v hv => hv.later hs⟩
  past_refl := .refl
  past_trans := .trans
  past_set v _ hx hr := .inl (hx.steady_set hr v)
  past_bind entry _ _ ha := .inl (.bind entry ha)
  past_heap _ hl := hl.steady
  past_openIn parent _ := .openIn _ parent
  past_close id _ := .close _ id

section Session

variable {config : Config} {Q : Program → Prop} {es : List Moment} {m : Machine}

/-- **Pointers are well aimed at every moment of a session,** and memories are steady from one
moment to the next. -/
theorem aimed_of_session (h : Machine.Session config Q es m) :
    (∀ e ∈ es, aimed.Stands False config.limits e) ∧
      es.Pairwise fun e e' => e.memory.Steady e'.memory := by
  have hloose : aimed.Loose := {}
  have hrests : aimed.Rests False .initial :=
    rests_initial AllHold.initial rfl
  have hf := session_follows (fun _ _ hf => False.elim hf) h hrests
  refine ⟨(hf.of_loose hloose).1, hf.pairwise hloose ?_⟩
  rintro e ⟨_, -, hx⟩
  exact hx

end Session
end Discipline

/-- The value is held at the moment: by a variable, as an element, or on its way as an argument or a
result. -/
def Moment.Has (e : Moment) (v : Value) : Prop := (∃ c, e.memory.Holds v c) ∨ v ∈ e.values

theorem Discipline.Stands.aimed_of_has {tidy : Prop} {limits : Limits} {e : Moment} {v : Value}
    (h : aimed.Stands tidy limits e) (hv : e.Has v) : v.AimedIn e.memory := by
  rcases hv with ⟨c, hv⟩ | hv
  · exact h.inv c v hv
  · exact h.vals v hv

/-- **Constants are immutable.** At no moment of a session is there a pointer to a constant, be it
in a variable, in an array, or on its way to a function or back. Behind the declaration of a
constant there is a constant of that name in the frame, and what is one at some moment has the same
value at every later one, until its frame is gone. -/
theorem constants_are_immutable {config : Config} {es : List Moment} {m : Machine}
    (h : Machine.Session config (fun _ => True) es m) :
    (∀ e ∈ es, ∀ f x, e.Has (.pointer f x) → e.machine.frames.isConst f x = false) ∧
    (∀ e ∈ es, ∀ f x, e.event = some (.declared f x .constant) →
      ∃ s, e.machine.frames.local? f x = some s ∧ s.constant = true) ∧
    es.Pairwise fun e e' => ∀ f x s, e.machine.frames.local? f x = some s → s.constant = true →
      e'.machine.frames.local? f x = some s ∨ e'.machine.frames.isLive f = false := by
  obtain ⟨hstands, hsteady⟩ := Discipline.aimed_of_session h
  refine ⟨fun e he f x hv => ?_, fun e he f x hd => ?_, hsteady.imp ?_⟩
  · exact (((hstands e he).aimed_of_has hv).2 f x rfl).isConst_eq_false
  · have hdecl := (hstands e he).declares hd
    obtain ⟨s, hs, hc⟩ := hdecl.slot hdecl.frm
    exact ⟨s, hs, hc.mpr rfl⟩
  · intro e e' hs f x s hx hc
    cases hl : e'.machine.frames.isLive f with
    | false => exact .inr rfl
    | true =>
      obtain ⟨s', hs', -, heq⟩ := hs.slot hx hl
      exact .inl (heq hc ▸ hs')

/-- A program that declares a constant. -/
def settingLimit : Parsed :=
  let o := Position.origin
  ⟨⟨[.constDecl "limit" none (.int "10" o) o]⟩, []⟩

/-- A program that tries to assign to the constant, to step it, to add to it and to take its
address, and writes through a pointer to a variable of its own. -/
def meddling : Parsed :=
  let o := Position.origin
  ⟨⟨[.func ⟨"main", [], [],
    [.assign (.name "limit") .plain (.int "11" o) o,
      .step (.name "limit") .increment o,
      .assign (.name "limit") (.compound .add) (.int "1" o) o,
      .shortDecl [⟨"p", o⟩] [.addressOf "limit" o] o,
      .shortDecl [⟨"limit", o⟩] [.int "5" o] o,
      .shortDecl [⟨"q", o⟩] [.addressOf "limit" o] o,
      .assign (.deref "q") .plain (.int "12" o) o]⟩ o]⟩, []⟩

def afterSettingLimit : Machine := Machine.initial.executeParsed ⟨⟨3, none⟩, ""⟩ settingLimit

def afterMeddling : Machine := afterSettingLimit.executeParsed ⟨⟨3, none⟩, ""⟩ meddling

theorem limit_is_immutable :
    afterMeddling.errors.size = 4 ∧
    (afterMeddling.frames.value? Frames.globalId "limit").map afterMeddling.heap.text = some "10" ∧
    afterMeddling.frames.local? Frames.globalId "limit" =
      afterSettingLimit.frames.local? Frames.globalId "limit" ∧
    ∃ es, Machine.Session ⟨⟨3, none⟩, ""⟩ (fun _ => True) es afterMeddling ∧
      ∀ e ∈ es, ∀ f x, e.Has (.pointer f x) → e.machine.frames.isConst f x = false := by
  have hinitial : Machine.Session ⟨⟨3, none⟩, ""⟩ (fun _ => True) _ _ := .initial
  obtain ⟨fs, hfs⟩ := hinitial.exists_executed settingLimit trivial
  obtain ⟨gs, hgs⟩ := hfs.exists_executed meddling trivial
  have hs : Machine.Session ⟨⟨3, none⟩, ""⟩ (fun _ => True)
      ([Machine.initial.still] ++ (fs ++ [afterSettingLimit.still]) ++
        (gs ++ [afterMeddling.still])) afterMeddling := hgs
  obtain ⟨hpointers, -, hkept⟩ := constants_are_immutable hs
  have hconst : (afterSettingLimit.frames.local? Frames.globalId "limit").any (·.constant) =
      true := by decide +kernel
  obtain ⟨s, hlimit, hc⟩ := (Option.any_eq_true ..).mp hconst
  have hpair := (List.pairwise_append.mp hkept).2.2 afterSettingLimit.still (by simp)
    afterMeddling.still (by simp)
  refine ⟨by decide +kernel, by decide +kernel, ?_, _, hs, hpointers⟩
  rcases hpair _ _ s hlimit hc with h | h
  · exact h.trans hlimit.symm
  · exact absurd h (by decide +kernel)

end Treewalk
