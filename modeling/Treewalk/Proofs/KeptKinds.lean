/-
# Kinds are kept

A variable has the kind of its declaration, an array the element type it was
made with, and what is written to either is checked against them. Only two
things get around the checks. A compound assignment writes whatever its
operator gives; and an array literal with elements of another type is reported
and made nevertheless. As long as neither has happened, every variable holds
what its kind allows and all elements are of their type: that is the first
discipline (`Discipline.kinded`).

The kind of a name is not written to at all. It could change only by a further
declaration of the name in the same frame, and of all declarations only that
of a parameter is made without looking whether the name is free: in a list that
names a parameter twice, the later one counts. The second discipline
(`Discipline.keptKind`) follows one name in one frame. Parameters are
declared in the new frame of a call and in no other, so statements change no
kind that they find.

Key definitions: `Memory.Kinded`, `Heap.Uniform`, `Memory.KeepsKind`,
`Discipline.kinded`, `Discipline.keptKind`.
Key theorem: `kinds_are_kept`.
-/
import Treewalk.Proofs.Ages
import Treewalk.Proofs.Diagnosis
import Treewalk.Proofs.Nesting

namespace Treewalk

namespace Heap

/-- In every array all elements are nil or of the kind of the element type. -/
def Uniform (h : Heap) : Prop := ∀ id, (h.get id).Uniform

variable {h : Heap}

theorem elem_put (h : Heap) (id : StorageId) (i : Nat) (v : Value) (a : StorageId) :
    ((h.put id i v).get a).elem = (h.get a).elem := by
  rw [get, get?_put, get]
  cases h.get? a <;> split <;> rfl

theorem Uniform.put {id : StorageId} {i : Nat} {v : Value} (hu : h.Uniform)
    (hv : (h.get id).TakesAt i v) : (h.put id i v).Uniform := by
  intro a w hw
  rw [elem_put]
  rcases mem_put hw with ⟨rfl, rfl⟩ | hw
  · exact hv.fits (hu a)
  · exact hu a w hw

theorem Uniform.alloc {s : Storage} (hu : h.Uniform) (hs : s.Uniform) : (h.alloc s).2.Uniform := by
  intro a
  rcases Nat.lt_trichotomy a h.size with ha | rfl | ha
  · rw [get_alloc_of_lt ha]
    exact hu a
  · have hget : (h.alloc s).2.get h.size = s := congrArg (Option.getD · _) (get?_alloc_self h s)
    rw [hget]
    exact hs
  · intro w hw
    rw [get_of_size_le (by rw [size_alloc]; exact ha)] at hw
    simp at hw

theorem uniform_empty : Heap.empty.Uniform := by
  intro id v hv
  rw [get_of_size_le (Nat.zero_le id)] at hv
  simp at hv

end Heap

namespace Memory

/-- Every variable holds nil, a value of its kind or, if it was declared from nil, a pointer. -/
def Kinded (μ : Memory) : Prop :=
  ∀ f x s, μ.frames.local? f x = some s → s.kind.Holds s.value

/-- The name has the same kind in both memories, unless its frame is gone. -/
def KeepsKind (μ ν : Memory) (f : FrameId) (x : String) : Prop :=
  ∀ s, μ.frames.local? f x = some s → ν.frames.isLive f = true →
    ∃ s', ν.frames.local? f x = some s' ∧ s'.kind = s.kind

namespace Kinded

variable {μ : Memory}

theorem set {owner : FrameId} {name : String} {v : Value} (h : μ.Kinded)
    (hv : ∀ {s}, μ.frames.local? owner name = some s → s.Takes v) :
    (μ.set owner name v).Kinded := by
  intro f x s hs
  rw [local?_set] at hs
  by_cases hfx : f = owner ∧ x = name
  · rw [if_pos hfx, Option.map_eq_some_iff] at hs
    obtain ⟨s₀, hs₀, rfl⟩ := hs
    exact (hv hs₀).holds (h _ _ _ hs₀)
  · rw [if_neg hfx] at hs
    exact h f x s hs

theorem bind {f : FrameId} {name : String} {slot : Slot} (entry : Nat) (h : μ.Kinded)
    (hs : slot.kind.Fits slot.value) : (μ.bind f name slot entry).Kinded := by
  intro g x s hx
  rw [local?_bind] at hx
  by_cases hgx : g = f ∧ x = name
  · rw [if_pos hgx, Option.map_eq_some_iff] at hx
    obtain ⟨_, -, rfl⟩ := hx
    exact .inl hs
  · rw [if_neg hgx] at hx
    exact h g x s hx

theorem openIn (h : μ.Kinded) (parent : FrameId) : (μ.openIn parent).Kinded := by
  intro f x s hs
  rw [Memory.openIn, Frames.local?_openIn] at hs
  exact h f x s hs

theorem close (h : μ.Kinded) (id : FrameId) : (μ.close id).Kinded := by
  intro f x s hs
  rw [Memory.close, Frames.local?_close] at hs
  by_cases hf : f = id
  · rw [if_pos hf] at hs
    cases hs
  · rw [if_neg hf] at hs
    exact h f x s hs

end Kinded
end Memory

/-- The action leaves every name the kind it finds it with: at each point and in the end. -/
def Eval.KeepsKinds {α : Type} (x : Eval α) : Prop :=
  ∀ m f name, (∀ p, x.passes m p → m.memory.KeepsKind p.memory f name) ∧
    m.memory.KeepsKind (x.run m).machine.memory f name

namespace Discipline

open Memory

/-- Variables and, unless literals may mix them, elements are of their kinds. There are no compound
assignments. -/
def kinded (mixes : Prop) : Discipline where
  Inv μ := μ.Kinded ∧ (mixes ∨ μ.heap.Uniform)
  combines := False
  mixes := mixes
  uniform_get h _ := h.2.imp_right fun hu => hu _
  set h _ _ _ hv := ⟨⟨h.1.set (hv.resolve_left id), h.2⟩, trivial⟩
  bind {_ _ _ _ entry _} h _ _ _ ha := ⟨⟨h.1.bind entry ha.fits, h.2⟩, trivial⟩
  put h _ _ _ _ hv := ⟨⟨h.1, h.2.imp_right fun hu => hu.put (hv.resolve_left id)⟩, trivial⟩
  alloc h _ _ hs := by
    refine ⟨⟨h.1, ?_⟩, trivial, trivial⟩
    rcases h.2, hs with ⟨hm | hu, hm | hs⟩
    · exact .inl hm
    · exact .inl hm
    · exact .inl hm
    · exact .inr (hu.alloc hs)
  openIn h _ := ⟨⟨h.1.openIn _, h.2⟩, trivial, fun _ _ => trivial⟩
  close _ _ h := ⟨⟨h.1.close _, h.2⟩, trivial, fun _ _ => trivial⟩

/-- One name of one frame keeps its kind until it is declared as a parameter. Parameters are
declared in frames from `oldest` on. -/
def keptKind (oldest f₀ : FrameId) (x₀ : String) : Discipline where
  Inv μ := oldest ≤ μ.frames.nextId
  Own _ f role := role = .parameter → oldest ≤ f
  Past := Carries fun f x s s' => f = f₀ ∧ x = x₀ → s'.kind = s.kind
  Excepts _ ev := ev = .declared f₀ x₀ .parameter
  own_later _ h := h
  set h _ _ _ _ := ⟨(Ages.set ..).made.trans' h, trivial⟩
  bind h _ _ _ _ := ⟨(Ages.bind ..).made.trans' h, trivial⟩
  put h _ _ _ _ _ := ⟨h, trivial⟩
  alloc h _ _ _ := ⟨h, trivial, trivial⟩
  openIn h _ := ⟨(Ages.openIn ..).made.trans' h, trivial, fun _ _ => trivial⟩
  own_openIn _ h _ := h
  close _ _ h := ⟨(Ages.close ..).made.trans' h, trivial, fun _ _ => trivial⟩
  past_refl := .refl fun _ _ _ _ => rfl
  past_trans := .trans fun h h' hx => (h' hx).trans (h hx)
  past_set _ _ _ _ := .inl (.set (fun _ _ _ _ => rfl) fun _ _ => rfl)
  past_bind {_ f name _ role} entry _ _ ha := by
    by_cases hx : role = .parameter ∧ f = f₀ ∧ name = x₀
    · obtain ⟨rfl, rfl, rfl⟩ := hx
      exact .inr rfl
    · exact .inl (.bind (fun _ _ _ _ => rfl) entry fun hs hfx => absurd ⟨(ha.free hs).1, hfx⟩ hx)
  past_heap _ _ := .of_heap (fun _ _ _ _ => rfl) ..
  past_openIn parent _ := .openIn (fun _ _ _ _ => rfl) _ parent
  past_close id _ := .close (fun _ _ _ _ => rfl) _ id

section KeptKind

variable {oldest f₀ : FrameId} {x₀ : String} {μ ν : Memory}

theorem keptKind_loose : (keptKind oldest f₀ x₀).Loose := {}

theorem keepsKind_of_past (h : (keptKind oldest f₀ x₀).Past μ ν) : μ.KeepsKind ν f₀ x₀ := by
  intro s hs hl
  obtain ⟨s', hs', hk⟩ := h.slot hs hl
  exact ⟨s', hs', hk ⟨rfl, rfl⟩⟩

end KeptKind

variable {config : Config} {Q : Program → Prop} {es ps qs rs : List Moment} {m : Machine}
  {e e' : Moment}

/-- Kinds are kept in a session as long as nothing is combined; so are those of elements, if no
literal mixes them. -/
theorem kinded_of_session (mixes : Prop) (h : Machine.Session config Q (ps ++ e :: qs) m)
    (hc : ∀ e' ∈ ps ++ [e], e'.event ≠ some .combined)
    (hm : ∀ e' ∈ ps ++ [e], mixes ∨ e'.machine.Unmixed) : (kinded mixes).Inv e.memory := by
  have hrests : (kinded mixes).Rests False .initial := by
    refine rests_initial ⟨fun f x s hs => ?_, .inr Heap.uniform_empty⟩ trivial
    cases (Frames.local?_initial f x).symm.trans hs
  have hf := session_follows (fun _ _ hf => False.elim hf) h hrests
  exact (hf.at fun e' he' => ⟨fun hev => hc e' he' hev, hm e' he', trivial⟩).1.inv

/-- From one moment of a session to a later one a name keeps its kind, unless it is declared as a
parameter in between. The global frame is that of no call. -/
theorem keepsKind_of_session {f₀ : FrameId} {x₀ : String}
    (h : Machine.Session config Q (ps ++ e :: (qs ++ e' :: rs)) m)
    (hx : f₀ = Frames.globalId ∨
      ∀ p ∈ qs ++ [e'], p.event ≠ some (.declared f₀ x₀ .parameter)) :
    e.memory.KeepsKind e'.memory f₀ x₀ := by
  have hrests : (keptKind 1 f₀ x₀).Rests False .initial :=
    rests_initial (Nat.le_refl 1) trivial fun _ hr hp => absurd hp hr
  have hf := session_follows (fun _ _ hf => False.elim hf) h hrests
  obtain ⟨-, hlater⟩ := hf.at fun p _ => keptKind_loose.allows p
  refine keepsKind_of_past (hlater.past fun p hp => ⟨keptKind_loose.allows p, ?_⟩)
  rintro ⟨_, hev, rfl⟩
  rcases hx with rfl | hx
  · have hstands := (hlater.of_loose keptKind_loose).1 p (by simpa using List.mem_append_left rs hp)
    exact Nat.not_succ_le_zero 0 ((hstands.declares hev).own rfl)
  · exact hx p hp hev

/-- What keeps the discipline of each name keeps all kinds. -/
theorem Keeps.keepsKinds {α : Type} {R : Regime} {k : Mode} {x : Eval α}
    {P : Discipline → α → Machine → Prop}
    (h : ∀ m f₀ x₀, (keptKind m.frames.nextId f₀ x₀).Keeps R k x m
      (P (keptKind m.frames.nextId f₀ x₀))) : x.KeepsKinds := by
  intro m f₀ x₀
  obtain ⟨es, he⟩ := x.traced m
  have hk := h m f₀ x₀ es he
  by_cases hmade : f₀ < m.frames.nextId
  · have hquiet : ∀ e ∈ es, (keptKind m.frames.nextId f₀ x₀).Allows e ∧
        ¬ (keptKind m.frames.nextId f₀ x₀).Disturbs e := by
      refine fun e hes => ⟨keptKind_loose.allows e, ?_⟩
      rintro ⟨_, hev, rfl⟩
      exact Nat.not_le.mpr hmade ((((hk.of_loose keptKind_loose).1 e hes).declares hev).own rfl)
    refine ⟨fun p hp => ?_, keepsKind_of_past (hk.past_end hquiet)⟩
    obtain ⟨e, hes, rfl⟩ := (x.covers he p).mp hp
    obtain ⟨ps, qs, rfl⟩ := List.append_of_mem hes
    refine keepsKind_of_past (hk.past fun p hp => hquiet p ?_)
    simpa using List.mem_append_left qs hp
  · have hnone : ∀ ν : Memory, m.memory.KeepsKind ν f₀ x₀ := fun ν s hs =>
      absurd (Frames.lt_nextId_of_isLive (Frames.isLive_of_local? hs)) hmade
    exact ⟨fun p _ => hnone _, hnone _⟩

theorem home_keptKind {R : Regime} {m : Machine} {frame f₀ : FrameId} {x₀ : String}
    (hk : R.Knows m) : (keptKind m.frames.nextId f₀ x₀).Home R m frame :=
  ⟨⟨Nat.le_refl _, hk, trivial⟩, fun _ hr hp => absurd hp hr⟩

end Discipline

/-- **Kinds are kept.** At every moment of a session before which no compound assignment was
executed, each variable holds what its kind allows and, if no array literal has been reported to mix
its elements, all elements are of their type. From each moment to each later one a name keeps its
kind until its frame is gone, unless it is declared as a parameter of the call in between. No
statement, expression or call does that to a name it finds, whatever the machine. -/
theorem kinds_are_kept {config : Config} {es : List Moment} {m : Machine}
    (h : Machine.Session config (fun _ => True) es m) :
    (∀ ps e qs, es = ps ++ e :: qs → (∀ e' ∈ ps ++ [e], e'.event ≠ some .combined) →
      (∀ f x s, e.machine.frames.local? f x = some s → s.kind.Holds s.value) ∧
      (e.machine.Unmixed → ∀ id, (e.machine.heap.get id).Uniform)) ∧
    (∀ ps e qs e' rs f x, es = ps ++ e :: (qs ++ e' :: rs) →
      (f = Frames.globalId ∨ ∀ p ∈ qs ++ [e'], p.event ≠ some (.declared f x .parameter)) →
      e.memory.KeepsKind e'.memory f x) ∧
    ∀ rounds levels frame,
      (∀ ss, (Stmt.execAll (.ofLevels config rounds levels) ss frame).KeepsKinds) ∧
      (∀ e : Expr, (e.eval (.ofLevels config rounds levels) frame).KeepsKinds) ∧
      ∀ func args pos, (Eval.invoke config rounds levels func args pos).KeepsKinds := by
  refine ⟨?_, ?_, fun rounds levels frame => ?_⟩
  · rintro ps e qs rfl hc
    refine ⟨(Discipline.kinded_of_session True h hc fun _ _ => .inl trivial).1, fun hm => ?_⟩
    refine (Discipline.kinded_of_session False h hc fun e' he' => .inr ?_).2.resolve_left id
    rcases List.mem_append.mp he' with he' | he'
    · -- diagnostics only grow, so what is not among them now was not before
      have hext := (List.pairwise_append.mp h.extends.1).2.2 e' he' e (by simp)
      exact fun expected found pos hd => hm expected found pos (hext.errors.subset hd)
    · rw [List.mem_singleton.mp he']
      exact hm
  · rintro ps e qs e' rs f x rfl hx
    exact Discipline.keepsKind_of_session h hx
  · have hc := fun D => Discipline.calls_ofLevels D config rounds False levels
    have hhome : ∀ m f x, (Discipline.keptKind m.frames.nextId f x).Home
        ⟨config.limits, rounds, levels, False⟩ m frame :=
      fun _ _ _ => Discipline.home_keptKind False.elim
    refine ⟨fun ss => ?_, fun e => ?_, fun func args pos => ?_⟩
    · exact Discipline.Keeps.keepsKinds (P := fun _ _ _ => True) fun m f x =>
        Discipline.keeps_execAll (hc _) ss frame False.elim (hhome m f x)
    · exact Discipline.Keeps.keepsKinds (P := Discipline.Gives) fun m f x =>
        (Discipline.keeps_raw (hc _) e frame (hhome m f x).toReady).settled
    · exact Discipline.Keeps.keepsKinds (P := Discipline.Gives) fun m f x =>
        (hc _).call func args pos (hhome m f x).inv False.elim False.elim fun _ _ => trivial

/-- A program that declares a whole number. -/
def counting : Parsed :=
  let o := Position.origin
  ⟨⟨[.varDecl [⟨"count", o⟩] none [.int "1" o] o]⟩, []⟩

/-- A program that assigns a text to the number, which is refused, and adds a fraction to it. -/
def miscounting : Parsed :=
  let o := Position.origin
  ⟨⟨[.func ⟨"main", [], [],
    [.assign (.name "count") .plain (.str "two" o) o,
      .assign (.name "count") (.compound .add) (.float "0.5" o) o]⟩ o]⟩, []⟩

def afterCounting : Machine := Machine.initial.executeParsed ⟨⟨3, none⟩, ""⟩ counting

def afterMiscounting : Machine := afterCounting.executeParsed ⟨⟨3, none⟩, ""⟩ miscounting

/-- The kind of the variable is kept, but in the end its value is not of that kind any more. So
there was a compound assignment, and before the first one all was well. -/
theorem count_keeps_its_kind :
    (afterCounting.frames.local? Frames.globalId "count").map (·.kind) = some .int32 ∧
    (afterMiscounting.frames.local? Frames.globalId "count").map (·.kind) = some .int32 ∧
    (afterMiscounting.frames.local? Frames.globalId "count").map (·.value.kind) = some .float32 ∧
    afterMiscounting.errors.size = 1 ∧
    ∃ ps e qs,
      Machine.Session ⟨⟨3, none⟩, ""⟩ (fun _ => True) (ps ++ e :: qs) afterMiscounting ∧
      e.event = some .combined ∧
      ∀ e' ∈ ps, ∀ f x s, e'.machine.frames.local? f x = some s → s.kind.Holds s.value := by
  have hinitial : Machine.Session ⟨⟨3, none⟩, ""⟩ (fun _ => True) _ _ := .initial
  obtain ⟨fs, hfs⟩ := hinitial.exists_executed counting trivial
  obtain ⟨gs, hgs⟩ := hfs.exists_executed miscounting trivial
  have hs : Machine.Session ⟨⟨3, none⟩, ""⟩ (fun _ => True)
      ([Machine.initial.still] ++ (fs ++ [afterCounting.still]) ++ (gs ++ [afterMiscounting.still]))
      afterMiscounting := hgs
  have hbefore : (afterCounting.frames.local? Frames.globalId "count").map (·.kind) =
      some .int32 := by decide +kernel
  have hafter : (afterMiscounting.frames.local? Frames.globalId "count").map (·.value.kind) =
      some .float32 := by decide +kernel
  have hlive : afterMiscounting.frames.isLive Frames.globalId = true := by decide +kernel
  have herrors : afterMiscounting.errors.size = 1 := by decide +kernel
  obtain ⟨hholds, hkept, -⟩ := kinds_are_kept hs
  generalize afterMiscounting = m₂ at *
  generalize afterCounting = m₁ at *
  obtain ⟨s₁, hs₁, hk₁⟩ := Option.map_eq_some_iff.mp hbefore
  obtain ⟨s₂, hs₂, hk₂⟩ := hkept (Machine.initial.still :: fs) m₁.still gs m₂.still [] _ _ (by simp)
    (.inl rfl) s₁ hs₁ hlive
  have hkind : s₂.kind = .int32 := hk₂.trans hk₁
  have hfloat : s₂.value.kind = .float32 := by
    obtain ⟨s, hs, hk⟩ := Option.map_eq_some_iff.mp hafter
    cases hs.symm.trans hs₂
    exact hk
  have hbad : ¬ s₂.kind.Holds s₂.value := by
    rintro ((hnil | hv) | ⟨hnil, -⟩)
    · rw [hnil] at hfloat
      cases hfloat
    · rw [hkind, hfloat] at hv
      cases hv
    · rw [hkind] at hnil
      cases hnil
  refine ⟨hbefore, Option.map_eq_some_iff.mpr ⟨s₂, hs₂, hkind⟩, hafter, herrors, ?_⟩
  classical
  cases hfirst : List.find? (fun e => decide (e.event = some .combined))
      ([Machine.initial.still] ++ (fs ++ [m₁.still]) ++ (gs ++ [m₂.still])) with
  | none =>
    refine absurd ((hholds (Machine.initial.still :: (fs ++ m₁.still :: gs)) m₂.still [] (by simp)
      fun e he => ?_).1 _ _ s₂ hs₂) hbad
    simpa using List.find?_eq_none.mp hfirst e (by simpa using he)
  | some e =>
    obtain ⟨he, ps, qs, heq, hps⟩ := List.find?_eq_some_iff_append.mp hfirst
    refine ⟨ps, e, qs, heq ▸ hs, of_decide_eq_true he, fun e' he' => ?_⟩
    obtain ⟨as, bs, rfl⟩ := List.append_of_mem he'
    refine (hholds as e' (bs ++ e :: qs) (by simpa using heq) fun p hp => ?_).1
    simpa using hps p (by simpa using List.mem_append_left bs hp)

end Treewalk
