/-
# The owner of a name

A name belongs, seen from a frame, to the nearest frame around it that binds
the name: `Nearest` walks outward from frame to frame and stops at the first
binding. Each question about a name has a lookup of its own, which walks by
itself: whether it is there, what it holds, the kind it keeps, whether it is a
constant, and which entry its declaration has. All of them stop at the owner,
and answer from its tables (`Frames.sight_of_nearest`). An assignment walks
too, and writes there and nowhere else.

This holds of every tree of frames that is built by opening frames and by
changes of their names (`Built`). It rests on two facts about such a tree. A
frame lies inside frames of smaller numbers (`Ordered`), so that a lookup
bounded by the number of its frame never stops short of the owner. And the
tables of a frame are in step (`InStep`), so that what one of them has the
others do not miss.

Key definitions: `Frames.Nearest`, `Frames.Within`, `Frames.Sight`,
`Frame.sight`, `Frames.WritesOnly`, `Frames.Change`, `Frames.Built`.
Key theorems: `Frames.resolve_iff_nearest`, `Frames.sight_of_nearest`,
`Frames.writesOnly_assign`, `Frames.sight_of_outside`, `Frames.Built.inStep`,
`lookups_agree`.
-/
import Treewalk.Proofs.Tables

namespace Treewalk

/-- All that can be asked about a name from a frame. -/
structure Frames.Sight where
  owner : Option FrameId
  found : Bool
  value : Option Value
  kind : Option Kind
  constant : Bool
  entry : Option Nat

/-- The answers of a frame about a name, read off its tables. -/
def Frame.sight (fr : Frame) (id : FrameId) (x : String) : Frames.Sight where
  owner := some id
  found := true
  value := fr.vars.lookup x
  kind := fr.kinds.lookup x
  constant := fr.constants.contains x
  entry := fr.symbols.lookup x

namespace Frames

variable {fs gs : Frames} {f g owner : FrameId} {x : String} {fr : Frame}

/-! ### Going outward -/

/-- The nearest frame that binds a name, going outward from a frame. -/
inductive Nearest (fs : Frames) (name : String) : FrameId → FrameId → Prop
  | here {f : FrameId} (bound : fs.hasLocal f name = true) : Nearest fs name f f
  | outward {f parent owner : FrameId} (free : fs.hasLocal f name = false)
      (around : fs.parent? f = some (some parent)) (nearest : Nearest fs name parent owner) :
      Nearest fs name f owner

/-- The frames that lie inside a frame, and the frame itself. -/
inductive Within (fs : Frames) (g : FrameId) : FrameId → Prop
  | self : Within fs g g
  | inner {f parent : FrameId} (around : fs.parent? f = some (some parent))
      (within : Within fs g parent) : Within fs g f

/-- Every frame lies inside one of a smaller number, if inside any. -/
def Ordered (fs : Frames) : Prop := ∀ f p, fs.parent? f = some (some p) → p < f

theorem nearest_of_resolveIn : ∀ (n : Nat) (f : FrameId), fs.resolveIn x n f = some owner →
    fs.Nearest x f owner
  | 0, _, h => by cases h
  | n + 1, f, h => by
    obtain ⟨bound, rfl⟩ | ⟨free, p, around, hp⟩ := resolveIn_cases h
    · exact .here bound
    · exact .outward free around (nearest_of_resolveIn n p hp)

/-- A bound above the number of the frame is enough, since the numbers fall on the way outward. -/
theorem Nearest.resolveIn (h : fs.Nearest x f owner) (ho : fs.Ordered) :
    ∀ {n : Nat}, f < n → fs.resolveIn x n f = some owner := by
  induction h with
  | here bound =>
    intro n hn
    obtain ⟨n, rfl⟩ := Nat.exists_eq_add_one_of_ne_zero (Nat.ne_of_gt (Nat.zero_lt_of_lt hn))
    rw [walks_resolve.step, if_pos bound]
  | @outward f p owner free around _ ih =>
    intro n hn
    obtain ⟨n, rfl⟩ := Nat.exists_eq_add_one_of_ne_zero (Nat.ne_of_gt (Nat.zero_lt_of_lt hn))
    have hlt : p < n := Nat.lt_of_lt_of_le (ho f p around) (Nat.le_of_lt_succ hn)
    rw [walks_resolve.step, if_neg (Bool.eq_false_iff.mp free), around]
    exact ih hlt

/-- **A lookup finds the nearest frame that binds the name, and no other.** -/
theorem resolve_iff_nearest (ho : fs.Ordered) :
    fs.resolve f x = some owner ↔ fs.Nearest x f owner :=
  ⟨nearest_of_resolveIn _ _, fun h => h.resolveIn ho (Nat.lt_succ_self f)⟩

theorem resolve_eq_none_iff (ho : fs.Ordered) :
    fs.resolve f x = none ↔ ∀ owner, ¬ fs.Nearest x f owner := by
  simp only [← resolve_iff_nearest ho, Option.eq_none_iff_forall_not_mem, Option.mem_def]

/-! ### What a frame sees of a name -/

/-- The answers of the single lookups. -/
def sight (fs : Frames) (f : FrameId) (x : String) : Sight where
  owner := fs.resolve f x
  found := fs.exists? f x
  value := fs.value? f x
  kind := fs.kind? f x
  constant := fs.isConst f x
  entry := fs.symbol? f x

/-- What is seen of a name that no frame binds. -/
def noSight : Sight := ⟨none, false, none, none, false, none⟩

/-- The lookups walk by themselves, and meet at the owner. -/
theorem sight_of_resolve (h : fs.resolve f x = some owner) (hfr : fs.get? owner = some fr) :
    fs.sight f x = fr.sight owner x := by
  obtain ⟨v, hv⟩ := Option.isSome_iff_exists.mp (binds_of_hasLocal (hasLocal_of_resolve h) hfr)
  have hslot : fs.slot? f x =
      some ⟨v, (fr.kinds.lookup x).getD .nil, fr.constants.contains x⟩ := by
    rw [(slot?_of_resolve h).1, local?, hfr, Option.bind_some, Frame.slot?, hv]
    rfl
  have hkind : fs.kind? f x = fr.kinds.lookup x := by
    rw [kind?_eq, h, Option.bind_some, hfr]
    rfl
  have hentry : fs.symbol? f x = fr.symbols.lookup x := by
    rw [symbol?_of_resolve h, entryOf?, hfr]
    rfl
  simp only [sight, Frame.sight, h, exists?_eq, value?_eq, isConst_eq, hslot, hkind, hentry, hv,
    Option.isSome_some, Option.map_some, Option.any_some]

theorem sight_of_resolve_none (h : fs.resolve f x = none) : fs.sight f x = noSight := by
  have hslot : fs.slot? f x = none := by rw [slot?, h]; rfl
  simp only [sight, noSight, h, exists?_eq, value?_eq, kind?_eq, isConst_eq, symbol?_eq, hslot,
    Option.isSome_none, Option.bind_none, Option.map_none, Option.any_none]

theorem isSome_value? : (fs.value? f x).isSome = (fs.resolve f x).isSome := by
  cases hr : fs.resolve f x with
  | none => simp [value?_eq, slot?, hr]
  | some owner =>
    obtain ⟨s, hs⟩ := local?_of_hasLocal (hasLocal_of_resolve hr)
    rw [value?_eq, (slot?_of_resolve hr).1, hs]
    rfl

theorem Nearest.hasLocal (h : fs.Nearest x f owner) : fs.hasLocal owner x = true := by
  induction h with
  | here bound => exact bound
  | outward _ _ _ ih => exact ih

/-- The owner is there. -/
theorem Nearest.exists_frame (h : fs.Nearest x f owner) : ∃ fr, fs.get? owner = some fr :=
  Option.isSome_iff_exists.mp (isLive_of_hasLocal h.hasLocal)

/-- **The owner answers.** -/
theorem sight_of_nearest (ho : fs.Ordered) (h : fs.Nearest x f owner)
    (hfr : fs.get? owner = some fr) : fs.sight f x = fr.sight owner x :=
  sight_of_resolve ((resolve_iff_nearest ho).mpr h) hfr

/-! ### Assignments -/

/-- Only the value of one name of a frame is another: the frame has it in its table of values, and
all else there and in other frames is the same. -/
structure WritesOnly (fs : Frames) (owner : FrameId) (x : String) (v : Value) (gs : Frames) :
    Prop where
  written : ∃ fr vars, fs.get? owner = some fr ∧ gs.get? owner = some { fr with vars } ∧
    vars.lookup x = some v ∧ ∀ y, y ≠ x → vars.lookup y = fr.vars.lookup y
  others : ∀ g, g ≠ owner → gs.get? g = fs.get? g

/-- **An assignment is made in the owner alone.** -/
theorem writesOnly_assign (ho : fs.Ordered) (h : fs.Nearest x f owner) (v : Value) :
    ∃ gs, fs.assign f x v = (.ok (), gs) ∧ fs.WritesOnly owner x v gs := by
  refine ⟨_, assign_of_resolve ((resolve_iff_nearest ho).mpr h) v, ⟨?_, fun g hne => ?_⟩⟩
  · obtain ⟨fr, hfr⟩ := h.exists_frame
    have hbinds : fr.binds x = true := binds_of_hasLocal h.hasLocal hfr
    refine ⟨fr, fr.vars.put x v, hfr, ?_, Table.lookup_put_self ..,
      fun y hy => Table.lookup_put_of_ne _ _ hy⟩
    rw [setLocal, get?_modify, if_pos rfl, hfr, Option.map_some, if_pos hbinds]
    rfl
  · rw [setLocal, get?_modify, if_neg (Ne.symm hne)]

theorem set_eq (fs : Frames) (f : FrameId) (x : String) (v : Value) :
    fs.set f x v = (fs.assign f x v).1.map fun _ => (fs.assign f x v).2 := by
  unfold set
  split
  all_goals
    rename_i h
    rw [h]
    rfl

theorem assign_ok_iff {v : Value} :
    (fs.assign f x v).1 = .ok () ↔ (fs.resolve f x).isSome = true := by
  cases hr : fs.resolve f x with
  | none => simp [assign_of_resolve_none hr]
  | some owner => simp [assign_of_resolve hr]

/-! ### Definitions -/

theorem Within.congr (hp : ∀ k, gs.parent? k = fs.parent? k) (h : gs.Within g f) :
    fs.Within g f := by
  induction h with
  | self => exact .self
  | inner around _ ih => exact .inner ((hp _).symm.trans around) ih

/-- Outside a frame, a lookup does not come through it. -/
theorem Nearest.congr_of_outside (hp : ∀ k, gs.parent? k = fs.parent? k)
    (hl : ∀ k, k ≠ g → gs.get? k = fs.get? k) (h : fs.Nearest x f owner)
    (hout : ¬ fs.Within g f) : gs.Nearest x f owner ∧ owner ≠ g := by
  have hlocal : ∀ k, k ≠ g → gs.hasLocal k x = fs.hasLocal k x := fun k hk => by
    rw [Frames.hasLocal, hl k hk, ← Frames.hasLocal]
  induction h with
  | @here f bound =>
    have hne : f ≠ g := fun he => hout (he ▸ .self)
    exact ⟨.here ((hlocal f hne).trans bound), hne⟩
  | @outward f p owner free around _ ih =>
    have hne : f ≠ g := fun he => hout (he ▸ .self)
    obtain ⟨hnearest, howner⟩ := ih fun hwithin => hout (.inner around hwithin)
    exact ⟨.outward ((hlocal f hne).trans free) ((hp f).trans around) hnearest, howner⟩

theorem Ordered.congr (ho : fs.Ordered) (hp : ∀ k, gs.parent? k = fs.parent? k) : gs.Ordered :=
  fun f p h => ho f p ((hp f).symm.trans h)

/-- **What is changed in a frame is seen from inside it only.** -/
theorem sight_of_outside (ho : fs.Ordered) (hp : ∀ k, gs.parent? k = fs.parent? k)
    (hl : ∀ k, k ≠ g → gs.get? k = fs.get? k) (hout : ¬ fs.Within g f) :
    gs.sight f x = fs.sight f x := by
  have ho' : gs.Ordered := ho.congr hp
  cases hr : fs.resolve f x with
  | some owner =>
    obtain ⟨hnearest, hne⟩ := ((resolve_iff_nearest ho).mp hr).congr_of_outside hp hl hout
    obtain ⟨fr, hfr⟩ := hnearest.exists_frame
    rw [sight_of_nearest ho' hnearest hfr, sight_of_resolve hr ((hl owner hne).symm.trans hfr)]
  | none =>
    -- an owner in the new frames would be one in the old
    have hnone : gs.resolve f x = none := by
      refine (resolve_eq_none_iff ho').mpr fun owner hnearest => ?_
      have hout' : ¬ gs.Within g f := fun h => hout (h.congr hp)
      have hback := hnearest.congr_of_outside (fun k => (hp k).symm)
        (fun k hk => (hl k hk).symm) hout'
      exact (resolve_eq_none_iff ho).mp hr owner hback.1
    rw [sight_of_resolve_none hnone, sight_of_resolve_none hr]

theorem sight_bind_of_outside (ho : fs.Ordered) (hout : ¬ fs.Within g f) (y : String) (s : Slot) :
    (fs.bind g y s).sight f x = fs.sight f x := by
  refine sight_of_outside ho (parent?_bind fs g y s) (fun k hk => ?_) hout
  exact (get?_modify ..).trans (if_neg (Ne.symm hk))

/-- The frame itself sees all of its new binding, and nothing of an earlier one. -/
theorem sight_bind_self (hg : fs.isLive g = true) (y : String) (s : Slot) :
    (fs.bind g y s).sight g y =
      ⟨some g, true, some s.value, some s.kind, s.constant, fs.entryOf? g y⟩ := by
  obtain ⟨fr, hfr⟩ := Option.isSome_iff_exists.mp hg
  have hget : (fs.bind g y s).get? g = some (fr.bind y s) := by
    refine (get?_modify ..).trans ?_
    rw [if_pos rfl, hfr]
    rfl
  have hlocal : (fs.bind g y s).hasLocal g y = true := by
    rw [Frames.hasLocal, hget, Option.any_some, Frame.binds_bind]
    simp
  have hentry : fr.symbols.lookup y = fs.entryOf? g y := by
    rw [entryOf?, hfr]
    rfl
  rw [sight_of_resolve (resolve_of_hasLocal hlocal) hget]
  cases hs : s.constant <;>
    simp [Frame.sight, Frame.bind, Table.lookup_put_self, hs, hentry]

/-! ### Trees of frames -/

/-- A change of a tree of frames. -/
inductive Change where
  | child (parent : FrameId)
  | define (frame : FrameId) (name : String) (v : Value)
  | defineConst (frame : FrameId) (name : String) (v : Value)
  | set (frame : FrameId) (name : String) (v : Value)
  | setKind (frame : FrameId) (name : String) (kind : Kind)
  | bindSymbol (frame : FrameId) (name : String) (entry : Nat)

namespace Change

/-- The frame a change is made from. -/
def frame : Change → FrameId
  | child f | define f .. | defineConst f .. | set f .. | setKind f .. | bindSymbol f .. => f

/-- The frames after a change. -/
def apply (fs : Frames) : Change → Frames
  | child parent => fs.openIn parent
  | define f x v => fs.define f x v
  | defineConst f x v => fs.defineConst f x v
  | set f x v => (fs.assign f x v).2
  | setKind f x kind => fs.setKind f x kind
  | bindSymbol f x entry => fs.bindSymbol f x entry

end Change

/-- The trees of frames: the global frame, and what changes make of it that are made from frames
which are there. -/
inductive Built : Frames → Prop
  | initial : Built Frames.initial
  | change {fs : Frames} (built : Built fs) (c : Change) (live : fs.isLive c.frame = true) :
      Built (c.apply fs)

theorem parent?_setKind (fs : Frames) (id : FrameId) (name : String) (kind : Kind) (j : FrameId) :
    (fs.setKind id name kind).parent? j = fs.parent? j :=
  parent?_modify fs id _ j fun fr => by unfold Frame.setKind; split <;> rfl

/-- An assignment sets a variable of some frame, or leaves the frames as they are. -/
theorem assign_cases (fs : Frames) (f : FrameId) (x : String) (v : Value) :
    (∃ owner, (fs.assign f x v).2 = fs.setLocal owner x v) ∨ (fs.assign f x v).2 = fs := by
  cases hr : fs.resolve f x with
  | none => exact .inr (by rw [assign_of_resolve_none hr])
  | some owner => exact .inl ⟨owner, by rw [assign_of_resolve hr]⟩

theorem parent?_assign (fs : Frames) (f : FrameId) (x : String) (v : Value) (j : FrameId) :
    (fs.assign f x v).2.parent? j = fs.parent? j := by
  obtain ⟨owner, h⟩ | h := fs.assign_cases f x v
  · rw [h, parent?_setLocal]
  · rw [h]

theorem ordered_initial : Frames.initial.Ordered := by
  intro f p h
  cases f with
  | zero => cases h
  | succ f => simp [parent?, get?, initial] at h

/-- A new frame gets the next number. -/
theorem Ordered.openIn (ho : fs.Ordered) {parent : FrameId} (hp : parent < fs.nextId) :
    (fs.openIn parent).Ordered := by
  intro f p h
  rw [parent?_openIn] at h
  by_cases hf : f = fs.nextId
  · rw [if_pos hf] at h
    cases h
    exact hf ▸ hp
  · rw [if_neg hf] at h
    exact ho f p h

/-- One change keeps the order of frames. -/
theorem Ordered.apply (ho : fs.Ordered) (c : Change) (hlive : fs.isLive c.frame = true) :
    (c.apply fs).Ordered := by
  cases c with
  | child parent => exact ho.openIn (lt_nextId_of_isLive hlive)
  | define g y v => exact ho.congr (parent?_bind fs g y ⟨v, v.kind, false⟩)
  | defineConst g y v => exact ho.congr (parent?_bind fs g y ⟨v, v.kind, true⟩)
  | set g y v => exact ho.congr (parent?_assign fs g y v)
  | setKind g y kind => exact ho.congr (parent?_setKind fs g y kind)
  | bindSymbol g y entry => exact ho.congr (parent?_bindSymbol fs g y entry)

theorem Built.ordered (h : fs.Built) : fs.Ordered := by
  induction h with
  | initial => exact ordered_initial
  | change _ c live ih => exact ih.apply c live

/-- One change keeps the tables in step, whichever of them it writes to. -/
theorem InStep.apply (h : fs.InStep) (c : Change) : (c.apply fs).InStep := by
  cases c with
  | child parent => exact h.openIn parent
  | define g y v => exact h.bind g y ⟨v, v.kind, false⟩
  | defineConst g y v => exact h.bind g y ⟨v, v.kind, true⟩
  | set g y v =>
    rw [Change.apply]
    obtain ⟨owner, hset⟩ | hset := fs.assign_cases g y v
    · rw [hset]
      exact h.setLocal owner y v
    · rw [hset]
      exact h
  | setKind g y kind => exact h.setKind g y kind
  | bindSymbol g y entry => exact h.bindSymbol g y entry

theorem Built.inStep (h : fs.Built) : fs.InStep := by
  induction h with
  | initial => exact .initial
  | change _ c _ ih => exact ih.apply c

end Frames

/-- **All lookups agree.** In every tree of frames that is built by opening frames, defining
variables and constants, assigning, declaring kinds and noting entries, the tables of each frame are
in step: a name has a kind there just when it is bound, and only bound names are constants. And for
every frame `f` and name `x`: the lookup of the owner gives the nearest frame around `f` that binds
`x`, and where there is one, and only there, the name exists, has a value and a kind, and can be
assigned. All that is asked about it is answered from the tables of that frame. An assignment
changes the value of that name in that frame and nothing else, and one that fails changes nothing.
A definition in a frame `g` changes nothing that is seen from outside the frames within `g`, and is
seen by `g` itself, with nothing left of an earlier one. -/
theorem lookups_agree {fs : Frames} (h : fs.Built) (f : FrameId) (x : String) :
    (∀ g fr, fs.get? g = some fr → ∀ y, (fr.kinds.lookup y).isSome = (fr.vars.lookup y).isSome ∧
        (fr.constants.contains y = true → (fr.vars.lookup y).isSome = true)) ∧
      (∀ owner, fs.resolve f x = some owner ↔ fs.Nearest x f owner) ∧
      ((fs.exists? f x = true ↔ ∃ owner, fs.Nearest x f owner) ∧
        ((fs.value? f x).isSome = true ↔ ∃ owner, fs.Nearest x f owner) ∧
        ((fs.kind? f x).isSome = true ↔ ∃ owner, fs.Nearest x f owner) ∧
        ∀ v, (fs.assign f x v).1 = .ok () ↔ ∃ owner, fs.Nearest x f owner) ∧
      (∀ owner, fs.Nearest x f owner → ∃ fr, fs.get? owner = some fr ∧
        fs.sight f x = fr.sight owner x ∧
        ∀ v, ∃ gs, fs.assign f x v = (.ok (), gs) ∧ fs.set f x v = .ok gs ∧
          fs.WritesOnly owner x v gs) ∧
      ((∀ owner, ¬ fs.Nearest x f owner) → fs.sight f x = Frames.noSight ∧
        ∀ v, fs.assign f x v = (.error (.assignUndeclared x), fs) ∧
          fs.set f x v = .error (.assignUndeclared x)) ∧
      ∀ g y v,
        (¬ fs.Within g f → (fs.define g y v).sight f x = fs.sight f x ∧
          (fs.defineConst g y v).sight f x = fs.sight f x) ∧
        (fs.isLive g = true →
          (fs.define g y v).sight g y =
            ⟨some g, true, some v, some v.kind, false, fs.entryOf? g y⟩ ∧
          (fs.defineConst g y v).sight g y =
            ⟨some g, true, some v, some v.kind, true, fs.entryOf? g y⟩) := by
  have ho := h.ordered
  have hfound : (fs.resolve f x).isSome = true ↔ ∃ owner, fs.Nearest x f owner := by
    simp only [Option.isSome_iff_exists, Frames.resolve_iff_nearest ho]
  refine ⟨fun g fr hfr y => ⟨(h.inStep g fr hfr).kinds y, fun hy => ?_⟩,
    fun owner => Frames.resolve_iff_nearest ho, ⟨?_, ?_, ?_, fun v => ?_⟩,
    fun owner hnearest => ?_, fun hnone => ?_, fun g y v => ⟨fun hout => ?_, fun hlive => ?_⟩⟩
  · exact (h.inStep g fr hfr).constants y (List.contains_iff_mem.mp hy)
  · rw [← hfound, Frames.exists?_eq]
  · rw [← hfound, Frames.isSome_value?]
  · rw [← hfound, h.inStep.isSome_kind?]
  · rw [← hfound, Frames.assign_ok_iff]
  · obtain ⟨fr, hfr⟩ := hnearest.exists_frame
    refine ⟨fr, hfr, Frames.sight_of_nearest ho hnearest hfr, fun v => ?_⟩
    obtain ⟨gs, hgs, hwrites⟩ := Frames.writesOnly_assign ho hnearest v
    exact ⟨gs, hgs, by rw [Frames.set_eq, hgs]; rfl, hwrites⟩
  · have hr := (Frames.resolve_eq_none_iff ho).mpr hnone
    refine ⟨Frames.sight_of_resolve_none hr, fun v => ?_⟩
    have hset := Frames.assign_of_resolve_none hr v
    exact ⟨hset, by rw [Frames.set_eq, hset]; rfl⟩
  · exact ⟨Frames.sight_bind_of_outside ho hout y ⟨v, v.kind, false⟩,
      Frames.sight_bind_of_outside ho hout y ⟨v, v.kind, true⟩⟩
  · exact ⟨Frames.sight_bind_self hlive y ⟨v, v.kind, false⟩,
      Frames.sight_bind_self hlive y ⟨v, v.kind, true⟩⟩

/-- A constant `x` of the global frame, hidden from frame 2 by a variable of the frame 1 around it,
and seen from frame 3 beside them. -/
def hiddenConstant : Frames :=
  [Frames.Change.defineConst 0 "x" (.int 1), .bindSymbol 0 "x" 0, .child 0, .define 1 "x" .nil,
    .setKind 1 "x" .int32, .child 1, .set 2 "x" (.int 2), .child 0].foldl Frames.Change.apply
    .initial

theorem hiddenConstant_lookups_agree : hiddenConstant.Built ∧ hiddenConstant.Nearest "x" 2 1 ∧
    hiddenConstant.sight 2 "x" = ⟨some 1, true, some (.int 2), some .int32, false, none⟩ ∧
    hiddenConstant.sight 3 "x" = ⟨some 0, true, some (.int 1), some .int32, true, some 0⟩ ∧
    ¬ hiddenConstant.Within 1 3 ∧
    (hiddenConstant.define 1 "x" (.str "")).sight 3 "x" = hiddenConstant.sight 3 "x" := by
  have outer := Frames.Built.change (.change .initial (.defineConst 0 "x" (.int 1)) rfl)
    (.bindSymbol 0 "x" 0) (by decide +kernel)
  have inner := Frames.Built.change (.change (.change outer (.child 0) (by decide +kernel))
    (.define 1 "x" .nil) (by decide +kernel)) (.setKind 1 "x" .int32) (by decide +kernel)
  have built : hiddenConstant.Built :=
    .change (.change (.change inner (.child 1) (by decide +kernel)) (.set 2 "x" (.int 2))
      (by decide +kernel)) (.child 0) (by decide +kernel)
  have hout : ¬ hiddenConstant.Within 1 3 := by
    intro h
    cases h with
    | inner around h =>
      cases around
      cases h with
      | inner around _ => cases around
  exact ⟨built, (lookups_agree built 2 "x").2.1 1 |>.mp (by decide +kernel), rfl, rfl, hout,
    ((lookups_agree built 3 "x").2.2.2.2.2 1 "x" (.str "")).1 hout |>.1⟩

end Treewalk
