/-
# Looking up names

What a frame knows of a name is a slot: its value, the kind it keeps and
whether it is a constant, read off the tables of the frame. Each lookup goes
outward by itself, and all of them stop at the same frame, the one that
`Frames.resolve` gives (`Frames.Walks`); and so they give what its slot says.
The kind alone may be missing there, unless the tables are in step.

For each change of the frames, what it does to the slots, the parents and the
entries of all frames.

Key definitions: `Slot`, `Frame.slot?`, `Frames.local?`, `Frames.slot?`,
`Frames.bind`, `Frames.setLocal`, `Frames.Walks`, `Frames.parent?`,
`Frames.entryOf?`, `Frames.EntriesBelow`.
Key theorems: `Frames.Walks.eq`, `Frames.assign_of_resolve`, `Frames.resolve_of_hasLocal`,
`Frames.hasLocal_of_resolve`, `Frames.value?_of_resolve`,
`Frames.resolve_closed`, `Frames.local?_bind`, `Frames.local?_setLocal`,
`Frames.local?_openIn`, `Frames.local?_close`, `Frames.isLive_openIn`,
`Frames.isLive_close`.
-/
import Treewalk.Frame

namespace Treewalk

/-! ### Slots -/

/-- A variable: its content, the kind an assignment has to keep, and whether it is a constant. -/
structure Slot where
  value : Value
  kind : Kind
  constant : Bool
  deriving Inhabited

namespace Frame

/-- What the tables of a frame say of a name that it binds. -/
def slot? (f : Frame) (name : String) : Option Slot :=
  (f.vars.lookup name).map fun v =>
    ⟨v, (f.kinds.lookup name).getD .nil, f.constants.contains name⟩

/-- Binds a name to a slot, in place of any earlier binding. -/
def bind (f : Frame) (name : String) (s : Slot) : Frame :=
  { f with
    vars := f.vars.put name s.value
    kinds := f.kinds.put name s.kind
    constants := if s.constant then f.constants.insert name else f.constants.filter (· != name) }

theorem isSome_slot? (f : Frame) (name : String) : (f.slot? name).isSome = f.binds name :=
  Option.isSome_map ..

theorem binds_bind (f : Frame) (name : String) (s : Slot) (x : String) :
    (f.bind name s).binds x = (x == name || f.binds x) :=
  Table.isSome_lookup_put ..

/-- A declared kind takes the place of that of the first value. -/
theorem setKind_bind (f : Frame) (name : String) (s : Slot) (kind : Kind) :
    (f.bind name s).setKind name kind = f.bind name { s with kind } := by
  rw [setKind, if_pos (by simp [binds_bind])]
  simp only [bind, Table.put_put]

theorem slot?_bind_self (f : Frame) (name : String) (s : Slot) :
    (f.bind name s).slot? name = some s := by
  obtain ⟨v, kind, constant⟩ := s
  cases constant <;> simp [slot?, bind, Table.lookup_put_self]

theorem slot?_bind_of_ne (f : Frame) {name x : String} (s : Slot) (hx : x ≠ name) :
    (f.bind name s).slot? x = f.slot? x := by
  obtain ⟨v, kind, constant⟩ := s
  cases constant <;> simp [slot?, bind, Table.lookup_put_of_ne _ _ hx, hx]

theorem slot?_setValue_self {f : Frame} {name : String} {s : Slot} (h : f.slot? name = some s)
    (v : Value) : (f.setValue name v).slot? name = some { s with value := v } := by
  obtain ⟨w, -, rfl⟩ := Option.map_eq_some_iff.mp h
  simp [slot?, setValue, Table.lookup_put_self]

theorem slot?_setValue_of_ne (f : Frame) {name x : String} (v : Value) (hx : x ≠ name) :
    (f.setValue name v).slot? x = f.slot? x := by
  simp [slot?, setValue, Table.lookup_put_of_ne _ _ hx]

end Frame

namespace Frames

variable {fs : Frames} {f id owner : FrameId} {name : String}

/-- The variable of a frame itself. -/
def local? (fs : Frames) (id : FrameId) (name : String) : Option Slot :=
  (fs.get? id).bind (·.slot? name)

/-- The variable a name stands for, seen from a frame. -/
def slot? (fs : Frames) (id : FrameId) (name : String) : Option Slot :=
  (fs.resolve id name).bind (fs.local? · name)

/-- The entry of a name that the frame itself binds. -/
def entryOf? (fs : Frames) (f : FrameId) (name : String) : Option Nat :=
  (fs.get? f).bind (·.symbols.lookup name)

/-- What lies around a frame, if the frame is there. -/
def parent? (fs : Frames) (id : FrameId) : Option (Option FrameId) := (fs.get? id).map Frame.parent

/-- Binds a name in a frame. -/
def bind (fs : Frames) (id : FrameId) (name : String) (slot : Slot) : Frames :=
  { fs.modify id (·.bind name slot) with defined := fs.defined + 1 }

/-- Sets a variable of the frame itself. -/
def setLocal (fs : Frames) (id : FrameId) (name : String) (v : Value) : Frames :=
  fs.modify id fun f => if f.binds name then f.setValue name v else f

theorem modify_congr {g g' : Frame → Frame} (h : ∀ fr, fs.get? id = some fr → g fr = g' fr) :
    fs.modify id g = fs.modify id g' := by
  refine congrArg (Frames.mk · fs.defined) (Array.ext_getElem? fun j => ?_)
  rw [Array.getElem?_modify, Array.getElem?_modify]
  split
  · rename_i hj
    subst hj
    cases ho : fs.frames[id]? with
    | none => rfl
    | some o =>
      cases o with
      | none => rfl
      | some fr => simp [h fr (by simp [get?, ho])]
  · rfl

theorem hasLocal_eq : fs.hasLocal id name = (fs.local? id name).isSome := by
  rw [local?, hasLocal]
  cases fs.get? id with
  | none => rfl
  | some fr => exact (fr.isSome_slot? name).symm

theorem hasLocal_of_local? {s : Slot} (h : fs.local? f name = some s) :
    fs.hasLocal f name = true := by
  rw [hasLocal_eq, h]
  rfl

theorem local?_of_hasLocal (h : fs.hasLocal f name = true) : ∃ s, fs.local? f name = some s :=
  Option.isSome_iff_exists.mp (hasLocal_eq.symm.trans h)

theorem binds_of_hasLocal {fr : Frame} (h : fs.hasLocal f name = true) (hfr : fs.get? f = some fr) :
    fr.binds name = true := by
  rwa [hasLocal, hfr] at h

theorem local?_eq_none_iff : fs.local? f name = none ↔ fs.hasLocal f name = false := by
  rw [hasLocal_eq, Option.isSome_eq_false_iff, Option.isNone_iff_eq_none]

/-! ### All lookups go the same way -/

/-- A lookup that goes outward from frame to frame and stops at the first that binds the name: it
gives what `here` says of that frame, and `nowhere` if there is none. -/
structure Walks {γ : Type} (fs : Frames) (name : String) (nowhere : γ) (here : FrameId → γ)
    (look : Nat → FrameId → γ) : Prop where
  stop : ∀ f, look 0 f = nowhere
  step : ∀ n f, look (n + 1) f =
    if fs.hasLocal f name then here f else (fs.parent? f).join.elim nowhere (look n)

theorem walks_resolve : fs.Walks name none some (fs.resolveIn name) where
  stop _ := rfl
  step n f := by
    rw [resolveIn, hasLocal, parent?]
    cases fs.get? f with
    | none => rfl
    | some fr => cases hp : fr.parent <;> simp [hp]

/-- **Every lookup stops where the owner is found.** -/
theorem Walks.eq {γ : Type} {nowhere : γ} {here : FrameId → γ} {look : Nat → FrameId → γ}
    (h : fs.Walks name nowhere here look) :
    ∀ n f, look n f = (fs.resolveIn name n f).elim nowhere here
  | 0, f => h.stop f
  | n + 1, f => by
    rw [h.step, walks_resolve.step]
    by_cases hl : fs.hasLocal f name = true
    · rw [if_pos hl, if_pos hl]
      rfl
    · rw [if_neg hl, if_neg hl]
      cases (fs.parent? f).join with
      | none => rfl
      | some p => exact h.eq n p

theorem walks_value : fs.Walks name none (fun f => (fs.local? f name).map Slot.value)
    (fs.valueIn name) where
  stop _ := rfl
  step n f := by
    rw [valueIn, hasLocal, parent?, local?]
    cases fs.get? f with
    | none => rfl
    | some fr => cases hv : fr.vars.lookup name <;> cases hp : fr.parent <;>
        simp [Frame.binds, Frame.slot?, hv, hp]

theorem walks_kind : fs.Walks name none (fun f => (fs.get? f).bind (·.kinds.lookup name))
    (fs.kindIn name) where
  stop _ := rfl
  step n f := by
    rw [kindIn, hasLocal, parent?]
    cases fs.get? f with
    | none => rfl
    | some fr => cases hp : fr.parent <;> simp [hp]

theorem walks_exists : fs.Walks name false (fun _ => true) (fs.existsIn name) where
  stop _ := rfl
  step n f := by
    rw [existsIn, hasLocal, parent?]
    cases fs.get? f with
    | none => rfl
    | some fr => cases hb : fr.binds name <;> cases hp : fr.parent <;> simp [hb, hp]

theorem walks_isConst : fs.Walks name false (fun f => (fs.local? f name).any Slot.constant)
    (fs.isConstIn name) where
  stop _ := rfl
  step n f := by
    rw [isConstIn, hasLocal, parent?, local?]
    cases fs.get? f with
    | none => rfl
    | some fr => cases hv : fr.vars.lookup name <;> cases hp : fr.parent <;>
        simp [Frame.binds, Frame.slot?, hv, hp]

theorem walks_symbol : fs.Walks name none (fs.entryOf? · name) (fs.symbolIn name) where
  stop _ := rfl
  step n f := by
    rw [symbolIn, hasLocal, parent?, entryOf?]
    cases fs.get? f with
    | none => rfl
    | some fr => cases hp : fr.parent <;> simp [hp]

theorem walks_assign (fs : Frames) (name : String) (v : Value) :
    fs.Walks name (.error (.assignUndeclared name), fs)
    (fun f => (.ok (), fs.modify f (·.setValue name v))) (fun n f => assignIn name v n f fs) where
  stop _ := rfl
  step n f := by
    rw [assignIn, hasLocal, parent?]
    cases fs.get? f with
    | none => rfl
    | some fr => cases hb : fr.binds name <;> cases hp : fr.parent <;> simp [hb, hp]

theorem value?_eq : fs.value? f name = (fs.slot? f name).map Slot.value := by
  rw [value?, walks_value.eq, slot?, resolve]
  cases fs.resolveIn name (f + 1) f <;> rfl

theorem kind?_eq : fs.kind? f name =
    (fs.resolve f name).bind fun owner => (fs.get? owner).bind (·.kinds.lookup name) := by
  rw [kind?, walks_kind.eq, resolve]
  cases fs.resolveIn name (f + 1) f <;> rfl

theorem exists?_eq : fs.exists? f name = (fs.resolve f name).isSome := by
  rw [exists?, walks_exists.eq, resolve]
  cases fs.resolveIn name (f + 1) f <;> rfl

theorem isConst_eq : fs.isConst f name = (fs.slot? f name).any Slot.constant := by
  rw [isConst, walks_isConst.eq, slot?, resolve]
  cases fs.resolveIn name (f + 1) f <;> rfl

theorem symbol?_eq : fs.symbol? f name = (fs.resolve f name).bind (fs.entryOf? · name) := by
  rw [symbol?, walks_symbol.eq, resolve]
  cases fs.resolveIn name (f + 1) f <;> rfl

/-! ### The nearest frame that binds a name -/

theorem resolve_of_hasLocal (h : fs.hasLocal f name = true) : fs.resolve f name = some f := by
  rw [resolve, walks_resolve.step, if_pos h]

/-- A name is found in the frame itself, or it is free there and found from the frame around. -/
theorem resolveIn_cases {n : Nat} (h : fs.resolveIn name (n + 1) f = some owner) :
    fs.hasLocal f name = true ∧ owner = f ∨ fs.hasLocal f name = false ∧
      ∃ p, fs.parent? f = some (some p) ∧ fs.resolveIn name n p = some owner := by
  rw [walks_resolve.step] at h
  cases hl : fs.hasLocal f name with
  | true =>
    rw [if_pos hl] at h
    exact .inl ⟨rfl, (Option.some.inj h).symm⟩
  | false =>
    rw [if_neg (Bool.eq_false_iff.mp hl)] at h
    cases hp : (fs.parent? f).join with
    | none =>
      rw [hp] at h
      cases h
    | some p =>
      rw [hp] at h
      exact .inr ⟨rfl, p, Option.join_eq_some_iff.mp hp, h⟩

theorem resolveIn_hasLocal : ∀ (n : Nat) (f : FrameId), fs.resolveIn name n f = some owner →
    fs.hasLocal owner name = true
  | 0, _, h => by cases h
  | n + 1, f, h => by
    obtain ⟨hl, rfl⟩ | ⟨-, p, -, hp⟩ := resolveIn_cases h
    · exact hl
    · exact resolveIn_hasLocal n p hp

theorem hasLocal_of_resolve (h : fs.resolve f name = some owner) : fs.hasLocal owner name = true :=
  resolveIn_hasLocal _ _ h

/-- An assignment is made in the frame that binds the name. -/
theorem assign_of_resolve (h : fs.resolve f name = some owner) (v : Value) :
    fs.assign f name v = (.ok (), fs.setLocal owner name v) := by
  have hwalk := (walks_assign fs name v).eq (f + 1) f
  rw [← resolve, h] at hwalk
  refine hwalk.trans (congrArg (Prod.mk _) (modify_congr fun fr hfr => ?_))
  exact (if_pos (binds_of_hasLocal (hasLocal_of_resolve h) hfr)).symm

/-- One that fails leaves the frames as they are. -/
theorem assign_of_resolve_none (h : fs.resolve f name = none) (v : Value) :
    fs.assign f name v = (.error (.assignUndeclared name), fs) := by
  have hwalk := (walks_assign fs name v).eq (f + 1) f
  rw [← resolve, h] at hwalk
  exact hwalk

/-- A name means the same from the frame that binds it. -/
theorem slot?_of_resolve (h : fs.resolve f name = some owner) :
    fs.slot? f name = fs.local? owner name ∧ fs.slot? owner name = fs.local? owner name := by
  have h' := resolve_of_hasLocal (hasLocal_of_resolve h)
  simp [slot?, h, h']

theorem slot?_of_local? {s : Slot} (h : fs.local? f name = some s) : fs.slot? f name = some s := by
  rw [slot?, resolve_of_hasLocal (hasLocal_of_local? h)]
  exact h

theorem value?_of_resolve (h : fs.resolve f name = some owner) :
    fs.value? f name = fs.value? owner name := by
  obtain ⟨h1, h2⟩ := slot?_of_resolve h
  rw [value?_eq, value?_eq, h1, h2]

theorem resolve_of_value? {v : Value} (h : fs.value? f name = some v) :
    ∃ owner, fs.resolve f name = some owner := by
  cases hr : fs.resolve f name with
  | none => simp [value?_eq, slot?, hr] at h
  | some owner => exact ⟨owner, rfl⟩

theorem local?_of_value? {v : Value} (h : fs.value? f name = some v) :
    ∃ owner s, fs.resolve f name = some owner ∧ fs.local? owner name = some s ∧ s.value = v := by
  obtain ⟨owner, ho⟩ := resolve_of_value? h
  rw [value?_eq, (slot?_of_resolve ho).1, Option.map_eq_some_iff] at h
  obtain ⟨s, hs, hv⟩ := h
  exact ⟨owner, s, ho, hs, hv⟩

/-! ### The frames around a frame -/

theorem lt_nextId_of_parent? {p : Option FrameId} (h : fs.parent? id = some p) :
    id < fs.nextId := by
  rcases Nat.lt_or_ge id fs.nextId with hlt | hge
  · exact hlt
  · have hn : fs.frames[id]? = none := Array.getElem?_eq_none hge
    simp [parent?, get?, hn] at h

theorem parent?_of_hasLocal (h : fs.hasLocal f name = true) : ∃ p, fs.parent? f = some p := by
  cases hf : fs.get? f with
  | none => simp [hasLocal, hf] at h
  | some fr => exact ⟨fr.parent, by simp [parent?, hf]⟩

theorem hasLocal_of_parent?_none (h : fs.parent? f = none) : fs.hasLocal f name = false := by
  cases hl : fs.hasLocal f name with
  | false => rfl
  | true =>
    obtain ⟨p, hp⟩ := parent?_of_hasLocal hl
    cases h.symm.trans hp

theorem resolve_of_parent?_none (h : fs.parent? f = none) : fs.resolve f name = none := by
  rw [resolve, walks_resolve.step, hasLocal_of_parent?_none h, h]
  rfl

theorem resolveIn_closed {P : FrameId → Prop}
    (hP : ∀ g p, P g → fs.parent? g = some (some p) → P p) :
    ∀ (n : Nat) (f : FrameId), P f → fs.resolveIn name n f = some owner → P owner
  | 0, _, _, h => by cases h
  | n + 1, f, hf, h => by
    obtain ⟨-, rfl⟩ | ⟨-, p, around, hp⟩ := resolveIn_cases h
    · exact hf
    · exact resolveIn_closed hP n p (hP f p hf around) hp

/-- A lookup stays among frames that are closed under going to the frame around. -/
theorem resolve_closed {P : FrameId → Prop}
    (hP : ∀ g p, P g → fs.parent? g = some (some p) → P p) (hf : P f)
    (h : fs.resolve f name = some owner) : P owner :=
  resolveIn_closed hP _ f hf h

/-! ### Changes of a frame -/

theorem get?_modify (fs : Frames) (id : FrameId) (g : Frame → Frame) (j : FrameId) :
    (fs.modify id g).get? j = if id = j then (fs.get? j).map g else fs.get? j := by
  simp only [get?, modify, Array.getElem?_modify]
  split
  · cases fs.frames[j]? with
    | none => rfl
    | some o => rfl
  · rfl

@[simp] theorem nextId_modify (fs : Frames) (id : FrameId) (g : Frame → Frame) :
    (fs.modify id g).nextId = fs.nextId := by
  simp [modify, nextId]

theorem parent?_modify (fs : Frames) (id : FrameId) (g : Frame → Frame) (j : FrameId)
    (hg : ∀ fr, (g fr).parent = fr.parent) :
    (fs.modify id g).parent? j = fs.parent? j := by
  rw [parent?, get?_modify]
  split
  · cases h : fs.get? j with
    | none => simp [parent?, h]
    | some fr => simp [parent?, h, hg]
  · rfl

@[simp] theorem nextId_bind (fs : Frames) (id : FrameId) (name : String) (s : Slot) :
    (fs.bind id name s).nextId = fs.nextId :=
  nextId_modify ..

@[simp] theorem parent?_bind (fs : Frames) (id : FrameId) (name : String) (s : Slot)
    (j : FrameId) : (fs.bind id name s).parent? j = fs.parent? j :=
  parent?_modify fs id _ j fun _ => rfl

theorem local?_bind (fs : Frames) (id : FrameId) (name : String) (s : Slot) (j : FrameId)
    (x : String) :
    (fs.bind id name s).local? j x =
      if j = id ∧ x = name then (fs.parent? id).map fun _ => s else fs.local? j x := by
  have hget : (fs.bind id name s).get? j = (fs.modify id (·.bind name s)).get? j := rfl
  rw [local?, hget, get?_modify]
  by_cases hj : id = j
  · subst hj
    cases hf : fs.get? id with
    | none => simp [local?, parent?, hf]
    | some fr =>
      by_cases hx : x = name
      · subst hx
        simp [parent?, hf, Frame.slot?_bind_self]
      · simp [local?, hf, hx, Frame.slot?_bind_of_ne fr s hx]
  · have hj' : j ≠ id := Ne.symm hj
    simp [hj, hj', local?]

theorem hasLocal_bind (fs : Frames) (id : FrameId) (name : String) (s : Slot) (j : FrameId)
    (x : String) :
    (fs.bind id name s).hasLocal j x =
      if j = id ∧ x = name then (fs.parent? id).isSome else fs.hasLocal j x := by
  rw [hasLocal_eq, local?_bind, hasLocal_eq]
  split
  · exact Option.isSome_map ..
  · rfl

@[simp] theorem nextId_bindSymbol (fs : Frames) (id : FrameId) (name : String) (entry : Nat) :
    (fs.bindSymbol id name entry).nextId = fs.nextId :=
  nextId_modify ..

@[simp] theorem parent?_bindSymbol (fs : Frames) (id : FrameId) (name : String) (entry : Nat)
    (j : FrameId) : (fs.bindSymbol id name entry).parent? j = fs.parent? j :=
  parent?_modify fs id _ j fun _ => rfl

@[simp] theorem local?_bindSymbol (fs : Frames) (id : FrameId) (name : String) (entry : Nat)
    (j : FrameId) (x : String) :
    (fs.bindSymbol id name entry).local? j x = fs.local? j x := by
  rw [local?, bindSymbol, get?_modify]
  split
  · cases h : fs.get? j with
    | none => simp [local?, h]
    | some fr => simp [local?, h, Frame.slot?, Frame.bindSymbol]
  · rfl

@[simp] theorem hasLocal_bindSymbol (fs : Frames) (id : FrameId) (name : String) (entry : Nat)
    (j : FrameId) (x : String) :
    (fs.bindSymbol id name entry).hasLocal j x = fs.hasLocal j x := by
  rw [hasLocal_eq, local?_bindSymbol, hasLocal_eq]

@[simp] theorem nextId_setLocal (fs : Frames) (id : FrameId) (name : String) (v : Value) :
    (fs.setLocal id name v).nextId = fs.nextId :=
  nextId_modify ..

@[simp] theorem parent?_setLocal (fs : Frames) (id : FrameId) (name : String) (v : Value)
    (j : FrameId) : (fs.setLocal id name v).parent? j = fs.parent? j :=
  parent?_modify fs id _ j fun fr => by split <;> rfl

theorem local?_setLocal (fs : Frames) (id : FrameId) (name : String) (v : Value) (j : FrameId)
    (x : String) :
    (fs.setLocal id name v).local? j x =
      if j = id ∧ x = name then (fs.local? id name).map ({ · with value := v })
      else fs.local? j x := by
  rw [local?, setLocal, get?_modify]
  by_cases hj : id = j
  · subst hj
    cases hf : fs.get? id with
    | none => simp [local?, hf]
    | some fr =>
      by_cases hx : x = name
      · subst hx
        cases hs : fr.slot? x with
        | none => simp [local?, hf, hs, ← Frame.isSome_slot?]
        | some s => simp [local?, hf, hs, ← Frame.isSome_slot?, Frame.slot?_setValue_self hs]
      · by_cases hb : fr.binds name = true
        · simp [local?, hf, hx, hb, Frame.slot?_setValue_of_ne fr v hx]
        · simp [local?, hf, hx, hb]
  · have hj' : j ≠ id := Ne.symm hj
    simp [hj, hj', local?]

@[simp] theorem hasLocal_setLocal (fs : Frames) (id : FrameId) (name : String) (v : Value)
    (j : FrameId) (x : String) : (fs.setLocal id name v).hasLocal j x = fs.hasLocal j x := by
  rw [hasLocal_eq, local?_setLocal, hasLocal_eq]
  split
  · rename_i h
    rw [Option.isSome_map, h.1, h.2]
  · rfl

/-! ### Opening and closing -/

@[simp] theorem nextId_openIn (fs : Frames) (parent : FrameId) :
    (fs.openIn parent).nextId = fs.nextId + 1 := by
  simp [openIn, nextId]

theorem get?_openIn (fs : Frames) (parent j : FrameId) :
    (fs.openIn parent).get? j =
      if j = fs.nextId then some (.empty (some parent)) else fs.get? j := by
  by_cases hj : j = fs.nextId
  · rw [if_pos hj, hj]
    simp [get?, openIn, nextId]
  · have hj' : j ≠ fs.frames.size := hj
    rw [if_neg hj, get?, openIn, Array.getElem?_push, if_neg hj', get?]

theorem parent?_openIn (fs : Frames) (parent j : FrameId) :
    (fs.openIn parent).parent? j =
      if j = fs.nextId then some (some parent) else fs.parent? j := by
  rw [parent?, get?_openIn]
  split <;> rfl

@[simp] theorem local?_openIn (fs : Frames) (parent j : FrameId) (x : String) :
    (fs.openIn parent).local? j x = fs.local? j x := by
  rw [local?, get?_openIn]
  split
  · rename_i hj
    have hn : fs.get? j = none := by simp [get?, hj, nextId]
    rw [local?, hn]
    rfl
  · rfl

@[simp] theorem hasLocal_openIn (fs : Frames) (parent j : FrameId) (x : String) :
    (fs.openIn parent).hasLocal j x = fs.hasLocal j x := by
  rw [hasLocal_eq, local?_openIn, hasLocal_eq]

@[simp] theorem nextId_close (fs : Frames) (id : FrameId) : (fs.close id).nextId = fs.nextId := by
  simp [close, nextId]

theorem get?_close (fs : Frames) (id j : FrameId) :
    (fs.close id).get? j = if j = id then none else fs.get? j := by
  simp only [get?, close, Array.getElem?_setIfInBounds]
  by_cases hj : j = id
  · subst hj
    by_cases hlt : j < fs.frames.size
    · simp [hlt]
    · simp [hlt]
  · simp [hj, Ne.symm hj]

theorem parent?_close (fs : Frames) (id j : FrameId) :
    (fs.close id).parent? j = if j = id then none else fs.parent? j := by
  rw [parent?, get?_close]
  split <;> rfl

theorem local?_close (fs : Frames) (id j : FrameId) (x : String) :
    (fs.close id).local? j x = if j = id then none else fs.local? j x := by
  rw [local?, get?_close]
  split <;> rfl

theorem hasLocal_close (fs : Frames) (id j : FrameId) (x : String) :
    (fs.close id).hasLocal j x = if j = id then false else fs.hasLocal j x := by
  rw [hasLocal_eq, local?_close, hasLocal_eq]
  split <;> rfl

/-! ### The frames that are there -/

theorem isLive_eq (fs : Frames) (f : FrameId) : fs.isLive f = (fs.parent? f).isSome := by
  simp [isLive, parent?]

theorem local?_initial (f : FrameId) (x : String) : Frames.initial.local? f x = none := by
  cases f with
  | zero => rfl
  | succ f => simp [local?, get?, initial]

theorem isLive_initial (f : FrameId) : Frames.initial.isLive f = true ↔ f = Frames.globalId := by
  cases f with
  | zero => simp [isLive, get?, initial, globalId]
  | succ n => simp [isLive, get?, initial, globalId]

theorem isLive_of_parent?_eq {gs : Frames} (h : ∀ f, gs.parent? f = fs.parent? f) (f : FrameId) :
    gs.isLive f = fs.isLive f := by
  rw [isLive_eq, isLive_eq, h]

theorem parent?_eq_none_iff : fs.parent? f = none ↔ fs.isLive f = false := by
  rw [isLive_eq]
  cases fs.parent? f <;> simp

theorem isLive_of_hasLocal (h : fs.hasLocal f name = true) : fs.isLive f = true := by
  obtain ⟨p, hp⟩ := parent?_of_hasLocal h
  rw [isLive_eq, hp]
  rfl

theorem isLive_of_local? {s : Slot} (h : fs.local? f name = some s) : fs.isLive f = true :=
  isLive_of_hasLocal (hasLocal_of_local? h)

theorem lt_nextId_of_isLive (h : fs.isLive f = true) : f < fs.nextId := by
  rw [isLive_eq, Option.isSome_iff_exists] at h
  obtain ⟨p, hp⟩ := h
  exact lt_nextId_of_parent? hp

theorem isLive_openIn (fs : Frames) (parent j : FrameId) :
    (fs.openIn parent).isLive j = true ↔ fs.isLive j = true ∨ j = fs.nextId := by
  rw [isLive_eq, parent?_openIn, isLive_eq]
  by_cases hj : j = fs.nextId
  · simp [hj]
  · simp [hj]

theorem isLive_close (fs : Frames) (id j : FrameId) :
    (fs.close id).isLive j = true ↔ fs.isLive j = true ∧ j ≠ id := by
  rw [isLive_eq, parent?_close, isLive_eq]
  by_cases hj : j = id
  · simp [hj]
  · simp [hj]

/-! ### Entries of the symbol table -/

theorem symbol?_of_resolve (h : fs.resolve f name = some owner) :
    fs.symbol? f name = fs.entryOf? owner name := by
  rw [symbol?_eq, h]
  rfl

theorem entryOf?_modify (fs : Frames) (id : FrameId) (g : Frame → Frame) (j : FrameId) (x : String)
    (hg : ∀ fr, (g fr).symbols = fr.symbols) :
    (fs.modify id g).entryOf? j x = fs.entryOf? j x := by
  rw [entryOf?, get?_modify, entryOf?]
  split
  · cases fs.get? j with
    | none => rfl
    | some fr => simp [hg]
  · rfl

theorem entryOf?_setLocal (fs : Frames) (id : FrameId) (name : String) (v : Value) (j : FrameId)
    (x : String) : (fs.setLocal id name v).entryOf? j x = fs.entryOf? j x :=
  entryOf?_modify fs id _ j x fun fr => by split <;> rfl

theorem entryOf?_bind (fs : Frames) (id : FrameId) (name : String) (slot : Slot) (j : FrameId)
    (x : String) : (fs.bind id name slot).entryOf? j x = fs.entryOf? j x :=
  entryOf?_modify fs id _ j x fun _ => rfl

theorem entryOf?_bindSymbol (fs : Frames) (id : FrameId) (name : String) (entry : Nat) (j : FrameId)
    (x : String) :
    (fs.bindSymbol id name entry).entryOf? j x =
      if j = id ∧ x = name then (fs.parent? id).map fun _ => entry else fs.entryOf? j x := by
  rw [entryOf?, bindSymbol, get?_modify]
  by_cases hj : id = j
  · subst hj
    cases hf : fs.get? id with
    | none => simp [entryOf?, parent?, hf]
    | some fr =>
      by_cases hx : x = name
      · subst hx
        simp [parent?, hf, Frame.bindSymbol, Table.lookup_put_self]
      · simp [entryOf?, hf, hx, Frame.bindSymbol, Table.lookup_put_of_ne _ _ hx]
  · have hj' : j ≠ id := Ne.symm hj
    simp [hj, hj', entryOf?]

theorem entryOf?_openIn (fs : Frames) (parent j : FrameId) (x : String) :
    (fs.openIn parent).entryOf? j x = fs.entryOf? j x := by
  rw [entryOf?, get?_openIn]
  by_cases hj : j = fs.nextId
  · have hnone : fs.get? j = none := by simp [get?, hj, nextId]
    rw [if_pos hj, entryOf?, hnone]
    rfl
  · rw [if_neg hj, entryOf?]

theorem entryOf?_close (fs : Frames) (id j : FrameId) (x : String) :
    (fs.close id).entryOf? j x = if j = id then none else fs.entryOf? j x := by
  rw [entryOf?, get?_close]
  split <;> rfl

/-- The numbers of entries that the frames keep are all below `n`. -/
def EntriesBelow (fs : Frames) (n : Nat) : Prop :=
  ∀ f x entry, fs.entryOf? f x = some entry → entry < n

namespace EntriesBelow

variable {n : Nat}

theorem initial : Frames.initial.EntriesBelow n := by
  intro f x entry h
  cases f with
  | zero => cases h
  | succ f => simp [entryOf?, get?, Frames.initial] at h

theorem mono {k : Nat} (h : fs.EntriesBelow n) (hk : n ≤ k) : fs.EntriesBelow k :=
  fun f x entry he => Nat.lt_of_lt_of_le (h f x entry he) hk

theorem setLocal (h : fs.EntriesBelow n) (id : FrameId) (x : String) (v : Value) :
    (fs.setLocal id x v).EntriesBelow n := by
  intro g y entry he
  rw [entryOf?_setLocal] at he
  exact h g y entry he

theorem openIn (h : fs.EntriesBelow n) (parent : FrameId) :
    (fs.openIn parent).EntriesBelow n := by
  intro g y entry he
  rw [entryOf?_openIn] at he
  exact h g y entry he

theorem close (h : fs.EntriesBelow n) (id : FrameId) : (fs.close id).EntriesBelow n := by
  intro g y entry he
  rw [entryOf?_close] at he
  by_cases hg : g = id
  · rw [if_pos hg] at he
    cases he
  · rw [if_neg hg] at he
    exact h g y entry he

theorem bind (h : fs.EntriesBelow n) (id : FrameId) (x : String) (slot : Slot) {entry : Nat}
    (hentry : entry < n) : ((fs.bind id x slot).bindSymbol id x entry).EntriesBelow n := by
  intro g y entry' he
  rw [entryOf?_bindSymbol] at he
  by_cases hgy : g = id ∧ y = x
  · rw [if_pos hgy] at he
    obtain ⟨_, _, rfl⟩ := Option.map_eq_some_iff.mp he
    exact hentry
  · rw [if_neg hgy, entryOf?_bind] at he
    exact h g y entry' he

end EntriesBelow

end Frames
end Treewalk
