/-
# Places keep every discipline

The actions on variables and elements, each with what it needs of the
machine it starts from and what it hands on. Only `store`, `write` and
`declare` change the memory, each by one of the changes a discipline speaks
of.

Key definitions: `Memory.Reads`, `Memory.Takes`, `Discipline.At`.
Key theorems: `Discipline.keeps_lookup`, `Discipline.keeps_element`,
`Discipline.keeps_assignTo`, `Discipline.keeps_declare`.
-/
import Treewalk.Proofs.Upkeep.Action

namespace Treewalk

/-! ### What operations make of values -/

namespace Value

theorem isPlain_apply {op : BinaryOp} {v w u : Value} (h : v.apply op w = .ok u) :
    u.isPlain = true := by
  have hnum : ∀ op a b, (numberArith op a b).isPlain = true := fun op a b => by
    unfold numberArith
    split
    · rfl
    · split <;> rfl
  have hrem : ∀ v w, remainder v w = .ok u → u.isPlain = true := fun v w h => by
    unfold remainder at h
    split at h
    · cases h
      split <;> rfl
    · cases h
  have htimes : ∀ s n, times s n = .ok u → u.isPlain = true := fun s n h => by
    unfold times at h
    split at h
    · cases h
    · cases h; rfl
  have harith : ∀ op v w, arith op v w = .ok u → u.isPlain = true := fun op v w h => by
    unfold arith at h
    split at h
    · cases h; rfl
    · exact htimes _ _ h
    · exact htimes _ _ h
    · cases h
    · cases h
    · cases h
    · split at h
      · cases h; exact hnum _ _ _
      · cases h
  unfold apply at h
  split at h
  case h_7 =>
    split at h
    · cases h; rfl
    · exact hrem _ _ h
  case h_8 =>
    split at h
    · cases h; rfl
    · exact harith _ _ _ h
  all_goals cases h; rfl

theorem isPlain_negate (v : Value) : v.negate.isPlain = true := by cases v <;> rfl

theorem keepRune_eq (v w : Value) : v.keepRune w = w ∨ (v.keepRune w).isPlain = true := by
  unfold keepRune
  split
  · exact .inr rfl
  · exact .inl rfl

end Value

theorem Ty.convert_eq (t : Ty) (v : Value) : t.convert v = v ∨ (t.convert v).isPlain = true := by
  unfold Ty.convert
  split
  · exact .inr rfl
  · exact .inr rfl
  · exact .inl rfl

theorem Kind.coerce_eq {slot : Kind} {v w : Value} (h : slot.coerce v = some w) :
    w = v ∨ w.isPlain = true := by
  unfold Kind.coerce at h
  split at h
  · cases h; exact .inr rfl
  · cases h; exact .inr rfl
  · cases h; exact .inl rfl
  · split at h
    · cases h; exact .inl rfl
    · cases h

theorem Heap.mem_of_read {h : Heap} {id : StorageId} {index : Int} {v : Value}
    (hr : h.read id index = .ok v) : v ∈ (h.get id).items := by
  unfold Heap.read Storage.read Storage.position at hr
  split at hr
  · rename_i hb
    cases hr
    have hlt : index.toNat < (h.get id).items.size := by omega
    simp [Array.getD, hlt]
  · cases hr

theorem Storage.lt_of_position {s : Storage} {index : Int} {i : Nat}
    (h : s.position index = .ok i) : i < s.items.size := by
  unfold Storage.position at h
  split at h
  · cases h; omega
  · cases h

/-! ### What places hold and take -/

namespace Eval

variable {name : String} {frame : FrameId} {p : Place} {pos : Position} {m m' : Machine} {v : Value}

theorem lookup_ok (h : (lookup name frame pos).run m = .ok v m') :
    m' = m ∧ m.frames.value? frame name = some v := by
  obtain ⟨_, _, ⟨⟩, h⟩ := run_bind_ok.mp h
  cases hv : m.frames.value? frame name with
  | none => rw [hv] at h; cases h
  | some w => rw [hv] at h; cases h; exact ⟨rfl, rfl⟩

end Eval

namespace Memory

/-- The place holds the value. -/
def Reads (μ : Memory) : Place → Value → Prop
  | .var x, v => μ.frames.value? x.owner x.name = some v
  | .element id index _, v => μ.heap.read id index = .ok v

/-- The kind an assignment to a place has to keep. -/
def slotKind (μ : Memory) (current : Value) : Place → Kind
  | .var x => (μ.frames.kind? x.owner x.name).getD current.kind
  | .element id _ _ => (μ.heap.get id).elem.kind

/-- The value may be written over what the place holds. -/
def Takes (μ : Memory) : Place → Value → Prop
  | .var x, v => ∀ owner s, μ.frames.resolve x.owner x.name = some owner →
    μ.frames.local? owner x.name = some s → s.Takes v
  | .element id index _, v => ∀ i, (μ.heap.get id).position index = .ok i →
    (μ.heap.get id).TakesAt i v

variable {μ : Memory} {p : Place} {v w : Value}

theorem Reads.takes (h : μ.Reads p w) (hk : v.kind = w.kind) : μ.Takes p v := by
  cases p with
  | var x =>
    intro owner s ho hs
    obtain ⟨_, _, ho', hs', hv⟩ := Frames.local?_of_value? h
    cases ho.symm.trans ho'
    cases hs.symm.trans hs'
    exact .inr (hk.trans (congrArg Value.kind hv).symm)
  | element id index holder =>
    intro i hi
    refine .inr ⟨w, ?_, hk⟩
    have hr : (μ.heap.get id).read index = .ok w := h
    have hlt := Storage.lt_of_position hi
    rw [Storage.read, hi] at hr
    cases hr
    simp [Array.getD, hlt]

theorem takes_of_coerce {current : Value} (hr : μ.Reads p current)
    (h : (μ.slotKind current p).coerce v = some w) : μ.Takes p w := by
  cases p with
  | var x =>
    intro owner s ho hs
    obtain ⟨_, _, ho', hs', rfl⟩ := Frames.local?_of_value? hr
    cases ho.symm.trans ho'
    cases hs.symm.trans hs'
    exact Slot.takes_of_coerce (Frames.keptKind_eq ho hs) h
  | element id index holder => exact fun _ _ => .inl (Ty.fits_of_coerce h)

end Memory

namespace Eval

variable {p : Place} {pos : Position} {m m' : Machine} {v : Value}

theorem read_ok (h : (read p pos).run m = .ok v m') : m' = m ∧ m.memory.Reads p v := by
  cases p with
  | var x => exact lookup_ok h
  | element id index holder =>
    obtain ⟨_, _, ⟨⟩, h⟩ := run_bind_ok.mp h
    cases hv : m.heap.read id index with
    | error e => rw [hv] at h; cases h
    | ok w => rw [hv] at h; cases h; exact ⟨rfl, hv⟩

theorem slotKind_ok {kind : Kind} (h : (slotKind p v).run m = .ok kind m') :
    m' = m ∧ kind = m.memory.slotKind v p := by
  obtain ⟨_, _, ⟨⟩, h⟩ := run_bind_ok.mp h
  cases p <;> cases h <;> exact ⟨rfl, rfl⟩

end Eval

namespace Discipline

variable {D : Discipline} {R : Regime} {k : Mode} {m : Machine} {pos : Position}

theorem val_of_eq_or_plain {μ : Memory} {v w : Value} (h : w = v ∨ w.isPlain = true)
    (hv : D.Val μ v) : D.Val μ w := by
  rcases h with rfl | h
  · exact hv
  · exact D.val_plain h

/-! ### Reading -/

theorem keeps_lookup {name : String} {frame : FrameId} (h : D.Ready R m frame) :
    D.Keeps R k (Eval.lookup name frame pos) m D.GivesOne := by
  refine keeps_get_bind h.inv (keeps_require h.inv fun v hv => ?_)
  obtain ⟨owner, ho⟩ := Frames.resolve_of_value? hv
  rw [Frames.value?_of_resolve ho] at hv
  exact D.val_read h.inv (D.sees_name (μ := m.memory) h.inv h.frm ho) hv

theorem keeps_lookupVar {x : Variable} (h : D.Inv m.memory) (hx : D.Sees m.memory x) :
    D.Keeps R k (Eval.lookup x.name x.owner pos) m D.GivesOne :=
  keeps_get_bind h (keeps_require h fun _ hv => D.val_read h hx hv)

theorem keeps_writableOwner {name : String} {frame : FrameId} (h : D.Ready R m frame) :
    D.Keeps R k (Eval.writableOwner name frame pos) m
      fun owner m' => D.Writes m'.memory ⟨owner, name⟩ := by
  unfold Eval.writableOwner
  refine keeps_get_bind h.inv ?_
  refine (keeps_require (P := fun owner m' => m' = m ∧ m.frames.resolve frame name = some owner)
    h.inv fun _ ho => ⟨rfl, ho⟩).bind ?_
  rintro owner m' - ⟨rfl, ho⟩
  refine keeps_ifFault h.inv fun hc => ?_
  have hc' : m'.frames.isConst owner name = false := by simpa using hc
  exact keeps_pure h.inv (D.writes_name (μ := m'.memory) h.inv h.frm ho hc')

theorem keeps_follow {label : String} {v : Value} (h : D.Inv m.memory) (hv : D.Val m.memory v) :
    D.Keeps R k (Eval.follow label v pos) m fun x m' => D.Writes m'.memory x := by
  unfold Eval.follow
  cases v with
  | pointer frame name =>
    refine keeps_get_bind h ?_
    by_cases hl : m.frames.hasLocal frame name = true
    · simp only [if_pos hl]
      exact keeps_pure h (D.writes_pointer h hv hl)
    · simp only [if_neg hl]
      exact keeps_abort h
  | _ => exact keeps_fault h

theorem keeps_arrayBehind {x : Variable} (h : D.Inv m.memory) (hx : D.Sees m.memory x) :
    D.Keeps R k (Eval.arrayBehind x pos) m fun r m' => D.Val m'.memory (.array r.1) := by
  unfold Eval.arrayBehind
  refine (keeps_lookupVar h hx).bind fun v m₁ hl₁ hv => ?_
  cases v with
  | array id => exact keeps_pure hl₁.inv hv
  | pointer frame name =>
    refine (keeps_follow hl₁.inv hv).bind fun y m₂ hl₂ hy => ?_
    refine (keeps_lookupVar hl₂.inv (D.sees_of_writes hy)).bind fun w m₃ hl₃ hw => ?_
    cases w with
    | array id => exact keeps_pure hl₃.inv hw
    | _ => exact keeps_fault hl₃.inv
  | _ => exact keeps_fault hl₁.inv

/-- A path of indices stays within what may be held. -/
theorem val_walk {μ : Memory} (h : D.Inv μ) : ∀ (path : List Int) (id : StorageId)
    (r : StorageId × Int), D.Val μ (.array id) → μ.heap.walk id path = .ok r →
    D.Val μ (.array r.1)
  | [], _, _, _, hr => by simp [Heap.walk] at hr
  | [last], id, r, hv, hr => by
    rw [Heap.walk] at hr
    cases hl : μ.heap.read id last with
    | error e => rw [hl] at hr; cases hr
    | ok v => rw [hl] at hr; cases hr; exact hv
  | index :: next :: rest, id, r, hv, hr => by
    rw [Heap.walk] at hr
    · cases hl : μ.heap.read id index with
      | error e => rw [hl] at hr; cases hr
      | ok v =>
        rw [hl] at hr
        have hi := D.val_item h hv (Heap.mem_of_read hl)
        cases v with
        | array inner => exact val_walk h (next :: rest) inner r hi hr
        | _ => cases hr
    · simp

/-- A place that may be written to. -/
def At (D : Discipline) (μ : Memory) : Place → Prop
  | .var x => D.Writes μ x
  | .element id _ _ => D.Val μ (.array id)

theorem At.later {p : Place} {m' : Machine} (h : D.At m.memory p) (hl : D.Leads m m') :
    D.At m'.memory p := by
  cases p with
  | var x => exact D.writes_later hl.later h
  | element id i holder => exact hl.val h

theorem keeps_element {x : Variable} {path : List Int} (h : D.Inv m.memory)
    (hx : D.Sees m.memory x) :
    D.Keeps R k (Eval.element x path pos) m fun p m' => D.At m'.memory p := by
  unfold Eval.element
  refine (keeps_arrayBehind h hx).bind fun r m₁ hl₁ hr => ?_
  obtain ⟨id, holder⟩ := r
  refine keeps_get_bind hl₁.inv ?_
  refine (keeps_lift (P := fun r m' => D.Val m'.memory (.array r.1)) hl₁.inv fun r hw => ?_).bind
    fun r m₂ hl₂ hv => ?_
  · exact val_walk hl₁.inv path id r hr hw
  · exact keeps_pure hl₂.inv hv

theorem keeps_read {p : Place} (h : D.Inv m.memory) (hp : D.At m.memory p) :
    D.Keeps R k (Eval.read p pos) m D.GivesOne := by
  unfold Eval.read
  cases p with
  | var x => exact keeps_lookupVar h (D.sees_of_writes hp)
  | element id i holder =>
    exact keeps_get_bind h (keeps_lift h fun v hv => D.val_item h hp (Heap.mem_of_read hv))

theorem keeps_slotKind {p : Place} {v : Value} (h : D.Inv m.memory) :
    D.Keeps R k (Eval.slotKind p v) m fun _ _ => True := by
  unfold Eval.slotKind
  refine keeps_get_bind h ?_
  cases p <;> exact keeps_pure h trivial

/-! ### Writing -/

theorem refresh_memory (m : Machine) (x : Variable) : (m.refresh x).memory = m.memory := by
  unfold Machine.refresh
  split <;> rfl

theorem settled_refresh (m : Machine) (x : Variable) : m.Settled (m.refresh x) := by
  unfold Machine.refresh
  split
  · exact .of_eq rfl rfl rfl (Nat.le_refl _) rfl
  · exact .refl m

/-- A change of the memory, and the renewal of a symbol after it. -/
theorem leads_refresh {m' : Machine} {x : Variable} (hs : m.Settled m') (h : D.Inv m'.memory)
    (hl : D.Later m.memory m'.memory) : D.Leads m (m'.refresh x) := by
  refine ⟨hs.trans (settled_refresh m' x), ?_, ?_⟩
  · rw [refresh_memory]; exact h
  · rw [refresh_memory]; exact hl

theorem keeps_store {x : Variable} {v : Value} (h : D.Inv m.memory) (hx : D.Writes m.memory x)
    (hv : D.Val m.memory v) (ht : D.combines ∨ m.memory.Takes (.var x) v) :
    D.Keeps R k (Eval.store x v pos) m fun _ _ => True := by
  unfold Eval.store
  refine keeps_get_bind h ?_
  refine (keeps_require (P := fun owner m' => m' = m ∧ m.frames.resolve x.owner x.name = some owner)
    h fun _ ho => ⟨rfl, ho⟩).bind ?_
  rintro owner m' - ⟨rfl, ho⟩
  obtain ⟨h1, h2⟩ := D.set (μ := m'.memory) h hx hv ho (ht.imp_right fun ht _ hs => ht owner _ ho hs)
  have hmem : { m' with frames := (m'.frames.assign x.owner x.name v).2 }.memory =
      m'.memory.set owner x.name v := by
    rw [Frames.assign_of_resolve ho]
    rfl
  rw [← hmem] at h1 h2
  refine keeps_change rfl (fun _ he => he)
    (leads_refresh ⟨rfl, rfl, rfl, Nat.le_refl _, ?_⟩ h1 h2) h ?_ (by simp [Event.values])
    (fun he => nomatch he) fun _ => trivial
  · refine Frames.isLive_of_parent?_eq fun _ => ?_
    rw [Frames.assign_of_resolve ho]
    exact Frames.parent?_setLocal ..
  · have hpast := D.past_set (μ := m'.memory) v h hx ho
    rw [← hmem] at hpast
    refine hpast.imp (fun hp => ?_) fun hx => ⟨_, rfl, ?_⟩
    · rw [refresh_memory]
      exact hp
    · rw [Moment.memory, refresh_memory]
      exact hx

theorem keeps_checkAcyclic {id : StorageId} {v : Value} {holder : Variable} (h : D.Inv m.memory) :
    D.Keeps R k (Eval.checkAcyclic id v holder pos) m fun _ m' => m' = m ∧
      ∀ stored, v = .array stored → stored ≠ id ∧ m.heap.holds stored id = false := by
  unfold Eval.checkAcyclic
  cases v with
  | array stored =>
    refine keeps_get_bind h ?_
    by_cases hc : stored = id ∨ m.heap.holds stored id = true
    · simp only [if_pos hc]
      exact keeps_fault h
    · simp only [if_neg hc]
      refine keeps_pure h ⟨rfl, fun s hs => ?_⟩
      cases hs
      obtain ⟨h1, h2⟩ := not_or.mp hc
      exact ⟨h1, by simpa using h2⟩
  | _ => exact keeps_pure h ⟨rfl, fun s hs => by cases hs⟩

theorem keeps_write {p : Place} {v : Value} (h : D.Inv m.memory) (hp : D.At m.memory p)
    (hv : D.Val m.memory v) (ht : D.combines ∨ m.memory.Takes p v) :
    D.Keeps R k (Eval.write p v pos) m fun _ _ => True := by
  unfold Eval.write
  cases p with
  | var x => exact keeps_store h hp hv ht
  | element id index holder =>
    refine (keeps_checkAcyclic h).bind ?_
    rintro _ m₁ - ⟨rfl, hc⟩
    refine keeps_get_bind h ?_
    refine (keeps_lift (P := fun i m' => m' = m₁ ∧ (m₁.heap.get id).position index = .ok i) h
      fun i hi => ⟨rfl, hi⟩).bind ?_
    rintro i m' - ⟨rfl, hi⟩
    obtain ⟨h1, h2⟩ := D.put (μ := m'.memory) h hp hv (Storage.lt_of_position hi) hc
      (ht.imp_right fun ht => ht i hi)
    refine keeps_modify (leads_refresh (.of_eq rfl rfl rfl (Nat.le_refl _) rfl) h1 h2) h ?_ trivial
    rw [refresh_memory]
    exact D.past_heap h h2

theorem keeps_assignTo {p : Place} {target : String} {op : AssignOp} {v : Value}
    (h : D.Inv m.memory) (hp : D.At m.memory p) (hv : D.Val m.memory v) :
    D.Keeps R k (Eval.assignTo p target op v pos) m fun _ _ => True := by
  unfold Eval.assignTo
  refine ((keeps_read h hp).and fun _ _ hr => Eval.read_ok hr).bind ?_
  rintro current m₁ hl₁ ⟨-, rfl, hread⟩
  cases op with
  | plain =>
    refine ((keeps_slotKind h).and fun _ _ hr => Eval.slotKind_ok hr).bind ?_
    rintro slot m₂ - ⟨-, rfl, rfl⟩
    cases hw : (m₂.memory.slotKind current p).coerce v with
    | some w =>
      exact keeps_write h hp (val_of_eq_or_plain (Kind.coerce_eq hw) hv)
        (.inr (Memory.takes_of_coerce hread hw))
    | none => exact keeps_get_bind h (keeps_fault h)
  | compound op =>
    refine (keeps_lift (P := fun w m' => m' = m₁ ∧ w.isPlain = true) h
      fun w hw => ⟨rfl, Value.isPlain_apply hw⟩).bind ?_
    rintro w m' - ⟨rfl, hw⟩
    refine (keeps_note (P := fun _ m₂ => m₂ = m' ∧ D.combines) h (by simp [Event.values])
      (by simp) fun hc => ⟨rfl, hc rfl⟩).bind ?_
    rintro _ m₂ - ⟨rfl, hcomb⟩
    exact keeps_write h hp (val_of_eq_or_plain (Value.keepRune_eq current w) (D.val_plain hw))
      (.inl hcomb)

theorem keeps_stepBy {p : Place} {op : StepOp} (h : D.Inv m.memory) (hp : D.At m.memory p) :
    D.Keeps R k (Eval.stepBy p op pos) m fun _ _ => True := by
  unfold Eval.stepBy
  refine ((keeps_read h hp).and fun _ _ hr => Eval.read_ok hr).bind ?_
  rintro v m₁ - ⟨-, rfl, hread⟩
  cases v with
  | int n => exact keeps_write h hp (D.val_plain rfl) (.inr (hread.takes rfl))
  | rune n => exact keeps_write h hp (D.val_plain rfl) (.inr (hread.takes rfl))
  | _ => exact keeps_fault h

/-- A declaration of a name that the frame does not bind, or of a parameter over no constant. -/
theorem keeps_declare {frame : FrameId} {name : String} {declared : Option Ty} {v : Value}
    {role : Role} (h : D.Ready R m frame) (ho : D.Own m.memory frame role) (hv : D.Val m.memory v)
    (hk : ∀ t, declared = some t → t.kind.Fits v)
    (hfree : ∀ {s}, m.frames.local? frame name = some s → role = .parameter ∧ s.constant = false) :
    D.Keeps R k (Eval.declare frame name declared v pos role) m fun _ _ => True := by
  rw [Eval.declare_eq]
  refine keeps_get_bind h.inv ?_
  refine (keeps_modifyGet (P := fun _ m' => m'.memory = m.memory) ?_ h.inv (D.past_refl _) rfl).bind
    fun entry m₁ hl hm => ?_
  · exact .of_memory_eq h.inv
      (.of_eq (SymbolTable.scopes_declare ..) rfl rfl (Nat.le_refl _) rfl) rfl
  have hadm : m₁.memory.Admits frame name ⟨v, (declared.map Ty.kind).getD v.kind, role = .constant⟩
      role := by
    refine ⟨?_, by simp, fun {s} hs => ?_⟩
    · cases declared with
      | none => exact .inr rfl
      | some t => exact hk t rfl
    · rw [hm] at hs
      exact hfree hs
  have ho₁ := D.own_later hl.later ho
  obtain ⟨h1, h2⟩ : D.Inv (m₁.memory.bind frame name _ entry) ∧
      D.Later m₁.memory (m₁.memory.bind frame name _ entry) :=
    D.bind hl.inv (h.of_leads hl).frm ho₁ (hl.val hv) hadm
  refine keeps_change rfl (fun _ he => he) ⟨⟨rfl, rfl, rfl, Nat.le_refl _, ?_⟩, h1, h2⟩ hl.inv ?_
    (by simp [Event.values]) (fun he => ?_) fun _ => trivial
  · refine Frames.isLive_of_parent?_eq fun f => ?_
    rw [Frames.parent?_bindSymbol, Frames.parent?_bind]
  · exact (D.past_bind entry hl.inv (hl.val hv) hadm).imp_right fun hx => ⟨_, rfl, hx⟩
  · cases he
    refine ⟨D.own_later h2 ho₁, D.frm_later h2 (h.of_leads hl).frm, fun hlive => ?_⟩
    exact ⟨_, Memory.local?_bind_self (μ := m₁.memory) hlive, hadm.constant⟩

end Discipline

end Treewalk
