/-
# Arrays keep their declared size

The length of an array is read off its declared size, and an index is checked
against the number of its elements. The two agree because every storage is
made with as many elements as it declares, be it a zero value, a literal or a
copy, and because a write neither adds an element nor takes one away. For the
same reason what is known to be an element when a target has been looked for
is still one when the right side has been evaluated, whatever that did.

Sizes are integers of the language, so a length is never cut down to one.

A literal drops the elements beyond its size before it fills up the rest, so
filling up never finds too many (`Eval.run_newArray`).

Key definitions: `Storage.Exact`, `Heap.KeepsTypes`, `Discipline.sized`,
`Heap.Measures`, `Eval.NeverFaults`.
Key theorems: `Discipline.sized_of_session`, `Heap.position_of_walk`,
`Eval.neverFaults_assignTo`, `arrays_keep_their_size`.
-/
import Treewalk.Proofs.Writing

namespace Treewalk

/-! ### Storages that have what they declare -/

/-- A storage has as many elements as it declares, and an integer says how many. -/
structure Storage.Exact (s : Storage) : Prop where
  count : s.items.size = s.size
  bound : s.size ≤ maxSize

namespace Heap

variable {h g k : Heap} {id : StorageId} {s : Storage}

/-- The storages of the first heap are there in the second, with the same sizes and element
types. -/
def KeepsTypes (h g : Heap) : Prop :=
  ∀ id s, h.get? id = some s → ∃ s', g.get? id = some s' ∧ s'.type = s.type

theorem KeepsTypes.refl (h : Heap) : h.KeepsTypes h := fun _ s hs => ⟨s, hs, rfl⟩

theorem KeepsTypes.trans (hg : h.KeepsTypes g) (hk : g.KeepsTypes k) : h.KeepsTypes k := by
  intro id s hs
  obtain ⟨s₁, hs₁, h₁⟩ := hg id s hs
  obtain ⟨s₂, hs₂, h₂⟩ := hk id s₁ hs₁
  exact ⟨s₂, hs₂, h₂.trans h₁⟩

theorem keepsTypes_put (h : Heap) (id : StorageId) (i : Nat) (v : Value) :
    h.KeepsTypes (h.put id i v) := by
  intro a s hs
  rw [get?_put]
  by_cases ha : id = a
  · rw [if_pos ha, hs]
    exact ⟨_, rfl, rfl⟩
  · rw [if_neg ha]
    exact ⟨s, hs, rfl⟩

theorem keepsTypes_alloc (h : Heap) (s : Storage) : h.KeepsTypes (h.alloc s).2 := by
  intro a t ht
  exact ⟨t, (h.get?_alloc_of_lt s (lt_size_of_get? ht)).trans ht, rfl⟩

theorem exact_empty (id : StorageId) : (Heap.empty.get id).Exact := ⟨rfl, Nat.zero_le _⟩

/-- A storage that is not there counts as one without elements. -/
theorem exact_get (hh : ∀ id s, h.get? id = some s → s.Exact) (id : StorageId) :
    (h.get id).Exact := by
  rcases hs : h.get? id with _ | s
  · rw [get, hs]
    exact exact_empty id
  · rw [get_of_get? hs]
    exact hh id s hs

theorem exact_put (hh : ∀ id, (h.get id).Exact) (id : StorageId) (i : Nat) (v : Value)
    (a : StorageId) : ((h.put id i v).get a).Exact := by
  refine exact_get (fun b s hs => ?_) a
  have hsize : s.size = (h.get b).size ∧ s.items.size = (h.get b).items.size := by
    rw [get?_put] at hs
    by_cases hb : id = b
    · rw [if_pos hb] at hs
      obtain ⟨t, ht, rfl⟩ := Option.map_eq_some_iff.mp hs
      rw [get_of_get? ht]
      exact ⟨rfl, Array.size_setIfInBounds⟩
    · rw [if_neg hb] at hs
      rw [get_of_get? hs]
      exact ⟨rfl, rfl⟩
  have hexact := hh b
  exact ⟨by rw [hsize.1, hsize.2, hexact.count], by rw [hsize.1]; exact hexact.bound⟩

theorem exact_alloc (hh : ∀ id, (h.get id).Exact) (hs : s.Exact) (a : StorageId) :
    ((h.alloc s).2.get a).Exact := by
  refine exact_get (fun b t ht => ?_) a
  have hlt := lt_size_of_get? ht
  rw [size_alloc] at hlt
  rcases Nat.lt_or_ge b h.size with hb | hb
  · rw [get?_alloc_of_lt h s hb] at ht
    rw [← get_of_get? ht]
    exact hh b
  · have hself : b = (h.alloc s).1 := Nat.le_antisymm (Nat.le_of_lt_succ hlt) hb
    rw [hself, get?_alloc_self] at ht
    cases ht
    exact hs

end Heap

/-- What evaluation keeps so that sizes stay: a storage is made with as many elements as it
declares. -/
def Discipline.sized : Discipline where
  Inv μ := ∀ id, (μ.heap.get id).Exact
  Later μ ν := μ.heap.KeepsTypes ν.heap
  Fits size count := count = size ∧ size ≤ maxSize
  Past μ ν := μ.heap.KeepsTypes ν.heap
  refl μ := .refl μ.heap
  trans := .trans
  fits_self hn := ⟨rfl, hn⟩
  fits_get {_ id} h _ := ⟨(h id).count, (h id).bound⟩
  set {μ _ _ _} h _ _ _ _ := ⟨h, .refl μ.heap⟩
  bind {μ _ _ _ _ _} h _ _ _ _ := ⟨h, .refl μ.heap⟩
  put {μ id i v} h _ _ _ _ _ := ⟨Heap.exact_put h id i v, Heap.keepsTypes_put μ.heap id i v⟩
  alloc {μ s} h _ hs _ :=
    ⟨Heap.exact_alloc h ⟨hs.1, hs.2⟩, Heap.keepsTypes_alloc μ.heap s, trivial⟩
  openIn h _ := ⟨h, trivial, fun _ _ => trivial⟩
  close _ hl h := ⟨h, hl, fun _ _ => trivial⟩
  past_refl μ := .refl μ.heap
  past_trans := .trans
  past_set {μ _ _} _ _ _ _ := .inl (.refl μ.heap)
  past_bind {μ _ _ _ _} _ _ _ _ := .inl (.refl μ.heap)
  past_heap _ hl := hl
  past_openIn {μ} _ _ := .refl μ.heap
  past_close {μ} _ _ := .refl μ.heap

/-- **Storages are exact at every moment of a session,** and keep their types from one moment to
the next. -/
theorem Discipline.sized_of_session {config : Config} {Q : Program → Prop} {es : List Moment}
    {m : Machine} (h : Machine.Session config Q es m) :
    (∀ e ∈ es, ∀ id, (e.machine.heap.get id).Exact) ∧
      es.Pairwise fun e e' => e.machine.heap.KeepsTypes e'.machine.heap := by
  have hloose : sized.Loose := {}
  have hrests : sized.Rests False .initial := rests_initial Heap.exact_empty trivial
  have hf := session_follows (fun _ _ hf => False.elim hf) h hrests
  refine ⟨fun e he => ((hf.of_loose hloose).1 e he).inv, hf.pairwise hloose ?_⟩
  rintro e ⟨_, -, hx⟩
  exact hx

/-! ### Lengths and indices -/

theorem Storage.position_ok_iff {s : Storage} {index : Int} :
    (∃ i, s.position index = .ok i) ↔ 0 ≤ index ∧ index < s.items.size := by
  unfold Storage.position
  by_cases hb : 0 ≤ index ∧ index < s.items.size
  · rw [if_pos hb]
    exact ⟨fun _ => hb, fun _ => ⟨_, rfl⟩⟩
  · rw [if_neg hb]
    refine ⟨?_, fun h => absurd h hb⟩
    rintro ⟨_, ⟨⟩⟩

namespace Heap

variable {h : Heap} {id root : StorageId} {s : Storage} {last : Int}

/-- What `len` gives is the number of elements of a storage and its declared size, and an index is
accepted, to read and to write, exactly if it lies below it. -/
structure Measures (h : Heap) (id : StorageId) (s : Storage) : Prop where
  count : s.items.size = s.size
  len : ∃ n : Int32, n.toInt = s.items.size ∧
    (∀ time out, Builtin.len.run time h [.array id] out = .ok (.int n, out)) ∧
    ∀ index, ((∃ v, h.read id index = .ok v) ↔ 0 ≤ index ∧ index < n.toInt) ∧
      ∀ v, (∃ g, h.write id index v = .ok g) ↔ 0 ≤ index ∧ index < n.toInt

theorem read_ok_iff {index : Int} :
    (∃ v, h.read id index = .ok v) ↔ ∃ i, (h.get id).position index = .ok i :=
  ⟨fun ⟨_, hv⟩ => position_of_read hv, fun ⟨_, hi⟩ => ⟨_, read_of_position hi⟩⟩

theorem write_ok_iff {index : Int} {v : Value} :
    (∃ g, h.write id index v = .ok g) ↔ ∃ i, (h.get id).position index = .ok i := by
  unfold write
  cases (h.get id).position index with
  | ok i => exact ⟨fun _ => ⟨i, rfl⟩, fun _ => ⟨_, rfl⟩⟩
  | error e =>
    constructor
    · rintro ⟨_, ⟨⟩⟩
    · rintro ⟨_, ⟨⟩⟩

theorem measures_of_exact (hs : h.get? id = some s) (he : s.Exact) : h.Measures id s := by
  have hget := get_of_get? hs
  have hn : (Builtin.clamp s.size).toInt = s.items.size := by
    rw [Builtin.toInt_clamp he.bound, he.count]
  refine ⟨he.count, Builtin.clamp s.size, hn, fun time out => ?_, fun index => ⟨?_, fun v => ?_⟩⟩
  · rw [← hget]
    rfl
  · rw [read_ok_iff, Storage.position_ok_iff, hget, hn]
  · rw [write_ok_iff, Storage.position_ok_iff, hget, hn]

/-- The element at the end of a path has been found to be there. -/
theorem position_of_walk : ∀ {path : List Int} {root : StorageId},
    h.walk root path = .ok (id, last) → ∃ i, (h.get id).position last = .ok i
  | [], _, hw => by cases hw
  | [index], root, hw => by
    obtain ⟨hr, v, hread⟩ := walk_last hw
    cases hr
    exact position_of_read hread
  | index :: next :: rest, root, hw => by
    obtain ⟨inner, -, hrest⟩ := walk_next hw
    exact position_of_walk hrest

/-- A storage takes the same indices as long as it keeps its type and is exact. -/
theorem KeepsTypes.position {g : Heap} {index : Int} {i : Nat} (hk : h.KeepsTypes g)
    (hh : (h.get id).Exact) (hg : (g.get id).Exact) (hp : (h.get id).position index = .ok i) :
    ∃ j, (g.get id).position index = .ok j := by
  have hlt : id < h.size := by
    by_contra hn
    have hi := Storage.lt_of_position hp
    rw [get_of_size_le (Nat.le_of_not_lt hn)] at hi
    exact Nat.not_lt_zero _ hi
  obtain ⟨s', hs', ht⟩ := hk id _ (get?_of_lt hlt)
  rw [← get_of_get? hs'] at ht
  have hsize : (g.get id).size = (h.get id).size := by
    unfold Storage.type at ht
    injection ht
  have hitems : (g.get id).items.size = (h.get id).items.size := by
    rw [hg.count, hsize, hh.count]
  refine Storage.position_ok_iff.mpr ?_
  rw [hitems]
  exact Storage.position_ok_iff.mp ⟨i, hp⟩

end Heap

/-! ### Faults that do not occur -/

/-- The operators have faults of their own. -/
theorem Value.apply_ne_outOfRange {op : BinaryOp} {v w : Value} {index : Int} {length : Nat} :
    v.apply op w ≠ .error (.outOfRange index length) := by
  have htimes : ∀ s n, Value.times s n ≠ .error (.outOfRange index length) := by
    intro s n
    unfold Value.times
    split <;> rintro ⟨⟩
  have harith : ∀ op, Value.arith op v w ≠ .error (.outOfRange index length) := by
    intro op
    unfold Value.arith
    split
    case h_2 => exact htimes _ _
    case h_3 => exact htimes _ _
    case h_7 => split <;> rintro ⟨⟩
    all_goals rintro ⟨⟩
  have hrem : Value.remainder v w ≠ .error (.outOfRange index length) := by
    unfold Value.remainder
    split <;> rintro ⟨⟩
  unfold Value.apply
  split
  case h_7 =>
    split
    · rintro ⟨⟩
    · exact hrem
  case h_8 =>
    split
    · rintro ⟨⟩
    · exact harith _
  all_goals rintro ⟨⟩

namespace Eval

variable {α β : Type} {bad : Fault → Prop} {x : Eval α} {pos : Position} {ctx : Context}
  {frame : FrameId}

/-- The action does not end in a fault that is `bad`. -/
def NeverFaults (bad : Fault → Prop) (x : Eval α) : Prop :=
  ∀ ⦃m f pos m'⦄, x.run m = .error (.fault f pos) m' → ¬ bad f

theorem Faultless.never (hx : x.Faultless) : NeverFaults bad x :=
  fun m f pos m' h => (hx m f pos m' h).elim

theorem NeverFaults.bind {f : α → Eval β} (hx : NeverFaults bad x)
    (hf : ∀ a, NeverFaults bad (f a)) : NeverFaults bad (x >>= f) := by
  intro m fault pos m' h
  rcases run_bind_error.mp h with h | ⟨a, m₁, -, h⟩
  · exact hx h
  · exact hf a h

theorem neverFaults_fault {f : Fault} (hf : ¬ bad f) :
    NeverFaults bad (fault f pos : Eval α) := by
  intro m g at' m' h
  cases h
  exact hf

/-- An operand may turn out to have several values, and that is the only fault it ends in. -/
theorem neverFaults_one {y : Eval Value} (hb : ¬ bad .multipleValues) :
    NeverFaults bad (one pos y) := by
  have hsettled : (settled y).Faultless := orElseReport_faultless
  refine hsettled.never.bind fun v => ?_
  unfold single
  by_cases hv : v.isMulti = true
  · rw [if_pos hv]
    exact neverFaults_fault hb
  · rw [if_neg hv]
    exact faultless_pure.never

/-- There were more elements than the size. -/
def IsTooMany (f : Fault) : Prop := ∃ size found, f = .value (.tooManyElements size found)

theorem not_isTooMany_multipleValues : ¬ IsTooMany .multipleValues := by
  rintro ⟨_, _, ⟨⟩⟩

theorem neverFaults_arraySize {v : Value} : NeverFaults IsTooMany (arraySize v pos) := by
  unfold arraySize
  split
  · split
    · refine neverFaults_fault ?_
      rintro ⟨_, _, ⟨⟩⟩
    · exact faultless_pure.never
  · refine neverFaults_fault ?_
    rintro ⟨_, _, ⟨⟩⟩

theorem neverFaults_type : ∀ t : TypeExpr, NeverFaults IsTooMany (t.eval ctx frame)
  | .int32 | .float32 | .bool | .string | .rune => faultless_pure.never
  | .array size elem => by
    refine (neverFaults_one not_isTooMany_multipleValues).bind fun v => ?_
    refine neverFaults_arraySize.bind fun n => ?_
    exact (neverFaults_type elem).bind fun t => faultless_pure.never
  | .pointer target => (neverFaults_type target).bind fun t => faultless_pure.never

theorem faultless_newArray {size : Nat} {elem : Ty} {items : Array Value} :
    (newArray size elem items pos).Faultless := by
  intro m f at' m' hr
  obtain ⟨id, h, -, hrun⟩ := run_newArray size elem items pos m
  rw [hrun] at hr
  cases hr

theorem faultless_arrayItem {elem : Ty} {v : Value} : (arrayItem elem v pos).Faultless := by
  unfold arrayItem
  by_cases ha : elem.accepts (elem.convert v) = true
  · simp only [if_pos ha]
    exact faultless_pure
  · simp only [if_neg ha]
    exact preserves_get.faultless.bind fun _ => faultless_report.bind fun _ => faultless_pure

theorem neverFaults_items : ∀ (elem : Ty) (es : List Expr) (done : Array Value),
    NeverFaults IsTooMany (Expr.items ctx elem es frame done)
  | _, [], _ => faultless_pure.never
  | elem, e :: es, done => by
    have hrest : ∀ v, NeverFaults IsTooMany (Expr.items ctx elem es frame (done.push v)) :=
      fun v => neverFaults_items elem es (done.push v)
    cases e with
    | elements inner pos =>
      cases elem with
      | array size elem' =>
        refine (neverFaults_items elem' inner #[]).bind fun items => ?_
        exact faultless_newArray.never.bind hrest
      | _ => exact faultless_report.never.bind fun _ => faultless_onHeap.never.bind hrest
    | _ =>
      refine (neverFaults_one not_isTooMany_multipleValues).bind fun v => ?_
      exact faultless_arrayItem.never.bind hrest

/-- **An array literal never fails for too many elements:** that is reported, and the literal goes
on. -/
theorem neverFaults_literal (type : TypeExpr) (elements : List Expr) :
    NeverFaults IsTooMany ((Expr.array type elements pos).raw ctx frame) := by
  refine (neverFaults_type type).bind fun t => ?_
  cases t with
  | array size elem =>
    exact (neverFaults_items elem elements #[]).bind fun items => faultless_newArray.never
  | _ =>
    refine neverFaults_fault ?_
    rintro ⟨_, _, ⟨⟩⟩

theorem run_read_element {m : Machine} {id : StorageId} {index : Int} {holder : Variable}
    {i : Nat} (hp : (m.heap.get id).position index = .ok i) :
    (read (.element id index holder) pos).run m =
      .ok ((m.heap.get id).items.getD i .nil) m := by
  refine (run_bind_of_ok (a := m) rfl).trans ?_
  rw [Heap.read_of_position hp]
  rfl

theorem write_ne_outOfRange {m m' : Machine} {id : StorageId} {index : Int} {holder : Variable}
    {i : Nat} {v : Value} {at' : Position} {bound : Int} {length : Nat}
    (hp : (m.heap.get id).position index = .ok i) :
    (write (.element id index holder) v pos).run m ≠
      .error (.fault (.value (.outOfRange bound length)) at') m' := by
  have hput : ∀ h, ((lift ((m.heap.get id).position index) pos >>= fun i => modify fun m =>
      { m with heap := m.heap.put id i v }.refresh holder : Eval Unit)).run m ≠
        .error (.fault (.value (.outOfRange bound length)) at') h := by
    intro g h
    rw [hp] at h
    cases h
  intro h
  cases v with
  | array stored =>
    by_cases hc : stored = id ∨ m.heap.holds stored id = true
    · rw [write, run_bind_of_error (checkAcyclic_circle hc)] at h
      cases h
    · rw [run_write_free hc hp] at h
      cases h
  | _ => exact hput _ h

/-- Whatever is assigned to an element that is there, there is no fault of its index. -/
theorem neverFaults_assignTo {m : Machine} {id : StorageId} {index : Int} {holder : Variable}
    {i : Nat} (hp : (m.heap.get id).position index = .ok i) (target : String) (op : AssignOp)
    (v : Value) {at' : Position} {bound : Int} {length : Nat} {m' : Machine} :
    (assignTo (.element id index holder) target op v pos).run m ≠
      .error (.fault (.value (.outOfRange bound length)) at') m' := by
  intro h
  unfold assignTo at h
  rw [run_bind_of_ok (run_read_element hp)] at h
  cases op with
  | plain =>
    rw [run_bind_of_ok (a := (m.heap.get id).elem.kind) rfl] at h
    cases hc : (m.heap.get id).elem.kind.coerce v with
    | some w =>
      rw [hc] at h
      exact write_ne_outOfRange hp h
    | none =>
      rw [hc] at h
      cases h
  | compound op =>
    rcases run_bind_error.mp h with h | ⟨w, m₁, hlift, h⟩
    · cases happly : ((m.heap.get id).items.getD i .nil).apply op v with
      | ok u =>
        rw [happly] at h
        cases h
      | error f =>
        rw [happly] at h
        cases h
        exact Value.apply_ne_outOfRange happly
    · obtain ⟨-, rfl⟩ := lift_ok hlift
      rw [run_bind_of_ok (a := ()) rfl] at h
      exact write_ne_outOfRange hp h

end Eval

open Eval

section Checked

variable {config : Config} {rounds levels : Nat} {frame : FrameId} {m m₁ m₂ : Machine}
  {x : String} {indices : List Expr} {pos : Position} {p : Place} {a : Expr} {v : Value}

/-- What a target of indices stands for is an element, and after an operand has been evaluated it
still is. -/
theorem element_stays (hm : ∀ id, (m.heap.get id).Exact)
    (hp : (placeOf (.ofLevels config rounds levels) (.index x indices) frame pos).run m = .ok p m₁)
    (hv : (a.operand (.ofLevels config rounds levels) frame).run m₁ = .ok v m₂) :
    ∃ id index holder i, p = .element id index holder ∧
      (m₂.heap.get id).position index = .ok i := by
  have hplace := Discipline.leads_placeOf (D := .sized) hp {} hm trivial
  obtain ⟨hleads, -⟩ := Discipline.leads_operand (D := .sized) hv {} hplace.inv trivial
  obtain ⟨owner, path, root, id, last, holder, -, -, -, hwalk, rfl⟩ := placeOf_ok hp
  obtain ⟨i, hi⟩ := Heap.position_of_walk hwalk
  obtain ⟨j, hj⟩ := Heap.KeepsTypes.position hleads.later (hplace.inv id) (hleads.inv id) hi
  exact ⟨id, last, holder, j, rfl, hj⟩

end Checked

/-- **Arrays keep their size.** At every moment of a session each storage has as many elements as it
declares, which is what `len` gives, and an index is accepted exactly if it is not negative and
below that. From each moment to each later one a storage keeps its size and its element type. What
an indexed target stands for can still be read when the right side has been evaluated, whatever that
did, and no assignment to it then fails for its index. No array literal ends in the fault that there
are too many elements: its array is made of those within its size, filled up. -/
theorem arrays_keep_their_size {config : Config} {es : List Moment} {m : Machine}
    (h : Machine.Session config (fun _ => True) es m) :
    (∀ e ∈ es, ∀ id s, e.machine.heap.get? id = some s → e.machine.heap.Measures id s) ∧
    (es.Pairwise fun e e' => ∀ id s, e.machine.heap.get? id = some s →
      ∃ s', e'.machine.heap.get? id = some s' ∧ s'.size = s.size ∧ s'.elem = s.elem) ∧
    (∀ e ∈ es, ∀ rounds levels frame x indices pos p m₁,
      (placeOf (.ofLevels config rounds levels) (.index x indices) frame pos).run e.machine =
        .ok p m₁ →
      ∀ (a : Expr) v m₂, (a.operand (.ofLevels config rounds levels) frame).run m₁ = .ok v m₂ →
        ∀ pos', (∃ w, (read p pos').run m₂ = .ok w m₂) ∧
          ∀ target op index length at' m₃, (assignTo p target op v pos').run m₂ ≠
            .error (.fault (.value (.outOfRange index length)) at') m₃) ∧
    ∀ ctx frame m,
      (∀ type elements pos size found at' m',
        ((Expr.array type elements pos).raw ctx frame).run m ≠
          .error (.fault (.value (.tooManyElements size found)) at') m') ∧
      ∀ size elem items pos, ∃ id h, m.heap.fill elem size (items.take size) = .ok (id, h) ∧
        (newArray size elem items pos).run m = .ok (.array id)
          { (if size < items.size then m.report (.value (.tooManyElements size items.size)) pos
              else m) with heap := h } := by
  obtain ⟨hexact, htypes⟩ := Discipline.sized_of_session h
  refine ⟨fun e he id s hs => ?_, htypes.imp fun {e e'} hk id s hs => ?_, ?_, fun ctx frame m => ?_⟩
  · have hget := hexact e he id
    rw [Heap.get_of_get? hs] at hget
    exact Heap.measures_of_exact hs hget
  · obtain ⟨s', hs', ht⟩ := hk id s hs
    unfold Storage.type at ht
    injection ht with hsize helem
    exact ⟨s', hs', hsize, helem⟩
  · intro e he rounds levels frame x indices pos p m₁ hp a v m₂ hv pos'
    obtain ⟨id, index, holder, i, rfl, hi⟩ := element_stays (hexact e he) hp hv
    exact ⟨⟨_, run_read_element hi⟩,
      fun target op bound length at' m₃ => neverFaults_assignTo hi target op v⟩
  · refine ⟨fun type elements pos size found at' m' hr => ?_,
      fun size elem items pos => run_newArray size elem items pos m⟩
    exact neverFaults_literal type elements hr ⟨size, found, rfl⟩

theorem grid_keeps_its_size :
    (∃ s, afterGrid.heap.get? 2 = some s ∧ s.type = .array 2 (.array 1 .int32) ∧
      afterGrid.heap.Measures 2 s) ∧
    ∀ target op index length at' m',
      (assignTo (.element 1 0 ⟨0, "rows"⟩) target op (.int 7) .origin).run afterGrid ≠
        .error (.fault (.value (.outOfRange index length)) at') m' := by
  let ctx : Context := .ofLevels ⟨{}, ""⟩ 0 0
  let cell : List Expr := [.int "1" .origin, .int "0" .origin]
  have hinitial : Machine.Session ⟨{}, ""⟩ (fun _ => True) [Machine.initial.still] .initial :=
    .initial
  obtain ⟨fs, hfs⟩ := hinitial.exists_executed ⟨grid, []⟩ trivial
  have hs : Machine.Session ⟨{}, ""⟩ (fun _ => True)
      ([Machine.initial.still] ++ (fs ++ [afterGrid.still])) afterGrid := hfs
  have hmem : afterGrid.still ∈ [Machine.initial.still] ++ (fs ++ [afterGrid.still]) := by simp
  have hrows : ∃ s, afterGrid.heap.get? 2 = some s ∧ s.type = .array 2 (.array 1 .int32) :=
    ⟨_, rfl, rfl⟩
  have hp : (placeOf ctx (.index "p" cell) 0 .origin).run afterGrid =
      .ok (.element 1 0 ⟨0, "rows"⟩) afterGrid := rfl
  have hv : ((Expr.int "7" .origin).operand ctx 0).run afterGrid = .ok (.int 7) afterGrid := rfl
  obtain ⟨hmeasures, -, hchecked, -⟩ := arrays_keep_their_size hs
  generalize afterGrid = m at *
  obtain ⟨s, hget, htype⟩ := hrows
  refine ⟨⟨s, hget, htype, hmeasures _ hmem 2 s hget⟩, ?_⟩
  exact (hchecked _ hmem 0 0 0 "p" cell .origin _ m hp _ _ m hv .origin).2

end Treewalk
