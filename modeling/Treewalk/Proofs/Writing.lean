/-
# Writing to a place

What a target stands for is found before anything is written: a variable in
the frame that binds it, or an element at the end of a path of indices,
together with the variable that holds the outermost array. A pointer is
followed on the way, so that variable is the one pointed to.

A write changes the content of the place and the value that the symbol table
shows for the holder, and nothing else. That the way to an element is still
there afterwards is not a matter of course: it is because no array lies inside
itself, so none of the arrays on the way is the one written to.

Key definitions: `Frames.ArrayBehind`, `Target.StandsFor`, `Machine.Wrote`.
Key theorems: `Eval.placeOf_ok`, `Heap.walk_put`, `Eval.wrote_of_write`,
`writes_change_one_place`.
-/
import Treewalk.Proofs.Failure
import Treewalk.Proofs.Naming
import Treewalk.Proofs.Unfolding

namespace Treewalk

open Eval

/-! ### What a target stands for -/

/-- The variable `y` holds an array over the storage `root`, and is `x` or what `x` points to. -/
inductive Frames.ArrayBehind (fs : Frames) (x : Variable) (root : StorageId) : Variable → Prop
  | itself : fs.value? x.owner x.name = some (.array root) → ArrayBehind fs x root x
  | pointee {y : Variable} : fs.value? x.owner x.name = some (.pointer y.owner y.name) →
    fs.hasLocal y.owner y.name = true → fs.value? y.owner y.name = some (.array root) →
    ArrayBehind fs x root y

/-- What a target seen from a frame stands for: the variable of its name, the one that a pointer
designates, or the element at the path that its indices give. -/
def Target.StandsFor (ctx : Context) (frame : FrameId) (m m₁ : Machine) : Target → Place → Prop
  | .name x, p => m₁ = m ∧ ∃ owner, m.frames.resolve frame x = some owner ∧ p = .var ⟨owner, x⟩
  | .deref x, p => m₁ = m ∧ ∃ f y, m.frames.value? frame x = some (.pointer f y) ∧
    m.frames.hasLocal f y = true ∧ p = .var ⟨f, y⟩
  | .index x indices, p => ∃ owner path root id last holder,
    m.frames.resolve frame x = some owner ∧ (Expr.path ctx indices frame).run m = .ok path m₁ ∧
    m₁.frames.ArrayBehind ⟨owner, x⟩ root holder ∧ m₁.heap.walk root path = .ok (id, last) ∧
    p = .element id last holder

namespace Eval

variable {ctx : Context} {frame owner : FrameId} {m m' : Machine} {pos : Position} {name : String}
  {v : Value} {x y : Variable} {p : Place} {root : StorageId} {path : List Int}

theorem lift_ok {α ε : Type} [Coe ε Fault] {r : Except ε α} {a : α}
    (h : (lift r pos).run m = .ok a m') : r = .ok a ∧ m' = m := by
  cases r with
  | ok b =>
    cases h
    exact ⟨rfl, rfl⟩
  | error e => cases h

theorem writableOwner_ok (h : (writableOwner name frame pos).run m = .ok owner m') :
    m' = m ∧ m.frames.resolve frame name = some owner := by
  refine ⟨readOnly_writableOwner.eq_of_ok h, ?_⟩
  obtain ⟨_, _, ⟨⟩, h⟩ := run_bind_ok.mp h
  obtain ⟨found, _, hfound, h⟩ := run_bind_ok.mp h
  cases hr : m.frames.resolve frame name with
  | none =>
    rw [hr] at hfound
    cases hfound
  | some o =>
    rw [hr] at hfound
    cases hfound
    split at h
    · cases h
    · cases h
      rfl

theorem follow_ok {label : String} (h : (follow label v pos).run m = .ok y m') :
    m' = m ∧ v = .pointer y.owner y.name ∧ m.frames.hasLocal y.owner y.name = true := by
  refine ⟨readOnly_follow.eq_of_ok h, ?_⟩
  cases v with
  | pointer f x =>
    obtain ⟨_, _, ⟨⟩, h⟩ := run_bind_ok.mp h
    split at h
    · next hl =>
      cases h
      exact ⟨rfl, hl⟩
    · cases h
  | _ => cases h

theorem arrayBehind_ok {r : StorageId × Variable} (h : (arrayBehind x pos).run m = .ok r m') :
    m' = m ∧ m.frames.ArrayBehind x r.1 r.2 := by
  refine ⟨readOnly_arrayBehind.eq_of_ok h, ?_⟩
  obtain ⟨v, m₁, hlookup, hrest⟩ := run_bind_ok.mp h
  obtain ⟨rfl, hv⟩ := lookup_ok hlookup
  cases v with
  | array id =>
    cases hrest
    exact .itself hv
  | pointer f n =>
    obtain ⟨y, m₂, hfollow, hlast⟩ := run_bind_ok.mp hrest
    obtain ⟨rfl, hpointer, hlocal⟩ := follow_ok hfollow
    cases hpointer
    obtain ⟨w, m₃, hlookup', harray⟩ := run_bind_ok.mp hlast
    obtain ⟨rfl, hw⟩ := lookup_ok hlookup'
    cases w with
    | array id =>
      cases harray
      exact .pointee hv hlocal hw
    | _ => cases harray
  | _ => cases hrest

theorem run_lookup (h : m.frames.value? frame name = some v) :
    (lookup name frame pos).run m = .ok v m := by
  refine (run_bind_of_ok (a := m) rfl).trans ?_
  rw [h]
  rfl

theorem run_arrayBehind (h : m.frames.ArrayBehind x root y) :
    (arrayBehind x pos).run m = .ok (root, y) m := by
  cases h with
  | itself hv => exact run_bind_of_ok (run_lookup hv)
  | pointee hv hlocal hw =>
    refine (run_bind_of_ok (run_lookup hv)).trans ?_
    have hfollow : (follow x.name (.pointer y.owner y.name) pos).run m = .ok y m := by
      refine (run_bind_of_ok (a := m) rfl).trans ?_
      rw [if_pos hlocal]
      rfl
    exact (run_bind_of_ok hfollow).trans (run_bind_of_ok (run_lookup hw))

/-- **What a target stands for.** -/
theorem placeOf_ok {target : Target} (h : (placeOf ctx target frame pos).run m = .ok p m') :
    target.StandsFor ctx frame m m' p := by
  cases target with
  | name x =>
    obtain ⟨owner, m₁, howner, hpure⟩ := run_bind_ok.mp h
    obtain ⟨rfl, ho⟩ := writableOwner_ok howner
    cases hpure
    exact ⟨rfl, owner, ho, rfl⟩
  | deref x =>
    obtain ⟨v, m₁, hlookup, hrest⟩ := run_bind_ok.mp h
    obtain ⟨rfl, hv⟩ := lookup_ok hlookup
    obtain ⟨y, m₂, hfollow, hpure⟩ := run_bind_ok.mp hrest
    obtain ⟨rfl, rfl, hlocal⟩ := follow_ok hfollow
    cases hpure
    exact ⟨rfl, y.owner, y.name, hv, hlocal, rfl⟩
  | index x indices =>
    obtain ⟨owner, m₁, howner, hrest⟩ := run_bind_ok.mp h
    obtain ⟨rfl, ho⟩ := writableOwner_ok howner
    obtain ⟨path, m₂, hpath, helement⟩ := run_bind_ok.mp hrest
    obtain ⟨⟨root, holder⟩, m₃, harray, hwalk⟩ := run_bind_ok.mp helement
    obtain ⟨rfl, hbehind⟩ := arrayBehind_ok harray
    obtain ⟨_, _, ⟨⟩, hlift⟩ := run_bind_ok.mp hwalk
    obtain ⟨⟨id, last⟩, m₄, hlast, hpure⟩ := run_bind_ok.mp hlift
    obtain ⟨hlast, rfl⟩ := lift_ok hlast
    cases hpure
    exact ⟨owner, path, root, id, last, holder, ho, hpath, hbehind, hlast, rfl⟩

end Eval

/-! ### The way to an element -/

theorem Storage.index_of_position {s : Storage} {index : Int} {i : Nat}
    (h : s.position index = .ok i) : index = i := by
  unfold Storage.position at h
  split at h
  · next hb =>
    cases h
    exact (Int.toNat_of_nonneg hb.1).symm
  · cases h

namespace Heap

open Relation

variable {h : Heap} {id root : StorageId} {index last : Int} {i : Nat} {v : Value}

/-- The element of a storage, if there is one. -/
def item? (h : Heap) (id : StorageId) (i : Nat) : Option Value := (h.get? id).bind (·.items[i]?)

theorem walk_last {r : StorageId × Int} (hw : h.walk root [index] = .ok r) :
    r = (root, index) ∧ ∃ w, h.read root index = .ok w := by
  unfold walk at hw
  cases hr : h.read root index with
  | error e =>
    rw [hr] at hw
    cases hw
  | ok w =>
    rw [hr] at hw
    cases hw
    exact ⟨rfl, w, rfl⟩

theorem walk_next {next : Int} {rest : List Int} {r : StorageId × Int}
    (hw : h.walk root (index :: next :: rest) = .ok r) :
    ∃ inner, h.read root index = .ok (.array inner) ∧ h.walk inner (next :: rest) = .ok r := by
  unfold walk at hw
  cases hr : h.read root index with
  | error e =>
    rw [hr] at hw
    cases hw
  | ok w =>
    rw [hr] at hw
    cases w with
    | array inner => exact ⟨inner, rfl, hw⟩
    | _ => cases hw

/-- The storage at the end of a path lies in the one at its beginning. -/
theorem contains_of_walk : ∀ {path : List Int} {root : StorageId},
    h.walk root path = .ok (id, last) → ReflTransGen h.Contains root id
  | [], _, hw => by cases hw
  | [index], root, hw => by
    cases (walk_last hw).1
    exact .refl
  | index :: next :: rest, root, hw => by
    obtain ⟨inner, hr, hrest⟩ := walk_next hw
    exact .head (mem_of_read hr) (contains_of_walk hrest)

/-- A write leaves the number of elements alone. -/
theorem size_items_put (h : Heap) (id : StorageId) (i : Nat) (v : Value) (a : StorageId) :
    ((h.put id i v).get a).items.size = (h.get a).items.size := by
  rw [get, get?_put, get]
  split
  · cases h.get? a with
    | none => rfl
    | some s => simp
  · rfl

theorem position_put (h : Heap) (id : StorageId) (i : Nat) (v : Value) (a : StorageId)
    (index : Int) : ((h.put id i v).get a).position index = (h.get a).position index := by
  rw [Storage.position, size_items_put, Storage.position]

theorem read_of_position {a : StorageId} {j : Nat} (hp : (h.get a).position index = .ok j) :
    h.read a index = .ok ((h.get a).items.getD j .nil) := by
  rw [read, Storage.read, hp]
  rfl

theorem position_of_read {a : StorageId} {w : Value} (hr : h.read a index = .ok w) :
    ∃ j, (h.get a).position index = .ok j := by
  cases hp : (h.get a).position index with
  | ok j => exact ⟨j, rfl⟩
  | error e =>
    rw [read, Storage.read, hp] at hr
    cases hr

/-- The element that is written is what was written. -/
theorem read_put_self (hp : (h.get id).position index = .ok i) :
    (h.put id i v).read id index = .ok v := by
  have hlt := Storage.lt_of_position hp
  have hsome : ∃ s, h.get? id = some s := by
    cases hs : h.get? id with
    | none =>
      rw [get, hs] at hlt
      exact absurd hlt (Nat.not_lt_zero _)
    | some s => exact ⟨s, rfl⟩
  obtain ⟨s, hs⟩ := hsome
  have hget : h.get id = s := by rw [get, hs]; rfl
  rw [hget] at hlt
  rw [read_of_position ((position_put ..).trans hp), get, get?_put, if_pos rfl, hs]
  simp [Array.getD, hlt]

/-- **The way to an element** is still there when the element has been written, since no storage on
the way is the one written to. -/
theorem walk_put (hh : h.Acyclic) : ∀ {path : List Int} {root : StorageId},
    h.walk root path = .ok (id, last) → (h.put id i v).walk root path = .ok (id, last)
  | [], _, hw => by cases hw
  | [index], root, hw => by
    obtain ⟨hr, w, hread⟩ := walk_last hw
    cases hr
    obtain ⟨j, hj⟩ := position_of_read hread
    rw [walk, read_of_position ((position_put ..).trans hj)]
    rfl
  | index :: next :: rest, root, hw => by
    obtain ⟨inner, hread, hrest⟩ := walk_next hw
    have hne : root ≠ id := by
      rintro rfl
      exact hh root (.head' (mem_of_read hread) (contains_of_walk hrest))
    have hsame : (h.put id i v).read root index = .ok (.array inner) := by
      rw [read, get_put_of_ne hne]
      exact hread
    unfold walk
    rw [hsame]
    exact walk_put hh hrest

end Heap

/-! ### What a write changes -/

/-- The variable that holds what a place is in: itself, or the one with the outermost array. -/
def Place.holder : Place → Variable
  | .var x => x
  | .element _ _ x => x

/-- What a write leaves of a storage. -/
def Storage.shape (s : Storage) : Ty × Nat × Nat := (s.elem, s.size, s.items.size)

theorem Heap.shape_put (h : Heap) (id : StorageId) (i : Nat) (v : Value) (a : StorageId) :
    ((h.put id i v).get? a).map Storage.shape = (h.get? a).map Storage.shape := by
  rw [Heap.get?_put]
  split
  · cases h.get? a with
    | none => rfl
    | some s => simp [Storage.shape]
  · rfl

theorem Heap.item?_put_of_ne {h : Heap} {id a : StorageId} {i j : Nat} {v : Value}
    (hne : ¬ (a = id ∧ j = i)) : (h.put id i v).item? a j = h.item? a j := by
  rw [Heap.item?, Heap.get?_put, Heap.item?]
  split
  · next ha =>
    cases h.get? a with
    | none => rfl
    | some s =>
      have hij : i ≠ j := fun hij => hne ⟨ha.symm, hij.symm⟩
      simp [Array.getElem?_setIfInBounds_ne hij]
  · rfl

/-- `m'` is `m` after `v` has been written to the place, and differs in nothing else. -/
structure Machine.Wrote (p : Place) (v : Value) (m m' : Machine) : Prop where
  read : ∀ pos, (Eval.read p pos).run m' = .ok v m'
  /-- Kinds and constants are as they were, and so are all other variables. -/
  slots : ∀ f x, m'.frames.local? f x =
    if p = .var ⟨f, x⟩ then (m.frames.local? f x).map ({ · with value := v })
    else m.frames.local? f x
  parents : ∀ f, m'.frames.parent? f = m.frames.parent? f
  shapes : ∀ id, (m'.heap.get? id).map Storage.shape = (m.heap.get? id).map Storage.shape
  items : ∀ id (i : Nat), (∀ holder, p ≠ .element id i holder) →
    m'.heap.item? id i = m.heap.item? id i
  functions : m'.functions = m.functions
  errors : m'.errors = m.errors
  output : m'.output = m.output
  depth : m'.depth = m.depth
  steps : m'.steps = m.steps
  entries : ∀ f x, m'.frames.entryOf? f x = m.frames.entryOf? f x
  /-- The entry of the holder shows what the holder contains now. -/
  symbols : ∃ entry w, m.frames.symbol? p.holder.owner p.holder.name = some entry ∧
    entry < m.symbols.symbols.size ∧ m'.frames.value? p.holder.owner p.holder.name = some w ∧
    m'.symbols = m.symbols.update entry (m'.heap.text w)

namespace Eval

variable {m m' : Machine} {pos : Position} {x holder : Variable} {v w : Value} {id : StorageId}
  {index : Int}

/-- The entry of a variable that its frame binds is renewed. -/
theorem refresh_eq {entry : Nat} (hx : m.frames.hasLocal x.owner x.name = true)
    (he : m.frames.entryOf? x.owner x.name = some entry)
    (hw : m.frames.value? x.owner x.name = some w) :
    m.refresh x = { m with symbols := m.symbols.update entry (m.heap.text w) } := by
  have hs := (Frames.symbol?_of_resolve (Frames.resolve_of_hasLocal hx)).trans he
  rw [Machine.refresh, hs, hw]

theorem wrote_var (he : m.Filed) (hx : m.frames.hasLocal x.owner x.name = true)
    (hw : (write (.var x) v pos).run m = .ok () m') : m.Wrote (.var x) v m' := by
  obtain ⟨entry, hentry, hthere⟩ := he _ _ hx
  obtain ⟨s, hs⟩ := Frames.local?_of_hasLocal hx
  have hset : (m.frames.setLocal x.owner x.name v).local? x.owner x.name =
      some { s with value := v } := by
    rw [Frames.local?_setLocal, if_pos ⟨rfl, rfl⟩, hs]
    rfl
  have hlocal : (m.frames.setLocal x.owner x.name v).hasLocal x.owner x.name = true :=
    Frames.hasLocal_of_local? hset
  have hvalue : (m.frames.setLocal x.owner x.name v).value? x.owner x.name = some v := by
    rw [Frames.value?_eq, Frames.slot?_of_local? hset]
    rfl
  have hrefresh := refresh_eq (m := { m with frames := m.frames.setLocal x.owner x.name v }) hlocal
    ((Frames.entryOf?_setLocal ..).trans hentry) hvalue
  have hrun := (run_store hx).symm.trans hw
  rw [hrefresh] at hrun
  cases hrun
  refine ⟨fun at' => run_lookup hvalue, fun f y => ?_, fun f => Frames.parent?_setLocal ..,
    fun _ => rfl, fun _ _ _ => rfl, rfl, rfl, rfl, rfl, rfl, fun f y => Frames.entryOf?_setLocal ..,
    entry, v, ?_, hthere, hvalue, rfl⟩
  · rw [Frames.local?_setLocal]
    by_cases hfy : f = x.owner ∧ y = x.name
    · obtain ⟨rfl, rfl⟩ := hfy
      rw [if_pos ⟨rfl, rfl⟩, if_pos rfl]
    · have hne : Place.var x ≠ .var ⟨f, y⟩ := by
        rintro ⟨⟩
        exact hfy ⟨rfl, rfl⟩
      rw [if_neg hfy, if_neg hne]
  · exact (Frames.symbol?_of_resolve (Frames.resolve_of_hasLocal hx)).trans hentry

theorem write_element_ok (hw : (write (.element id index holder) v pos).run m = .ok () m') :
    ∃ i, (m.heap.get id).position index = .ok i ∧
      m' = { m with heap := m.heap.put id i v }.refresh holder := by
  obtain ⟨_, m₁, hcheck, hrest⟩ := run_bind_ok.mp hw
  obtain rfl := readOnly_checkAcyclic.eq_of_ok hcheck
  obtain ⟨_, _, ⟨⟩, hlift⟩ := run_bind_ok.mp hrest
  obtain ⟨i, m₂, hi, hput⟩ := run_bind_ok.mp hlift
  obtain ⟨hi, rfl⟩ := lift_ok hi
  cases hput
  exact ⟨i, hi, rfl⟩

theorem wrote_element (he : m.Filed)
    (hx : m.frames.hasLocal holder.owner holder.name = true)
    (hv : m.frames.value? holder.owner holder.name = some w)
    (hw : (write (.element id index holder) v pos).run m = .ok () m') :
    m.Wrote (.element id index holder) v m' := by
  obtain ⟨entry, hentry, hthere⟩ := he _ _ hx
  obtain ⟨i, hi, hput⟩ := write_element_ok hw
  have hrefresh := refresh_eq (m := { m with heap := m.heap.put id i v }) hx hentry hv
  rw [hrefresh] at hput
  subst hput
  refine ⟨fun at' => ?_, fun f y => ?_, fun _ => rfl, fun a => ?_, fun a j hne => ?_, rfl, rfl, rfl,
    rfl, rfl, fun _ _ => rfl, entry, w, ?_, hthere, hv, rfl⟩
  · have hread : (m.heap.put id i v).read id index = .ok v := Heap.read_put_self hi
    refine (run_bind_of_ok rfl).trans ?_
    rw [hread]
    rfl
  · rw [if_neg nofun]
  · exact Heap.shape_put ..
  · refine Heap.item?_put_of_ne ?_
    rintro ⟨rfl, rfl⟩
    exact hne holder (by rw [Storage.index_of_position hi])
  · exact (Frames.symbol?_of_resolve (Frames.resolve_of_hasLocal hx)).trans hentry

/-- The place that a target stands for is held by a variable that its frame binds, if the names of
`m` are those of `m₁`. -/
theorem hasLocal_of_standsFor {ctx : Context} {frame : FrameId} {m₁ : Machine} {target : Target}
    {p : Place} (hnames : ∀ {f x owner}, m.frames.resolve f x = some owner →
      m₁.frames.resolve f x = some owner)
    (hp : target.StandsFor ctx frame m m₁ p) :
    m₁.frames.hasLocal p.holder.owner p.holder.name = true := by
  cases target with
  | name x =>
    obtain ⟨rfl, owner, ho, rfl⟩ := hp
    exact Frames.hasLocal_of_resolve ho
  | deref x =>
    obtain ⟨rfl, f, y, -, hlocal, rfl⟩ := hp
    exact hlocal
  | index x indices =>
    obtain ⟨owner, path, root, id, last, holder, ho, -, hbehind, -, rfl⟩ := hp
    cases hbehind with
    | itself hv => exact Frames.hasLocal_of_resolve (hnames ho)
    | pointee hv hlocal hw => exact hlocal

theorem wrote_of_write {ctx : Context} {frame : FrameId} {m₁ : Machine} {target : Target}
    {p : Place} (he : m₁.Filed)
    (hx : m₁.frames.hasLocal p.holder.owner p.holder.name = true)
    (hp : target.StandsFor ctx frame m m₁ p) (hw : (write p v pos).run m₁ = .ok () m') :
    m₁.Wrote p v m' := by
  cases p with
  | var x => exact wrote_var he hx hw
  | element id index holder =>
    cases target with
    | name x => obtain ⟨-, owner, -, ⟨⟩⟩ := hp
    | deref x => obtain ⟨-, f, y, -, -, ⟨⟩⟩ := hp
    | index x indices =>
      obtain ⟨owner, path, root, id', last, holder', -, -, hbehind, -, hplace⟩ := hp
      cases hplace
      cases hbehind with
      | itself hv => exact wrote_element he hx hv hw
      | pointee hv hlocal hv' => exact wrote_element he hx hv' hw

/-- An element that has been written is found again by the path it was found by. -/
theorem run_index_wrote {ctx : Context} {frame owner : FrameId} {m₁ : Machine} {x : String}
    {path : List Int} {indices : List Expr} {root : StorageId} {last : Int}
    (hh : m₁.heap.Acyclic) (ho : m₁.frames.resolve frame x = some owner)
    (hbehind : m₁.frames.ArrayBehind ⟨owner, x⟩ root holder)
    (hwalk : m₁.heap.walk root path = .ok (id, last))
    (hw : (write (.element id last holder) v pos).run m₁ = .ok () m')
    (hread : m₁.Wrote (.element id last holder) v m')
    (hpath : (Expr.path ctx indices frame).run m' = .ok path m') {at' : Position} :
    ((Expr.index x indices at').raw ctx frame).run m' = .ok v m' := by
  obtain ⟨i, -, hput⟩ := write_element_ok hw
  have hmemory : m'.memory = ⟨m₁.frames, m₁.heap.put id i v⟩ := by
    rw [hput, Discipline.refresh_memory]
    rfl
  have hframes : m'.frames = m₁.frames := congrArg Memory.frames hmemory
  have hheap : m'.heap = m₁.heap.put id i v := congrArg Memory.heap hmemory
  have hrequire : (require (m'.frames.resolve frame x) (.name (.undeclared x)) at').run m' =
      .ok owner m' := by
    rw [hframes, ho]
    rfl
  have hlift : (lift (m'.heap.walk root path) at').run m' = .ok (id, last) m' := by
    rw [hheap, Heap.walk_put hh hwalk]
    rfl
  have helement : (element ⟨owner, x⟩ path at').run m' = .ok (.element id last holder) m' := by
    rw [← hframes] at hbehind
    refine (run_bind_of_ok (run_arrayBehind hbehind)).trans ?_
    exact (run_bind_of_ok (a := m') rfl).trans (run_bind_of_ok hlift)
  refine (run_bind_of_ok (a := m') rfl).trans ((run_bind_of_ok hrequire).trans ?_)
  exact (run_bind_of_ok hpath).trans ((run_bind_of_ok helement).trans (hread.read at'))

end Eval

/-- What looking for a place leaves, under any discipline. -/
theorem Discipline.leads_placeOf {D : Discipline} {config : Config} {rounds levels : Nat}
    {m m₁ : Machine} {frame : FrameId} {target : Target} {pos : Position} {p : Place}
    (h : (placeOf (.ofLevels config rounds levels) target frame pos).run m = .ok p m₁)
    (hD : D.Loose) (hinv : D.Inv m.memory) (hfrm : D.Frm m.memory frame) : D.Leads m m₁ := by
  have hcalls := D.calls_ofLevels config rounds False levels
  have hleads : D.Leads m
      ((placeOf (.ofLevels config rounds levels) target frame pos).run m).machine :=
    ((keeps_placeOf hcalls ⟨hinv, fun hf => hf.elim, hfrm⟩).ends hD).leads
  rwa [h] at hleads

/-- Looking for a place leaves every name with its entry. -/
theorem filed_of_placeOf {config : Config} {Q : Program → Prop} {rounds levels : Nat}
    {m m₁ : Machine} {frame : FrameId} {target : Target} {pos : Position} {p : Place}
    (hm : m.Reached config Q)
    (hp : (placeOf (.ofLevels config rounds levels) target frame pos).run m = .ok p m₁) :
    m₁.Filed := by
  have hentered := Discipline.leads_placeOf (D := .entered) hp {} (entered_of_reached hm) trivial
  obtain ⟨ss, m', htied⟩ := Bond.exists_tied_of_reached hm
  have hcalls := Bond.calls_ofLevels (.same fun _ => True) config rounds levels
  have hkeeps : (Bond.same fun _ => True).Keeps ss
      (placeOf (.ofLevels config rounds levels) target frame pos) :=
    Bond.keeps_placeOf hcalls target
  have hends := hkeeps.ends htied
  rw [hp] at hends
  generalize (placeOf _ target frame pos).run m' = r at hends
  cases hends with
  | ok h => exact hentered.inv.filed h.below

/-- **A write changes one place.** In whatever machine a session reaches a target is looked for, if
it stands for a place and a value can be written there, then the place holds the value afterwards,
and all other variables and elements, all kinds, constants and sizes, and all that was printed and
reported are as they were. Of the symbol table, the value of one entry is renewed, that of the
variable which holds the place, with the text of what it contains now; where a pointer was followed,
that is the variable pointed to. An element is found again by indices of the same values. -/
theorem writes_change_one_place (config : Config) (rounds levels : Nat) {m m₁ m₂ : Machine}
    {frame : FrameId} {target : Target} {pos pos' : Position} {p : Place} {v : Value}
    (hm : m.Reached config fun _ => True)
    (hp : (placeOf (.ofLevels config rounds levels) target frame pos).run m = .ok p m₁)
    (hw : (write p v pos').run m₁ = .ok () m₂) :
    target.StandsFor (.ofLevels config rounds levels) frame m m₁ p ∧ m₁.Wrote p v m₂ ∧
    ∀ x indices path, target = .index x indices →
      (Expr.path (.ofLevels config rounds levels) indices frame).run m = .ok path m₁ →
      ∀ indices' at', (Expr.path (.ofLevels config rounds levels) indices' frame).run m₂ =
          .ok path m₂ →
        ((Expr.index x indices' at').raw (.ofLevels config rounds levels) frame).run m₂ =
          .ok v m₂ := by
  have hleads := fun D => Discipline.leads_placeOf (D := D) hp
  have hnames := hleads (.naming m.memory) {} (.refl _) trivial
  have hacyclic := (hleads .formed {} (formed_of_reached hm) trivial).inv.acyclic
  have hstands := placeOf_ok hp
  have hbound := hasLocal_of_standsFor hnames.resolve_of_naming hstands
  have hwrote := wrote_of_write (filed_of_placeOf hm hp) hbound hstands hw
  refine ⟨hstands, hwrote, ?_⟩
  rintro x indices path rfl hpath indices' at' hagain
  obtain ⟨owner, path', root, id, last, holder, ho, hpath', hbehind, hwalk, rfl⟩ := hstands
  rw [hpath] at hpath'
  cases hpath'
  exact run_index_wrote hacyclic (hnames.resolve_of_naming ho) hbehind hwalk hw hwrote hagain

/-- A program with an array of two rows and a pointer to it. -/
def grid : Program :=
  let o := Position.origin
  let rows : TypeExpr := .array (.int "2" o) (.array (.int "1" o) .int32)
  ⟨[.varDecl [⟨"rows", o⟩] (some rows) [] o,
    .varDecl [⟨"p", o⟩] (some (.pointer rows)) [.addressOf "rows" o] o]⟩

def afterGrid : Machine := Machine.initial.executeParsed ⟨{}, ""⟩ ⟨grid, []⟩

/-- The machine after a write to the second row, which is the storage 1. -/
def afterCell : Machine :=
  { afterGrid with heap := afterGrid.heap.put 1 0 (.int 7) }.refresh ⟨0, "rows"⟩

theorem cell_behind_pointer_is_written :
    let ctx : Context := .ofLevels ⟨{}, ""⟩ 0 0
    let cell : List Expr := [.int "1" .origin, .int "0" .origin]
    (placeOf ctx (.index "p" cell) 0 .origin).run afterGrid =
        .ok (.element 1 0 ⟨0, "rows"⟩) afterGrid ∧
      (write (.element 1 0 ⟨0, "rows"⟩) (.int 7) .origin).run afterGrid = .ok () afterCell ∧
      afterGrid.Wrote (.element 1 0 ⟨0, "rows"⟩) (.int 7) afterCell ∧
      ((Expr.index "p" cell .origin).raw ctx 0).run afterCell = .ok (.int 7) afterCell ∧
      afterCell.symbols.symbols.toList.map Symbol.value = ["[[0] [7]]", "&rows"] := by
  intro ctx cell
  have hm : afterGrid.Reached ⟨{}, ""⟩ fun _ => True :=
    .idle (.executed ⟨grid, []⟩ trivial .initial)
  have hp : (placeOf ctx (.index "p" cell) 0 .origin).run afterGrid =
      .ok (.element 1 0 ⟨0, "rows"⟩) afterGrid := rfl
  have hw : (write (.element 1 0 ⟨0, "rows"⟩) (.int 7) .origin).run afterGrid =
      .ok () afterCell := rfl
  have hpath : ∀ m, (Expr.path ctx cell 0).run m = .ok [1, 0] m := fun _ => rfl
  obtain ⟨-, hwrote, hread⟩ := writes_change_one_place ⟨{}, ""⟩ 0 0 hm hp hw
  refine ⟨hp, hw, hwrote, ?_, by decide +kernel⟩
  exact hread "p" cell [1, 0] rfl (hpath afterGrid) cell .origin (hpath afterCell)

end Treewalk
