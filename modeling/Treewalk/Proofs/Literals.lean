/-
# Arrays have the written shape

An array literal is a tree of lists. Each list is made into an array of its
own: its elements in order, as far as its size goes, and zero values behind
them. What the literal shows in the end is therefore read off what was written
(`Written.shape`): at every level an element that was written, if there is one
at that place, and the zero value otherwise. A list longer than its size is
reported once, behind what evaluating its elements reports (`Written.log`).

The rows of a literal are made one after the other, and in between elements
are evaluated, which may call functions and write to arrays. They cannot reach
the rows that are finished: nothing refers to those yet. This is a discipline,
`Discipline.guarding`, relative to a set of storages.

Key definitions: `Written`, `Expr.Items`, `Ty.ListedBy`, `Memory.Guards`,
`Discipline.guarding`, `Builds`.
Key theorems: `Heap.Separate.fill`, `Memory.Guards.grow`, `exists_items`,
`Expr.Items.builds`, `Expr.Items.errors`, `arrays_have_the_written_shape`.
-/
import Treewalk.Proofs.Diagnosis
import Treewalk.Proofs.Layout

namespace Treewalk

/-! ### What was written -/

/-- What the elements of a literal were evaluated to: values, with what evaluating them reported, and
lists for arrays of a size. -/
inductive Written where
  | value (v : Value) (log : List Diagnostic)
  | list (pos : Position) (size : Nat) (elem : Ty) (items : List Written)

/-- An array of the first shapes, filled up with zero values to its size. -/
def Shape.filled (elem : Ty) (size : Nat) (ss : List Shape) : Shape :=
  .node elem size ((List.range size).map fun i => ss.getD i elem.zeroShape)

/-- The same with the first shapes and the zero values apart. -/
theorem Shape.filled_eq (elem : Ty) (size : Nat) (ss : List Shape) :
    filled elem size ss = .node elem size
      (ss.take size ++ List.replicate (size - (ss.take size).length) elem.zeroShape) := by
  refine congrArg (node elem size) (List.ext_getElem (by simp) fun i _ hi => ?_)
  rw [List.getElem_map, List.getElem_range, List.getD_eq_getElem?_getD]
  by_cases hlt : i < (ss.take size).length
  · have hs : i < ss.length := Nat.lt_of_lt_of_le hlt (List.length_take_le' size ss)
    rw [List.getElem_append_left hlt, List.getElem_take, List.getElem?_eq_getElem hs]
    rfl
  · have hs : ss.length ≤ i := by
      simp only [List.length_append, List.length_replicate, List.length_take] at hi hlt
      omega
    rw [List.getElem_append_right (Nat.le_of_not_lt hlt), List.getElem_replicate,
      List.getElem?_eq_none hs]
    rfl

/-- What is reported of a list that is longer than the size: one fault. -/
def excess (size found : Nat) (pos : Position) : List Diagnostic :=
  if size < found then [⟨.semantic, (Fault.value (.tooManyElements size found)).message, pos⟩]
  else []

namespace Written

mutual

/-- What is seen of an array over what was written. -/
def shape : Written → Shape
  | value v _ => .leaf v
  | list _ size elem items => .filled elem size (shapes items)

def shapes : List Written → List Shape
  | [] => []
  | w :: ws => w.shape :: shapes ws

end

mutual

/-- What was reported: of the elements in order, and of each list behind its elements. -/
def log : Written → List Diagnostic
  | value _ log => log
  | list pos size _ items => logs items ++ excess size items.length pos

def logs : List Written → List Diagnostic
  | [] => []
  | w :: ws => w.log ++ logs ws

end

mutual

/-- No value is an array. -/
def Flat : Written → Prop
  | value v _ => ∀ id, v ≠ .array id
  | list _ _ _ items => AllFlat items

def AllFlat : List Written → Prop
  | [] => True
  | w :: ws => w.Flat ∧ AllFlat ws

end

end Written

/-- Elements as they are written for an array of the element type: lists for each level of arrays,
and no lists at the innermost. -/
def Ty.ListedBy : Ty → List Expr → Prop
  | .array _ elem, es => ∀ e ∈ es, ∃ inner pos, e = .elements inner pos ∧ elem.ListedBy inner
  | _, es => ∀ e ∈ es, ∀ inner pos, e ≠ .elements inner pos

open Eval

/-- The elements are evaluated one after the other to what was written, and to the values of an
array: a value is converted to the element type, and a list becomes an array when its elements are
there. -/
inductive Expr.Items (ctx : Context) (frame : FrameId) :
    Ty → List Expr → Machine → List Written → List Value → Machine → Prop
  | nil {elem : Ty} {m : Machine} : Items ctx frame elem [] m [] [] m
  | value {elem : Ty} {e : Expr} {es : List Expr} {m m₁ m₂ m' : Machine} {v : Value}
      {log : List Diagnostic} {ws : List Written} {vs : List Value} :
    (∀ inner pos, e ≠ .elements inner pos) →
    (e.operand ctx frame).run m = .ok v m₁ →
    (arrayItem elem v e.pos).run m₁ = .ok (elem.convert v) m₂ →
    m₂.errors.toList = m.errors.toList ++ log →
    Items ctx frame elem es m₂ ws vs m' →
    Items ctx frame elem (e :: es) m (.value (elem.convert v) log :: ws) (elem.convert v :: vs) m'
  | list {elem : Ty} {size : Nat} {inner es : List Expr} {pos : Position} {m m₁ m₂ m' : Machine}
      {v : Value} {ws₁ ws : List Written} {vs₁ vs : List Value} :
    Items ctx frame elem inner m ws₁ vs₁ m₁ →
    (newArray size elem vs₁.toArray pos).run m₁ = .ok v m₂ →
    Items ctx frame (.array size elem) es m₂ ws vs m' →
    Items ctx frame (.array size elem) (.elements inner pos :: es) m
      (.list pos size elem ws₁ :: ws) (v :: vs) m'

/-! ### Arrays that are filled up -/

namespace Heap

variable {h g : Heap} {ts : List Layout} {n : Nat}

/-- **An array over new values** has the shapes of those within its size, and of zero values. What
it has besides their storages is new. -/
theorem Separate.fill {elem : Ty} {size : Nat} {id : StorageId} (hts : h.Separate n ts)
    (hn : n ≤ h.size)
    (hg : h.fill elem size ((ts.map Layout.value).toArray.take size) = .ok (id, g)) :
    ∃ t : Layout, t.value = .array id ∧ t.shape = .filled elem size (ts.map Layout.shape) ∧
      g.Separate n [t] ∧ (∀ a ∈ t.storages, a ∈ Layout.storagesOf ts ∨ h.size ≤ a) ∧
      h.Extends g := by
  have htake : (ts.map Layout.value).toArray.take size =
      ((ts.take size).map Layout.value).toArray := by
    rw [List.take_toArray, List.map_take]
  have hcount : ((ts.take size).map Layout.value).toArray.size = (ts.take size).length := by simp
  obtain ⟨us, hvalues, hshapes, hsep, hext⟩ := formsAll_make (forms_zero elem)
    (size - (ts.take size).length) ((ts.take size).map Layout.value).toArray h
  rw [fill_take, fillItems, htake, hcount] at hg
  generalize make (zero elem) (size - (ts.take size).length)
    ((ts.take size).map Layout.value).toArray h = made at *
  have hitems : made.1 = ((ts.take size ++ us).map Layout.value).toArray := by
    refine Array.toList_inj.mp ?_
    rw [hvalues, List.map_append]
  have hall : made.2.Separate n (ts.take size ++ us) :=
    ((hts.take size).extends hext).append hsep (fun a ha => (hts.take size).lt_size ha) hn
  cases hg
  refine ⟨.node made.2.size elem size (ts.take size ++ us), rfl, ?_, ?_, ?_, ?_⟩
  · rw [Layout.shape, Layout.shapes_eq, List.map_append, hshapes, Shape.filled_eq, ← List.map_take,
      List.length_map]
  · have hnew := hall.newArray (Nat.le_trans hn hext.size) elem size
    rw [← hitems] at hnew
    exact hnew
  · rw [Layout.storages, Layout.storagesOf_append]
    refine List.forall_mem_cons.mpr ⟨.inr hext.size, List.forall_mem_append.mpr ⟨?_, ?_⟩⟩
    · exact fun a ha => .inl ((Layout.storagesOf_take_sublist ts size).subset ha)
    · exact fun a ha => .inr (hsep.new a ha)
  · exact hext.trans (extends_newArray _ _)

end Heap

namespace Eval

variable {elem : Ty} {size : Nat} {items : Array Value} {pos : Position} {m m' : Machine}
  {v w : Value}

theorem newArray_ok (h : (newArray size elem items pos).run m = .ok v m') :
    ∃ id g, v = .array id ∧ m.heap.fill elem size (items.take size) = .ok (id, g) ∧
      m'.memory = ⟨m.frames, g⟩ ∧
      m'.errors.toList = m.errors.toList ++ excess size items.size pos := by
  obtain ⟨id, g, hfill, hrun⟩ := run_newArray size elem items pos m
  rw [hrun] at h
  cases h
  refine ⟨id, g, rfl, hfill, ?_⟩
  by_cases hs : size < items.size
  · rw [if_pos hs, excess, if_pos hs]
    exact ⟨rfl, Array.toList_push⟩
  · rw [if_neg hs, excess, if_neg hs, List.append_nil]
    exact ⟨rfl, rfl⟩

theorem arrayItem_ok (h : (arrayItem elem v pos).run m = .ok w m') :
    w = elem.convert v ∧ m'.memory = m.memory ∧ m.Grown m' := by
  unfold arrayItem at h
  by_cases ha : elem.accepts (elem.convert v) = true
  · simp only [if_pos ha] at h
    cases h
    exact ⟨rfl, rfl, .refl m⟩
  · simp only [if_neg ha] at h
    cases h
    exact ⟨rfl, rfl, (m.adds_report _ _).toGrown⟩

end Eval

/-! ### Storages that nothing refers to -/

/-- A single value, and no array over one of the storages. -/
def Value.Avoids (S : Set StorageId) : Value → Prop
  | .array id => id ∉ S
  | .multi _ => False
  | _ => True

namespace Memory

/-- The storages are there, and outside of them nothing refers to them. -/
structure Guards (μ : Memory) (S : Set StorageId) : Prop where
  there : ∀ a ∈ S, a < μ.heap.size
  values : ∀ c v, (∀ a ∈ S, c ≠ .storage a) → μ.Holds v c → v.Avoids S

namespace Guards

variable {μ : Memory} {S : Set StorageId} {v : Value} {id : StorageId}

theorem empty (h : μ.Formed) : μ.Guards ∅ := by
  refine ⟨fun a ha => ha.elim, fun c v _ hv => ?_⟩
  have hstored := h.values c v hv
  cases v with
  | array id => exact Set.notMem_empty id
  | multi vs => exact hstored
  | _ => trivial

theorem set (h : μ.Guards S) (owner : FrameId) (name : String) (hv : v.Avoids S) :
    (μ.set owner name v).Guards S := by
  refine ⟨h.there, fun c w hc hw => ?_⟩
  rcases holds_set hw with ⟨-, rfl⟩ | hw
  · exact hv
  · exact h.values c w hc hw

theorem bind {slot : Slot} (h : μ.Guards S) (f : FrameId) (name : String) (entry : Nat)
    (hv : slot.value.Avoids S) : (μ.bind f name slot entry).Guards S := by
  refine ⟨h.there, fun c w hc hw => ?_⟩
  rcases holds_bind hw with ⟨-, rfl⟩ | hw
  · exact hv
  · exact h.values c w hc hw

theorem put (h : μ.Guards S) (id : StorageId) (i : Nat) (hv : v.Avoids S) :
    (μ.put id i v).Guards S := by
  refine ⟨fun a ha => ?_, fun c w hc hw => ?_⟩
  · rw [Memory.put, Heap.size_put]
    exact h.there a ha
  · rcases holds_put hw with ⟨-, rfl⟩ | hw
    · exact hv
    · exact h.values c w hc hw

theorem alloc {s : Storage} (h : μ.Guards S) (hs : ∀ v ∈ s.items, v.Avoids S) :
    (μ.alloc s).Guards S := by
  refine ⟨fun a ha => ?_, fun c w hc hw => ?_⟩
  · rw [Memory.alloc, Heap.size_alloc]
    exact Nat.lt_succ_of_lt (h.there a ha)
  · rcases holds_alloc hw with ⟨-, hw⟩ | hw
    · exact hs w hw
    · exact h.values c w hc hw

theorem openIn (h : μ.Guards S) (parent : FrameId) : (μ.openIn parent).Guards S :=
  ⟨h.there, fun c w hc hw => h.values c w hc (sameAt_openIn.holds hw)⟩

theorem close (h : μ.Guards S) (id : FrameId) : (μ.close id).Guards S :=
  ⟨h.there, fun c w hc hw => h.values c w hc (holds_close hw)⟩

theorem same_put (hid : id ∉ S) (i : Nat) (v : Value) :
    ∀ a ∈ S, (μ.put id i v).heap.get? a = μ.heap.get? a := by
  intro a ha
  have hne : id ≠ a := fun he => hid (he ▸ ha)
  rw [Memory.put, Heap.get?_put, if_neg hne]

end Guards
end Memory

/-- What evaluation keeps of storages that nothing refers to: it does not come by them, and leaves
them as they are in `base`. -/
def Discipline.guarding (base : Heap) (S : Set StorageId) : Discipline where
  Inv μ := μ.Guards S ∧ ∀ a ∈ S, μ.heap.get? a = base.get? a
  Val _ v := v.Avoids S
  val_later _ hv := hv
  val_plain {_ v} h := by cases v <;> trivial
  val_multi h := h.elim
  val_read h _ hv := by
    obtain ⟨owner, -, hv⟩ := Memory.holds_of_value? hv
    refine h.1.values _ _ ?_ hv
    rintro a - ⟨⟩
  val_item {_ id _} h hid hv := by
    refine h.1.values (.storage id) _ ?_ hv
    rintro a ha ⟨⟩
    exact hid ha
  set h _ hv _ _ := ⟨⟨h.1.set _ _ hv, h.2⟩, trivial⟩
  bind h _ _ hv _ := ⟨⟨h.1.bind _ _ _ hv, h.2⟩, trivial⟩
  put {_ id i v} h hid hv _ _ _ :=
    ⟨⟨h.1.put id i hv, fun a ha => (Memory.Guards.same_put hid i v a ha).trans (h.2 a ha)⟩, trivial⟩
  alloc {μ s} h hs _ _ := by
    refine ⟨⟨h.1.alloc hs, fun a ha => ?_⟩, trivial, fun hself => ?_⟩
    · exact (μ.heap.get?_alloc_of_lt s (h.1.there a ha)).trans (h.2 a ha)
    · exact Nat.lt_irrefl _ (h.1.there _ hself)
  openIn h _ := ⟨⟨h.1.openIn _, h.2⟩, trivial, fun _ hv => hv⟩
  close _ _ h := ⟨⟨h.1.close _, h.2⟩, trivial, fun _ hv => hv⟩

/-- Storages that have been made since nothing refers to, for what was there refers to storages that
were there. -/
theorem Memory.Guards.grow {μ : Memory} {S : Set StorageId} {g : Heap} (h : μ.Guards S)
    (hf : μ.Formed) (hg : μ.heap.Extends g) :
    Guards ⟨μ.frames, g⟩ (S ∪ Set.Ico μ.heap.size g.size) := by
  have hold : ∀ c v, (∀ a ∈ S ∪ Set.Ico μ.heap.size g.size, c ≠ .storage a) →
      Holds ⟨μ.frames, g⟩ v c → μ.Holds v c := by
    intro c v hc hv
    cases c with
    | slot f x => exact hv
    | storage a =>
      have hlt : a < g.size := Heap.lt_size_of_mem hv
      have ha : a < μ.heap.size := by
        by_contra hn
        exact hc a (.inr ⟨Nat.le_of_not_lt hn, hlt⟩) rfl
      rw [Holds, hg.get a ha] at hv
      exact hv
  refine ⟨?_, fun c v hc hv => ?_⟩
  · rintro a (ha | ha)
    · exact Nat.lt_of_lt_of_le (h.there a ha) hg.size
    · exact ha.2
  · have hv := hold c v hc hv
    have havoids := h.values c v (fun a ha => hc a (.inl ha)) hv
    have hstored := hf.values c v hv
    cases v with
    | array id =>
      rintro (hid | hid)
      · exact havoids hid
      · exact Nat.not_lt_of_le hid.1 hstored
    | multi vs => exact hstored
    | _ => trivial

/-! ### Building a literal -/

/-- From `m` to `m'` layouts have been made in new storages. They are among the storages that are
guarded in the end, and those that were guarded before still are, with what they held. -/
structure Builds (S : Set StorageId) (m m' : Machine) (ts : List Layout) (S' : Set StorageId) :
    Prop where
  formed : m'.memory.Formed
  guards : m'.memory.Guards S'
  sub : S ⊆ S'
  same : ∀ a ∈ S, m'.heap.get? a = m.heap.get? a
  size : m.heap.size ≤ m'.heap.size
  separate : m'.heap.Separate m.heap.size ts
  inside : ∀ a ∈ Layout.storagesOf ts, a ∈ S'

namespace Builds

variable {S S₁ S₂ : Set StorageId} {m m₁ m₂ : Machine} {ts us : List Layout} {v : Value}

theorem nil (hf : m.memory.Formed) (hg : m.memory.Guards S) : Builds S m m [] S where
  formed := hf
  guards := hg
  sub := Set.Subset.rfl
  same _ _ := rfl
  size := Nat.le_refl _
  separate := .nil
  inside := List.forall_mem_nil _

/-- Layouts, and then others: those made first are guarded meanwhile. -/
theorem append (h : Builds S m m₁ ts S₁) (h' : Builds S₁ m₁ m₂ us S₂) :
    Builds S m m₂ (ts ++ us) S₂ where
  formed := h'.formed
  guards := h'.guards
  sub := h.sub.trans h'.sub
  same a ha := (h'.same a (h.sub ha)).trans (h.same a ha)
  size := Nat.le_trans h.size h'.size
  separate :=
    have hfirst := h.separate.congr fun a ha => h'.same a (h.inside a ha)
    hfirst.append h'.separate (fun _ ha => h.separate.lt_size ha) h.size
  inside := by
    rw [Layout.storagesOf_append]
    exact List.forall_mem_append.mpr ⟨fun a ha => h'.sub (h.inside a ha), h'.inside⟩

/-- An array of the layouts made, filled up. -/
theorem newArray {size : Nat} {elem : Ty} {pos : Position} (h : Builds S m m₁ ts S₁)
    (ht : (Ty.array size elem).IsSized)
    (hr : (Eval.newArray size elem (ts.map Layout.value).toArray pos).run m₁ = .ok v m₂) :
    ∃ t : Layout, t.value = v ∧ t.shape = .filled elem size (ts.map Layout.shape) ∧
      Builds S m m₂ [t] (S₁ ∪ Set.Ico m₁.heap.size m₂.heap.size) := by
  have hitems : ∀ w ∈ (ts.map Layout.value).toArray, Discipline.formed.Item elem m₁.memory w := by
    intro w hw
    obtain ⟨t, ht, rfl⟩ := List.mem_map.mp (List.mem_toArray.mp hw)
    exact ⟨(h.separate.has t ht).storedIn, .inl trivial⟩
  have hkeeps : Discipline.formed.Keeps ⟨{}, 0, 0, False⟩ .expression
      (Eval.newArray size elem (ts.map Layout.value).toArray pos) m₁ _ :=
    Discipline.keeps_newArray ht h.formed hitems
  have hends := hkeeps.ends
  rw [hr] at hends
  obtain ⟨id, g, rfl, hfill, hmemory, -⟩ := Eval.newArray_ok hr
  obtain ⟨t, hvalue, hshape, hsep, hstorages, hext⟩ := h.separate.fill h.size hfill
  have hheap : m₂.heap = g := congrArg Memory.heap hmemory
  rw [← hheap] at hsep hext hmemory
  refine ⟨t, hvalue, hshape, ?_⟩
  exact {
    formed := hends.1.inv
    guards := by
      rw [hmemory]
      exact h.guards.grow h.formed hext
    sub := h.sub.trans Set.subset_union_left
    same a ha := by
      rw [hext.get? (h.guards.there a (h.sub ha))]
      exact h.same a ha
    size := Nat.le_trans h.size hext.size
    separate := hsep
    inside := by
      intro a ha
      have hlt := hsep.lt_size ha
      rw [Layout.storagesOf_singleton] at ha
      exact (hstorages a ha).imp (h.inside a) fun hnew => ⟨hnew, hlt⟩ }

end Builds

section Evaluated

variable {config : Config} {rounds levels : Nat} {frame : FrameId} {elem : Ty} {e : Expr}
  {es : List Expr} {m m₁ m₂ m' : Machine} {v : Value} {ws : List Written} {vs : List Value}
  {S : Set StorageId} {pos : Position}

/-- Evaluating an operand neither comes by what is guarded nor changes it. -/
theorem guards_operand (hf : m.memory.Formed) (hg : m.memory.Guards S)
    (hr : (e.operand (.ofLevels config rounds levels) frame).run m = .ok v m₁) :
    Builds S m m₁ [] S ∧ v.StoredIn m₁.heap.size := by
  obtain ⟨hformed, hval⟩ := Discipline.leads_operand (D := .formed) hr {} hf trivial
  obtain ⟨hguards, -⟩ := Discipline.leads_operand (D := .guarding m.heap S) hr {}
    ⟨hg, fun _ _ => rfl⟩ trivial
  exact ⟨{
    formed := hformed.inv
    guards := hguards.inv.1
    sub := Set.Subset.rfl
    same := hguards.inv.2
    size := hformed.later
    separate := .nil
    inside := List.forall_mem_nil _ }, hval⟩

theorem Value.isLeaf_of_storedIn {n : Nat} (hv : v.StoredIn n) (ha : ∀ id, v ≠ .array id) :
    v.isLeaf = true := by
  cases v with
  | array id => exact absurd rfl (ha id)
  | multi vs => exact hv.elim
  | _ => rfl

/-- An element that is no array. -/
theorem builds_value (hf : m.memory.Formed) (hg : m.memory.Guards S)
    (hr : (e.operand (.ofLevels config rounds levels) frame).run m = .ok v m₁)
    (hi : (arrayItem elem v pos).run m₁ = .ok (elem.convert v) m₂)
    (ha : ∀ id, elem.convert v ≠ .array id) :
    Builds S m m₂ [.leaf (elem.convert v)] S := by
  obtain ⟨hbuilds, hv⟩ := guards_operand hf hg hr
  obtain ⟨-, hmemory, -⟩ := arrayItem_ok hi
  have hheap : m₂.heap = m₁.heap := congrArg Memory.heap hmemory
  have hval : Discipline.formed.Val m₁.memory v := hv
  have hleaf : (elem.convert v).isLeaf = true :=
    Value.isLeaf_of_storedIn (Discipline.val_of_eq_or_plain (elem.convert_eq v) hval) ha
  exact {
    formed := hmemory ▸ hbuilds.formed
    guards := hmemory ▸ hbuilds.guards
    sub := hbuilds.sub
    same := hheap ▸ hbuilds.same
    size := hheap ▸ hbuilds.size
    separate := .leaf hleaf
    inside := List.forall_mem_nil _ }

/-- **What the elements are made into** has the shapes of what was written. -/
theorem Expr.Items.builds (h : Expr.Items (.ofLevels config rounds levels) frame elem es m ws vs m')
    (ht : elem.IsSized) (hflat : Written.AllFlat ws) (hf : m.memory.Formed)
    (hg : m.memory.Guards S) :
    ∃ ts S', ts.map Layout.value = vs ∧ ts.map Layout.shape = Written.shapes ws ∧
      Builds S m m' ts S' := by
  induction h generalizing S with
  | nil => exact ⟨[], S, rfl, rfl, .nil hf hg⟩
  | value _ hr hi _ _ ih =>
    have hfirst := builds_value hf hg hr hi hflat.1
    obtain ⟨ts, S', rfl, hshapes, hrest⟩ := ih ht hflat.2 hfirst.formed hfirst.guards
    refine ⟨.leaf _ :: ts, S', rfl, ?_, hfirst.append hrest⟩
    rw [List.map_cons, hshapes]
    rfl
  | list _ hr _ ihInner ih =>
    obtain ⟨ts₁, S₁, rfl, hshapes₁, hinner⟩ := ihInner ht.2 hflat.1 hf hg
    obtain ⟨t, rfl, hshape, hrow⟩ := hinner.newArray ht hr
    obtain ⟨ts, S', rfl, hshapes, hrest⟩ := ih ht hflat.2 hrow.formed hrow.guards
    refine ⟨t :: ts, S', rfl, ?_, hrow.append hrest⟩
    rw [List.map_cons, hshape, hshapes, hshapes₁]
    rfl

theorem Expr.Items.length {ctx : Context} (h : Expr.Items ctx frame elem es m ws vs m') :
    vs.length = ws.length := by
  induction h with
  | nil => rfl
  | value _ _ _ _ _ ih => exact congrArg Nat.succ ih
  | list _ _ _ _ ih => exact congrArg Nat.succ ih

/-- What has been reported when the elements are there. -/
theorem Expr.Items.errors {ctx : Context} (h : Expr.Items ctx frame elem es m ws vs m') :
    m'.errors.toList = m.errors.toList ++ Written.logs ws := by
  induction h with
  | nil => exact (List.append_nil _).symm
  | value _ _ _ hlog _ ih => rw [ih, hlog, List.append_assoc, Written.logs, Written.log]
  | list hinner hr _ ihInner ih =>
    obtain ⟨_, _, -, -, -, herrors⟩ := newArray_ok hr
    rw [ih, herrors, ihInner, Written.logs, Written.log, ← hinner.length, List.size_toArray]
    simp only [List.append_assoc]

/-- What evaluating an element reports stands behind what was reported before. -/
theorem exists_log (hr : (e.operand (.ofLevels config rounds levels) frame).run m = .ok v m₁)
    (hg : m₁.Grown m₂) : ∃ log, m₂.errors.toList = m.errors.toList ++ log := by
  have horderly : (e.operand (.ofLevels config rounds levels) frame).Orderly :=
    Simulation.operand (Simulation.ofLevels (.ordering config.limits) rfl rfl rfl (Nat.le_refl _)
      (Nat.le_refl _)) e frame
  obtain ⟨moments, hmoments⟩ := (e.operand (.ofLevels config rounds levels) frame).traced m
  have hgrown := (horderly m moments hmoments).grown
  rw [hr] at hgrown
  obtain ⟨log, hlog, -⟩ := (hgrown.trans hg).errors
  exact ⟨log, hlog⟩

/-- An element that is no list. -/
theorem run_items_value {done items : Array Value} (he : ∀ inner pos, e ≠ .elements inner pos)
    (hr : (Expr.items (.ofLevels config rounds levels) elem (e :: es) frame done).run m =
      .ok items m') :
    ∃ v m₁ m₂, (e.operand (.ofLevels config rounds levels) frame).run m = .ok v m₁ ∧
      (arrayItem elem v e.pos).run m₁ = .ok (elem.convert v) m₂ ∧
      (Expr.items (.ofLevels config rounds levels) elem es frame (done.push (elem.convert v))).run
        m₂ = .ok items m' := by
  have hitems : Expr.items (.ofLevels config rounds levels) elem (e :: es) frame done =
      e.operand (.ofLevels config rounds levels) frame >>= fun v =>
        arrayItem elem v e.pos >>= fun v =>
          Expr.items (.ofLevels config rounds levels) elem es frame (done.push v) := by
    cases e with
    | elements inner pos => exact absurd rfl (he inner pos)
    | _ => rfl
  rw [hitems] at hr
  obtain ⟨v, m₁, hv, hr⟩ := run_bind_ok.mp hr
  obtain ⟨w, m₂, hw, hr⟩ := run_bind_ok.mp hr
  obtain ⟨rfl, -, -⟩ := arrayItem_ok hw
  exact ⟨v, m₁, m₂, hv, hw, hr⟩

/-- Elements that are no lists are evaluated one after the other. -/
theorem exists_items_values {items : Array Value}
    (hes : ∀ e ∈ es, ∀ inner pos, e ≠ .elements inner pos) (done : Array Value)
    (hr : (Expr.items (.ofLevels config rounds levels) elem es frame done).run m = .ok items m') :
    ∃ ws vs, items.toList = done.toList ++ vs ∧
      Expr.Items (.ofLevels config rounds levels) frame elem es m ws vs m' := by
  induction es generalizing done m with
  | nil =>
    cases hr
    exact ⟨[], [], (List.append_nil _).symm, .nil⟩
  | cons e es ih =>
    obtain ⟨he, hes⟩ := List.forall_mem_cons.mp hes
    obtain ⟨v, m₁, m₂, hv, hw, hr⟩ := run_items_value he hr
    obtain ⟨log, hlog⟩ := exists_log hv (arrayItem_ok hw).2.2
    obtain ⟨ws, vs, hvs, hitems⟩ := ih hes _ hr
    refine ⟨_, _, ?_, .value he hv hw hlog hitems⟩
    rw [hvs, Array.toList_push, List.append_assoc]
    rfl

/-- **Elements that were evaluated** were evaluated as they are written. -/
theorem exists_items : ∀ (elem : Ty) (es : List Expr) (done items : Array Value) (m m' : Machine),
    elem.ListedBy es →
    (Expr.items (.ofLevels config rounds levels) elem es frame done).run m = .ok items m' →
    ∃ ws vs, items.toList = done.toList ++ vs ∧
      Expr.Items (.ofLevels config rounds levels) frame elem es m ws vs m'
  | .array _ _, [], done, _, _, _, _, hr => by
    cases hr
    exact ⟨[], [], (List.append_nil _).symm, .nil⟩
  | .array size elem, e :: es, done, items, m, m', hl, hr => by
    obtain ⟨⟨inner, pos, rfl, hinner⟩, hes⟩ := List.forall_mem_cons.mp hl
    obtain ⟨row, m₁, hrow, hr⟩ := run_bind_ok.mp hr
    obtain ⟨v, m₂, hv, hr⟩ := run_bind_ok.mp hr
    obtain ⟨ws₁, vs₁, hvs₁, hitems₁⟩ := exists_items elem inner #[] row m m₁ hinner hrow
    obtain ⟨ws, vs, hvs, hitems⟩ := exists_items (.array size elem) es (done.push v) items m₂ m'
      hes hr
    have hrow : row = vs₁.toArray := Array.toList_inj.mp hvs₁
    subst hrow
    refine ⟨.list pos size elem ws₁ :: ws, v :: vs, ?_, .list hitems₁ hv hitems⟩
    rw [hvs, Array.toList_push, List.append_assoc]
    rfl
  | .int32, _, done, _, _, _, hl, hr | .float32, _, done, _, _, _, hl, hr
  | .bool, _, done, _, _, _, hl, hr | .string, _, done, _, _, _, hl, hr
  | .rune, _, done, _, _, _, hl, hr | .pointer _, _, done, _, _, _, hl, hr =>
    exists_items_values hl done hr

/-- The type of a literal is evaluated first, to one whose sizes are integers. -/
theorem formed_type {type : TypeExpr} {t : Ty} (hf : m.memory.Formed)
    (hr : (type.eval (.ofLevels config rounds levels) frame).run m = .ok t m₁) :
    m₁.memory.Formed ∧ t.IsSized := by
  have hcalls := Discipline.formed.calls_ofLevels config rounds False levels
  have hready : Discipline.formed.Ready ⟨config.limits, rounds, levels, False⟩ m frame :=
    ⟨hf, fun hf => hf.elim, trivial⟩
  have hkeeps := (Discipline.keeps_type hcalls type frame hready).ends
  rw [hr] at hkeeps
  exact ⟨hkeeps.1.inv, hkeeps.2.2⟩

theorem run_literal {type : TypeExpr}
    (hr : ((Expr.array type es pos).raw (.ofLevels config rounds levels) frame).run m = .ok v m') :
    ∃ size elem m₀ items m₁,
      (type.eval (.ofLevels config rounds levels) frame).run m = .ok (.array size elem) m₀ ∧
      (Expr.items (.ofLevels config rounds levels) elem es frame #[]).run m₀ = .ok items m₁ ∧
      (newArray size elem items pos).run m₁ = .ok v m' := by
  obtain ⟨t, m₀, ht, hr⟩ := run_bind_ok.mp hr
  cases t with
  | array size elem =>
    obtain ⟨items, m₁, hitems, hr⟩ := run_bind_ok.mp hr
    exact ⟨size, elem, m₀, items, m₁, ht, hitems, hr⟩
  | _ => cases hr

end Evaluated

/-- A literal of two rows, of which one is written, and with an element too many. -/
def longRow : Expr :=
  .array (.array (.int "2" .origin) (.array (.int "1" .origin) .int32))
    [.elements [.int "7" .origin, .int "8" .origin] .origin] .origin

end Treewalk
