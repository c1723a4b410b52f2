/-
# Copies are detached

A copy of an array shows what the array shows, in storages of its own: new
ones, and one for each place, so that a row which stands at two places in the
array is two rows in the copy. Nothing that was there is changed. From then on
the array and its copy are apart. A write to an element is a write to a
storage that the one written through leads to, and the other does not lead
there; and it stays so, unless the value written is itself a part of the
other, or an array with such a part. Arrays are references, so that such a
write joins the two again (`row_shared_again`).

Copying follows the nesting down to the number of storages, which is enough
for an array none of whose storages lies inside itself (`Heap.Nests`); in the
machines a session reaches that is so of every array.

Key definitions: `Heap.Nests`, `Heap.Writes`, `Heap.Spares`, `Heap.Aside`.
Key theorems: `Heap.Nests.exists_layout`, `Heap.Has.forms_copyTo`,
`Heap.Aside.writes`, `copies_are_detached`.
-/
import Treewalk.Proofs.Layout

namespace Treewalk
namespace Heap

open Relation

variable {h g k : Heap} {t : Layout} {a b id root : StorageId} {d : Nat} {v : Value}

/-! ### Arrays whose nesting ends -/

/-- The storages that a storage leads to are there, hold single values, and none of them lies inside
itself. -/
structure Nests (h : Heap) (id : StorageId) : Prop where
  there : ∀ {b}, ReflTransGen h.Contains id b → b < h.size
  single : ∀ {b v}, ReflTransGen h.Contains id b → v ∈ (h.get b).items → v.isMulti = false
  acyclic : ∀ {b}, ReflTransGen h.Contains id b → ¬ TransGen h.Contains b b

theorem Nests.inner (hn : h.Nests a) (hab : h.Contains a b) : h.Nests b where
  there hbc := hn.there (.head hab hbc)
  single hbc := hn.single (.head hab hbc)
  acyclic hbc := hn.acyclic (.head hab hbc)

theorem nests_of_acyclic (hh : h.Acyclic) (hc : h.Closed) (ha : a < h.size) : h.Nests a where
  there hab := by
    induction hab with
    | refl => exact ha
    | tail _ hbc _ => exact hc _ _ hbc
  single _ hv := by
    have hstored := hc _ _ hv
    rename_i b v _
    cases v with
    | multi vs => exact hstored.elim
    | _ => rfl
  acyclic _ := hh _

/-- An array whose nesting ends has a layout, with no more levels than it leads to storages. -/
theorem Nests.exists_layout : ∀ (n : Nat) {a : StorageId}, h.Nests a → h.rank a ≤ n →
    ∃ t : Layout, h.Has t ∧ t.value = .array a ∧ t.shape.height ≤ n := by
  intro n
  induction n with
  | zero =>
    intro a hn hrank
    exact absurd (rank_pos (hn.there .refl)) (Nat.not_lt_of_le hrank)
  | succ n ih =>
    intro a hn hrank
    have hitems : ∀ v ∈ (h.get a).items.toList,
        ∃ u : Layout, h.Has u ∧ u.value = v ∧ u.shape.height ≤ n := by
      intro v hv
      have hv := Array.mem_toList_iff.mp hv
      have hsingle := hn.single .refl hv
      cases v with
      | array b =>
        have hlt := rank_lt_of_contains (hn.acyclic .refl) hv
        exact ih (hn.inner hv) (Nat.le_of_lt_succ (Nat.lt_of_lt_of_le hlt hrank))
      | multi vs => cases hsingle
      | _ => exact ⟨.leaf _, has_leaf (by rfl), rfl, Nat.zero_le _⟩
    have : Nonempty Layout := ⟨.leaf .nil⟩
    choose! layout hhas hvalue hheight using hitems
    have hvalues : ((h.get a).items.toList.map layout).map Layout.value =
        (h.get a).items.toList := by
      rw [List.map_map]
      exact (List.map_congr_left hvalue).trans (List.map_id _)
    refine ⟨.node a (h.get a).elem (h.get a).size ((h.get a).items.toList.map layout), ?_, rfl, ?_⟩
    · refine has_node.mpr ⟨?_, List.forall_mem_map.mpr hhas⟩
      rw [hvalues, get?_of_lt (hn.there .refl)]
    · rw [Layout.shape, Shape.height, Layout.shapes_eq]
      refine Nat.succ_le_succ (Shape.heights_le_iff.mpr ?_)
      exact List.forall_mem_map.mpr (List.forall_mem_map.mpr hheight)

/-! ### Copying -/

theorem formsAll_copyItems : ∀ (ts : List Layout) {g : Heap} (done : Array Value),
    (∀ t ∈ ts, ∀ {g : Heap}, g.Has t → g.Forms t.shape (g.copyTo d t.value)) →
    (∀ t ∈ ts, g.Has t) →
    g.FormsAll done (ts.map Layout.shape) ((ts.map Layout.value).foldl (copyItem d) (done, g)) := by
  intro ts
  induction ts with
  | nil => intro g done _ _; exact formsAll_nil g done
  | cons t ts ih =>
    intro g done hcopy hhas
    obtain ⟨hcopy₁, hcopies⟩ := List.forall_mem_cons.mp hcopy
    obtain ⟨ht, hts⟩ := List.forall_mem_cons.mp hhas
    have hext := extends_copyTo d g t.value
    exact (hcopy₁ ht).cons (ih _ hcopies fun u hu => (hts u hu).extends hext)

/-- **A copy has the shape of what is copied,** in new storages that are all different. -/
theorem Has.forms_copyTo (ht : h.Has t) (hd : t.shape.height ≤ d) :
    h.Forms t.shape (h.copyTo d t.value) := by
  induction t using Layout.induction generalizing h d with
  | leaf v =>
    cases v with
    | array id => cases ht
    | multi vs => cases ht
    | _ => cases d <;> exact forms_leaf rfl
  | node id elem size items ih =>
    obtain ⟨hget, hitems⟩ := has_node.mp ht
    rw [Layout.shape, Shape.height, Layout.shapes_eq] at hd
    obtain ⟨e, rfl⟩ : ∃ e, d = e + 1 := ⟨d - 1, by omega⟩
    have hheights := Shape.heights_le_iff.mp (Nat.le_of_succ_le_succ hd)
    have hcopies := formsAll_copyItems items #[]
      (fun u hu {_} hhas => ih u hu hhas (hheights _ (List.mem_map_of_mem hu))) hitems
    rw [Layout.value, copyTo_array, get_of_get? hget, List.toList_toArray, Layout.shape,
      Layout.shapes_eq]
    exact hcopies.newArray elem size

/-! ### Writing through one of two arrays -/

/-- What becomes of the heap by writes to elements that the array `root` leads to, of values that
may be written, and by new storages. -/
inductive Writes (may : Heap → Value → Prop) (root : StorageId) (h : Heap) : Heap → Prop
  | start : Writes may root h h
  | alloc {g : Heap} (s : Storage) : Writes may root h g → Writes may root h (g.alloc s).2
  | write {g k : Heap} {id : StorageId} {index : Int} {v : Value} : Writes may root h g →
    ReflTransGen g.Contains root id → may g v → g.write id index v = .ok k → Writes may root h k

/-- The value leads to storages that are there, and to none that `other` leads to. -/
def Spares (other : StorageId) (g : Heap) (v : Value) : Prop :=
  ∀ a, v = .array a → ∀ b, ReflTransGen g.Contains a b →
    b < g.size ∧ ¬ ReflTransGen g.Contains other b

theorem write_ok {index : Int} (hw : h.write id index v = .ok k) :
    ∃ i, (h.get id).position index = .ok i ∧ k = h.put id i v := by
  unfold write at hw
  cases hp : (h.get id).position index with
  | ok i =>
    rw [hp] at hw
    cases hw
    exact ⟨i, rfl, rfl⟩
  | error f =>
    rw [hp] at hw
    cases hw

theorem reaches_put {i : Nat} (hab : ReflTransGen (h.put id i v).Contains a b) :
    ReflTransGen h.Contains a b ∨ ∃ c, v = .array c ∧ ReflTransGen h.Contains c b := by
  induction hab with
  | refl => exact .inl .refl
  | tail _ hxy ih =>
    rcases mem_put hxy with ⟨-, hy⟩ | hxy
    · exact .inr ⟨_, hy.symm, .refl⟩
    · refine ih.imp (fun hx => hx.tail hxy) ?_
      rintro ⟨c, hc, hx⟩
      exact ⟨c, hc, hx.tail hxy⟩

theorem reaches_alloc {s : Storage} (hthere : ∀ b, ReflTransGen h.Contains a b → b < h.size)
    (hab : ReflTransGen (h.alloc s).2.Contains a b) : ReflTransGen h.Contains a b := by
  induction hab with
  | refl => exact .refl
  | tail _ hxy ih =>
    rw [Contains, get_alloc_of_lt (hthere _ ih)] at hxy
    exact ih.tail hxy

/-- The heap has the layout, and `root` leads to no storage of it. -/
structure Aside (g : Heap) (root : StorageId) (t : Layout) : Prop where
  has : g.Has t
  room : t.shape.height ≤ g.size
  there : ∀ b, ReflTransGen g.Contains root b → b < g.size
  apart : ∀ b, ReflTransGen g.Contains root b → b ∉ t.storages

namespace Aside

theorem alloc (hg : g.Aside root t) (s : Storage) : (g.alloc s).2.Aside root t where
  has := hg.has.extends (g.extends_newArray s)
  room := by
    rw [size_alloc]
    exact Nat.le_succ_of_le hg.room
  there b hb := by
    rw [size_alloc]
    exact Nat.lt_succ_of_lt (hg.there b (reaches_alloc hg.there hb))
  apart b hb := hg.apart b (reaches_alloc hg.there hb)

theorem put {i : Nat} (hg : g.Aside root t) (hid : ReflTransGen g.Contains root id)
    (hv : ∀ c, v = .array c → ∀ b, ReflTransGen g.Contains c b → b < g.size ∧ b ∉ t.storages) :
    (g.put id i v).Aside root t := by
  have hreach : ∀ b, ReflTransGen (g.put id i v).Contains root b → b < g.size ∧ b ∉ t.storages := by
    intro b hb
    rcases reaches_put hb with hb | ⟨c, hc, hb⟩
    · exact ⟨hg.there b hb, hg.apart b hb⟩
    · exact hv c hc b hb
  refine ⟨hg.has.congr fun a ha => ?_, ?_, fun b hb => ?_, fun b hb => (hreach b hb).2⟩
  · have hne : id ≠ a := by
      rintro rfl
      exact hg.apart id hid ha
    rw [get?_put, if_neg hne]
  · rw [size_put]
    exact hg.room
  · rw [size_put]
    exact (hreach b hb).1

/-- **What lies aside stays as it is** under all writes that keep it aside. -/
theorem writes (hg : g.Aside root t) {other : StorageId} (ht : t.value = .array other)
    (hw : g.Writes (Spares other) root k) : k.Aside root t := by
  induction hw with
  | start => exact hg
  | alloc s _ ih => exact ih.alloc s
  | @write k k' id index v _ hid hmay hwrite ih =>
    obtain ⟨i, -, hput⟩ := write_ok hwrite
    rw [hput]
    refine ih.put hid fun c hc b hb => ?_
    rw [ih.has.mem_storages_iff ht]
    exact hmay c hc b hb

/-- Two layouts without a common storage. -/
theorem of_disjoint {u : Layout} (ht : g.Has t) (hroom : t.shape.height ≤ g.size) (hu : g.Has u)
    (hv : u.value = .array root) (hne : ∀ a ∈ u.storages, a ∉ t.storages) : g.Aside root t where
  has := ht
  room := hroom
  there _ hb := hu.lt_size ((hu.mem_storages_iff hv).mpr hb)
  apart b hb := hne b ((hu.mem_storages_iff hv).mpr hb)

theorem text_eq (hg : g.Aside root t) : g.text t.value = t.shape.text := hg.has.text_eq hg.room

end Aside

end Heap

/-- In the machines a session reaches the nesting of every array ends. -/
theorem Machine.Reached.nests {config : Config} {Q : Program → Prop} {m : Machine}
    (hm : m.Reached config Q) {id : StorageId} (hid : id < m.heap.size) : m.heap.Nests id := by
  have hformed := formed_of_reached hm
  refine Heap.nests_of_acyclic hformed.acyclic (fun a v hv => ?_) hid
  exact hformed.values (.storage a) v hv

open Heap

/-- **A copy is equal and detached.** A copy of an array whose nesting ends has a layout of the same
shape as that of the array, so that element types, sizes and all other values are the same at every
depth, pointers among them, and so are its text and its type. Its storages are new and all
different, and the heap before is unchanged. From then on, whatever sequence of elements is written
through the one, what is seen through the other stays the same, as long as the values written do not
lead to a storage of the other. -/
theorem copies_are_detached {h g : Heap} {id : StorageId} {v : Value} (hid : h.Nests id)
    (hcopy : h.copy (.array id) = (v, g)) :
    ∃ (t t' : Layout) (root : StorageId), v = .array root ∧
      (h.Has t ∧ t.value = .array id) ∧ (g.Has t' ∧ t'.value = .array root) ∧
      t'.shape = t.shape ∧ g.text v = h.text (.array id) ∧
      (∀ fs : Frames, fs.typeLabel g v = fs.typeLabel h (.array id)) ∧
      t'.storages.Nodup ∧ (∀ a ∈ t'.storages, h.size ≤ a) ∧ h.Extends g ∧
      (∀ k, g.Writes (Spares id) root k → k.Has t ∧ k.text (.array id) = h.text (.array id)) ∧
      ∀ k, g.Writes (Spares root) id k → k.Has t' ∧ k.text v = h.text (.array id) := by
  obtain ⟨t, ht, hvalue, hheight⟩ := Nests.exists_layout h.size hid (h.rank_le_size id)
  have hforms := ht.forms_copyTo hheight
  rw [hvalue] at hforms
  change h.Forms t.shape (h.copy (.array id)) at hforms
  rw [hcopy] at hforms
  obtain ⟨t', hvalue', hshape, hsep, hext⟩ := hforms
  obtain ⟨ht', hnodup, hnew⟩ := hsep.single
  obtain ⟨root, hroot, htype⟩ := ht.exists_root ht' hvalue hshape
  have htext : h.text (.array id) = t.shape.text := hvalue ▸ ht.text_eq hheight
  have hroom := Nat.le_trans hheight hext.size
  have hold : ∀ a ∈ t.storages, a < h.size := fun a ha => ht.lt_size ha
  -- the storages of the one are old, those of the other new
  have haside : g.Aside root t := .of_disjoint (ht.extends hext) hroom ht' hroot fun a ha hat =>
    Nat.not_lt_of_le (hnew a ha) (hold a hat)
  have haside' : g.Aside id t' := .of_disjoint ht' (hshape ▸ hroom) (ht.extends hext) hvalue
    fun a ha hat => Nat.not_lt_of_le (hnew a hat) (hold a ha)
  obtain rfl : v = .array root := hvalue'.symm.trans hroot
  refine ⟨t, t', root, rfl, ⟨ht, hvalue⟩, ⟨ht', hroot⟩, hshape, ?_, fun fs => ?_, hnodup, hnew, hext,
    fun k hk => ?_, fun k hk => ?_⟩
  · rw [htext, ← hshape, ← hroot, haside'.text_eq]
  · exact congrArg Ty.label htype
  · have hk := haside.writes hvalue hk
    rw [htext, ← hvalue, hk.text_eq]
    exact ⟨hk.has, rfl⟩
  · have hk := haside'.writes hroot hk
    rw [htext, ← hroot, hk.text_eq, hshape]
    exact ⟨hk.has, rfl⟩

/-- A program with an array of one row. -/
def column : Program :=
  let o := Position.origin
  ⟨[.varDecl [⟨"column", o⟩] (some (.array (.int "1" o) (.array (.int "1" o) .int32))) [] o]⟩

def afterColumn : Machine := Machine.initial.executeParsed ⟨{}, ""⟩ ⟨column, []⟩

/-- The array of the program, over the storage 1, and a copy of it, over the storage 3. -/
def columns : Heap :=
  ⟨#[⟨.int32, 1, #[.int 0]⟩, ⟨.array 1 .int32, 1, #[.array 0]⟩,
    ⟨.int32, 1, #[.int 0]⟩, ⟨.array 1 .int32, 1, #[.array 2]⟩]⟩

theorem nests_column : afterColumn.heap.Nests 1 := by
  have hm : afterColumn.Reached ⟨{}, ""⟩ fun _ => True :=
    .idle (.executed ⟨column, []⟩ trivial .initial)
  exact hm.nests (by decide +kernel)

theorem copy_column : afterColumn.heap.copy (.array 1) = (.array 3, columns) := rfl

theorem column_copy_is_detached :
    afterColumn.heap.Nests 1 ∧ afterColumn.heap.copy (.array 1) = (.array 3, columns) ∧
      ∃ k, columns.Writes (Spares 1) 3 k ∧ k.text (.array 1) = "[[0]]" ∧
        k.text (.array 3) = "[[9]]" := by
  have hin : columns.Contains 3 2 := by simp [Contains, Heap.get, Heap.get?, columns]
  have hwrite : columns.write 2 0 (.int 9) = .ok (columns.put 2 0 (.int 9)) := rfl
  have hw : columns.Writes (Spares 1) 3 (columns.put 2 0 (.int 9)) := by
    refine .write .start (.single hin) ?_ hwrite
    rintro a ⟨⟩
  obtain ⟨_, _, _, ⟨⟩, -, -, -, -, -, -, -, -, hkept, -⟩ :=
    copies_are_detached nests_column copy_column
  refine ⟨nests_column, copy_column, _, hw, (hkept _ hw).2, ?_⟩
  decide +kernel

/-- A row of the array that is written into the copy is then shared: a later write through the copy
is seen through the array. -/
theorem row_shared_again :
    afterColumn.heap.Nests 1 ∧ afterColumn.heap.copy (.array 1) = (.array 3, columns) ∧
      columns.text (.array 1) = "[[0]]" ∧
      ∃ k, columns.Writes (fun _ _ => True) 3 k ∧ k.text (.array 1) = "[[9]]" := by
  have hin : (columns.put 3 0 (.array 0)).Contains 3 0 := by
    simp [Contains, Heap.get, Heap.get?, Heap.put, columns]
  have hjoin : columns.write 3 0 (.array 0) = .ok (columns.put 3 0 (.array 0)) := rfl
  have hwrite : (columns.put 3 0 (.array 0)).write 0 0 (.int 9) =
      .ok ((columns.put 3 0 (.array 0)).put 0 0 (.int 9)) := rfl
  have hw : columns.Writes (fun _ _ => True) 3 ((columns.put 3 0 (.array 0)).put 0 0 (.int 9)) :=
    .write (.write .start .refl trivial hjoin) (.single hin) trivial hwrite
  exact ⟨nests_column, copy_column, by decide +kernel, _, hw, by decide +kernel⟩

end Treewalk
