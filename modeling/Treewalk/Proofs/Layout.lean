/-
# How an array lies in the heap

What is seen through a value is a tree: an array shows its element type, its
size and what is seen through each of its elements, any other value shows
itself. That tree is the `Shape` of the value. A `Layout` is the same tree
with the storage of every array in it; a heap has a layout (`Heap.Has`) if the
storages are there and hold what the layout says. A layout is finite, so only
values whose nesting ends have one.

Whether a heap has a layout depends on the storages of the layout alone
(`Heap.Has.congr`), and those are the storages the value leads to
(`Heap.Has.mem_storages_iff`). Its text and its levels are those of the shape
(`Heap.Has.textTo_eq`).

Layouts that share no storage, neither among each other nor within
themselves, are `Heap.Separate`. New values are built in that way: elements
one after the other (`Heap.Separate.append`), and a storage over them
(`Heap.Separate.newArray`).

Key definitions: `Shape`, `Layout`, `Heap.Has`, `Heap.Separate`, `Ty.zeroShape`.
Key theorems: `Heap.Has.congr`, `Heap.Has.mem_storages_iff`,
`Heap.Has.textTo_eq`, `Heap.Separate.append`, `Heap.Separate.newArray`,
`Heap.forms_zero`.
-/
import Treewalk.Proofs.Unfolding

namespace Treewalk

/-- A single value that is no array. -/
def Value.isLeaf : Value → Bool
  | .array _ | .multi _ => false
  | _ => true

/-- What is seen through a value. -/
inductive Shape where
  | leaf (v : Value)
  | node (elem : Ty) (size : Nat) (items : List Shape)

namespace Shape

mutual

/-- The number of levels of arrays. -/
def height : Shape → Nat
  | leaf _ => 0
  | node _ _ items => heights items + 1

/-- The number of levels of the highest of several. -/
def heights : List Shape → Nat
  | [] => 0
  | s :: ss => max s.height (heights ss)

end

mutual

/-- The text that is shown: elements in brackets, separated by blanks. -/
def text : Shape → String
  | leaf v => v.textWith fun _ => "[]"
  | node _ _ items => "[" ++ " ".intercalate (texts items) ++ "]"

/-- The texts of several. -/
def texts : List Shape → List String
  | [] => []
  | s :: ss => s.text :: texts ss

end

theorem texts_eq : ∀ ss : List Shape, texts ss = ss.map text
  | [] => rfl
  | s :: ss => by rw [texts, texts_eq ss, List.map_cons]

theorem heights_le_iff {n : Nat} : ∀ {ss : List Shape}, heights ss ≤ n ↔ ∀ s ∈ ss, s.height ≤ n
  | [] => by simp [heights]
  | s :: ss => by simp [heights, heights_le_iff]

end Shape

/-- What is seen through a value, and where its arrays lie. -/
inductive Layout where
  | leaf (v : Value)
  | node (id : StorageId) (elem : Ty) (size : Nat) (items : List Layout)

namespace Layout

/-- The value that lies so. -/
def value : Layout → Value
  | leaf v => v
  | node id .. => .array id

mutual

def shape : Layout → Shape
  | leaf v => .leaf v
  | node _ elem size items => .node elem size (shapes items)

def shapes : List Layout → List Shape
  | [] => []
  | t :: ts => t.shape :: shapes ts

end

mutual

/-- The storages of all arrays, as often as they occur. -/
def storages : Layout → List StorageId
  | leaf _ => []
  | node id _ _ items => id :: storagesOf items

def storagesOf : List Layout → List StorageId
  | [] => []
  | t :: ts => t.storages ++ storagesOf ts

end

theorem shapes_eq : ∀ ts : List Layout, shapes ts = ts.map shape
  | [] => rfl
  | t :: ts => by rw [shapes, shapes_eq ts, List.map_cons]

theorem storagesOf_eq : ∀ ts : List Layout, storagesOf ts = ts.flatMap storages
  | [] => rfl
  | t :: ts => by rw [storagesOf, storagesOf_eq ts, List.flatMap_cons]

theorem mem_storagesOf {ts : List Layout} {a : StorageId} :
    a ∈ storagesOf ts ↔ ∃ t ∈ ts, a ∈ t.storages := by
  rw [storagesOf_eq, List.mem_flatMap]

theorem storagesOf_append (ts us : List Layout) :
    storagesOf (ts ++ us) = storagesOf ts ++ storagesOf us := by
  simp only [storagesOf_eq, List.flatMap_append]

theorem storagesOf_take_sublist (ts : List Layout) (k : Nat) :
    (storagesOf (ts.take k)).Sublist (storagesOf ts) := by
  have happend := storagesOf_append (ts.take k) (ts.drop k)
  rw [List.take_append_drop] at happend
  rw [happend]
  exact List.sublist_append_left _ _

theorem storagesOf_singleton (t : Layout) : storagesOf [t] = t.storages := List.append_nil _

mutual

/-- What holds of leaves, and of an array if it does of all its elements, holds of all layouts. -/
theorem induction {P : Layout → Prop} (leaf : ∀ v, P (.leaf v))
    (node : ∀ id elem size items, (∀ t ∈ items, P t) → P (.node id elem size items)) :
    ∀ t, P t
  | .leaf v => leaf v
  | .node id elem size items => node id elem size items (inductionAll leaf node items)

theorem inductionAll {P : Layout → Prop} (leaf : ∀ v, P (.leaf v))
    (node : ∀ id elem size items, (∀ t ∈ items, P t) → P (.node id elem size items)) :
    ∀ ts : List Layout, ∀ t ∈ ts, P t
  | [] => List.forall_mem_nil _
  | t :: ts => List.forall_mem_cons.mpr ⟨induction leaf node t, inductionAll leaf node ts⟩

end

end Layout

namespace Heap

open Relation

variable {h g : Heap} {t : Layout} {ts us : List Layout} {a b id : StorageId} {n d size : Nat}
  {elem : Ty}

/-! ### Heaps that have a layout -/

mutual

/-- The arrays of the layout are in the heap, with the elements it says. -/
def Has (h : Heap) : Layout → Prop
  | .leaf v => v.isLeaf = true
  | .node id elem size items =>
    h.get? id = some ⟨elem, size, (items.map Layout.value).toArray⟩ ∧ h.HasAll items

/-- The heap has several layouts. -/
def HasAll (h : Heap) : List Layout → Prop
  | [] => True
  | t :: ts => h.Has t ∧ h.HasAll ts

end

theorem hasAll_iff : ∀ {ts : List Layout}, h.HasAll ts ↔ ∀ t ∈ ts, h.Has t
  | [] => by simp [HasAll]
  | t :: ts => by rw [HasAll, hasAll_iff, List.forall_mem_cons]

theorem has_node : h.Has (.node id elem size ts) ↔
    h.get? id = some ⟨elem, size, (ts.map Layout.value).toArray⟩ ∧ ∀ t ∈ ts, h.Has t := by
  rw [Has, hasAll_iff]

theorem has_leaf {v : Value} (hv : v.isLeaf = true) : h.Has (.leaf v) := hv

/-- A layout is had by every heap that agrees on its storages. -/
theorem Has.congr (hsame : ∀ a ∈ t.storages, g.get? a = h.get? a) (ht : h.Has t) : g.Has t := by
  induction t using Layout.induction with
  | leaf v => exact ht
  | node id elem size items ih =>
    obtain ⟨hget, hitems⟩ := has_node.mp ht
    refine has_node.mpr ⟨(hsame id List.mem_cons_self).trans hget, fun t ht => ?_⟩
    refine ih t ht (fun a ha => hsame a ?_) (hitems t ht)
    exact List.mem_cons_of_mem _ (Layout.mem_storagesOf.mpr ⟨t, ht, ha⟩)

theorem Has.lt_size (ht : h.Has t) (ha : a ∈ t.storages) : a < h.size := by
  induction t using Layout.induction with
  | leaf v => cases ha
  | node id elem size items ih =>
    obtain ⟨hget, hitems⟩ := has_node.mp ht
    rcases List.mem_cons.mp ha with rfl | ha
    · exact lt_size_of_get? hget
    · obtain ⟨t, ht, ha⟩ := Layout.mem_storagesOf.mp ha
      exact ih t ht (hitems t ht) ha

theorem Has.storedIn (ht : h.Has t) : t.value.StoredIn h.size := by
  cases t with
  | leaf v => cases v <;> trivial
  | node id elem size items => exact lt_size_of_get? (has_node.mp ht).1

theorem Extends.get? (hg : h.Extends g) (ha : a < h.size) : g.get? a = h.get? a := by
  rw [get?_of_lt ha, get?_of_lt (Nat.lt_of_lt_of_le ha hg.size), hg.get a ha]

theorem Has.extends (ht : h.Has t) (hg : h.Extends g) : g.Has t :=
  ht.congr fun _ ha => hg.get? (ht.lt_size ha)

/-! ### Where a layout leads -/

theorem contains_of_get? {ts : List Layout}
    (hget : h.get? id = some ⟨elem, size, (ts.map Layout.value).toArray⟩) :
    h.Contains id b ↔ ∃ t ∈ ts, t.value = .array b := by
  rw [Contains, get_of_get? hget, List.mem_toArray, List.mem_map]

theorem Has.exists_node (ht : h.Has t) (hv : t.value = .array a) :
    ∃ elem size items, t = .node a elem size items := by
  cases t with
  | leaf v =>
    rw [show v = .array a from hv] at ht
    cases ht
  | node id elem size items =>
    cases hv
    exact ⟨elem, size, items, rfl⟩

/-- What has the shape of an array is an array of the same type. -/
theorem Has.exists_root {u : Layout} (ht : h.Has t) (hu : g.Has u) (hv : t.value = .array a)
    (hs : u.shape = t.shape) : ∃ b, u.value = .array b ∧ (g.get b).type = (h.get a).type := by
  obtain ⟨elem, size, items, rfl⟩ := ht.exists_node hv
  cases u with
  | leaf v => cases hs
  | node b elem' size' items' =>
    injection hs with helem hsize
    refine ⟨b, rfl, ?_⟩
    rw [get_of_get? (has_node.mp ht).1, get_of_get? (has_node.mp hu).1, helem, hsize]
    rfl

/-- What lies inside a storage of a layout is a storage of the layout. -/
theorem Has.closed (ht : h.Has t) (ha : a ∈ t.storages) (hab : h.Contains a b) :
    b ∈ t.storages := by
  induction t using Layout.induction with
  | leaf v => cases ha
  | node id elem size items ih =>
    obtain ⟨hget, hitems⟩ := has_node.mp ht
    refine List.mem_cons_of_mem _ (Layout.mem_storagesOf.mpr ?_)
    rcases List.mem_cons.mp ha with rfl | ha
    · obtain ⟨u, hu, hv⟩ := (contains_of_get? hget).mp hab
      obtain ⟨_, _, _, rfl⟩ := (hitems u hu).exists_node hv
      exact ⟨_, hu, List.mem_cons_self⟩
    · obtain ⟨u, hu, ha⟩ := Layout.mem_storagesOf.mp ha
      exact ⟨u, hu, ih u hu (hitems u hu) ha⟩

theorem Has.reaches (ht : h.Has t) (hv : t.value = .array a) (hb : b ∈ t.storages) :
    ReflTransGen h.Contains a b := by
  induction t using Layout.induction generalizing a with
  | leaf v => cases hb
  | node id elem size items ih =>
    cases hv
    obtain ⟨hget, hitems⟩ := has_node.mp ht
    rcases List.mem_cons.mp hb with rfl | hb
    · exact .refl
    · obtain ⟨u, hu, hb⟩ := Layout.mem_storagesOf.mp hb
      cases u with
      | leaf v => cases hb
      | node c elem' size' items' =>
        have hac : h.Contains id c := (contains_of_get? hget).mpr ⟨_, hu, rfl⟩
        exact .head hac (ih _ hu (hitems _ hu) rfl hb)

/-- **The storages of a layout** are those its array leads to. -/
theorem Has.mem_storages_iff (ht : h.Has t) (hv : t.value = .array a) :
    b ∈ t.storages ↔ ReflTransGen h.Contains a b := by
  refine ⟨ht.reaches hv, fun hab => ?_⟩
  induction hab with
  | refl =>
    obtain ⟨_, _, _, rfl⟩ := ht.exists_node hv
    exact List.mem_cons_self
  | tail _ hbc ih => exact ht.closed ih hbc

/-- The text of a value, followed deep enough, is that of its shape. -/
theorem Has.textTo_eq (ht : h.Has t) (hd : t.shape.height ≤ d) :
    h.textTo d t.value = t.shape.text := by
  induction t using Layout.induction generalizing d with
  | leaf v =>
    cases v with
    | array id => cases ht
    | multi vs => cases ht
    | _ => cases d <;> rfl
  | node id elem size items ih =>
    obtain ⟨hget, hitems⟩ := has_node.mp ht
    rw [Layout.shape, Shape.height, Layout.shapes_eq] at hd
    obtain ⟨e, rfl⟩ : ∃ e, d = e + 1 := ⟨d - 1, by omega⟩
    have hheights := Shape.heights_le_iff.mp (Nat.le_of_succ_le_succ hd)
    have htexts : (h.get id).items.toList.map (h.textTo e) = items.map (Shape.text ∘ Layout.shape) := by
      rw [get_of_get? hget, List.toList_toArray, List.map_map]
      refine List.map_congr_left fun u hu => ?_
      exact ih u hu (hitems u hu) (hheights _ (List.mem_map_of_mem hu))
    rw [Layout.shape, Shape.text, Shape.texts_eq, Layout.shapes_eq, List.map_map, ← htexts]
    rfl

theorem Has.text_eq (ht : h.Has t) (hs : t.shape.height ≤ h.size) :
    h.text t.value = t.shape.text :=
  ht.textTo_eq hs

/-- The type of an array is shown as its shape says. -/
theorem Has.typeLabel_eq {ss : List Shape} (ht : h.Has t) (hs : t.shape = .node elem size ss)
    (fs : Frames) : fs.typeLabel h t.value = (Ty.array size elem).label := by
  cases t with
  | leaf v => cases hs
  | node id elem' size' items =>
    injection hs with helem hsize
    have hget : h.get id = ⟨elem', size', _⟩ := get_of_get? (has_node.mp ht).1
    have hlabel : fs.typeLabel h (.array id) = (h.get id).type.label := rfl
    rw [Layout.value, hlabel, hget, ← helem, ← hsize]
    rfl

/-! ### Layouts that share nothing -/

/-- The heap has the layouts, and no storage is met twice in them. All are numbered from `n` on. -/
structure Separate (h : Heap) (n : Nat) (ts : List Layout) : Prop where
  has : ∀ t ∈ ts, h.Has t
  nodup : (Layout.storagesOf ts).Nodup
  new : ∀ a ∈ Layout.storagesOf ts, n ≤ a

theorem Separate.nil : h.Separate n [] :=
  ⟨List.forall_mem_nil _, List.nodup_nil, List.forall_mem_nil _⟩

theorem Separate.leaf {v : Value} (hv : v.isLeaf = true) : h.Separate n [.leaf v] :=
  ⟨List.forall_mem_singleton.mpr (has_leaf hv), List.nodup_nil, List.forall_mem_nil _⟩

theorem Separate.single (ht : h.Separate n [t]) :
    h.Has t ∧ t.storages.Nodup ∧ ∀ a ∈ t.storages, n ≤ a := by
  have hnodup := ht.nodup
  have hnew := ht.new
  rw [Layout.storagesOf_singleton] at hnodup hnew
  exact ⟨ht.has t List.mem_cons_self, hnodup, hnew⟩

theorem Separate.lt_size (hts : h.Separate n ts) (ha : a ∈ Layout.storagesOf ts) : a < h.size := by
  obtain ⟨t, ht, ha⟩ := Layout.mem_storagesOf.mp ha
  exact (hts.has t ht).lt_size ha

theorem Separate.congr (hts : h.Separate n ts)
    (hsame : ∀ a ∈ Layout.storagesOf ts, g.get? a = h.get? a) : g.Separate n ts := by
  refine ⟨fun t ht => (hts.has t ht).congr fun a ha => hsame a ?_, hts.nodup, hts.new⟩
  exact Layout.mem_storagesOf.mpr ⟨t, ht, ha⟩

theorem Separate.extends (hts : h.Separate n ts) (hg : h.Extends g) : g.Separate n ts :=
  hts.congr fun _ ha => hg.get? (hts.lt_size ha)

theorem Separate.take (hts : h.Separate n ts) (k : Nat) : h.Separate n (ts.take k) := by
  have hsub := Layout.storagesOf_take_sublist ts k
  exact ⟨fun t ht => hts.has t (List.mem_of_mem_take ht), hts.nodup.sublist hsub,
    fun a ha => hts.new a (hsub.subset ha)⟩

/-- Layouts, and others in later storages. -/
theorem Separate.append {k : Nat} (hts : h.Separate n ts) (hus : h.Separate k us)
    (hlt : ∀ a ∈ Layout.storagesOf ts, a < k) (hn : n ≤ k) : h.Separate n (ts ++ us) := by
  refine ⟨List.forall_mem_append.mpr ⟨hts.has, hus.has⟩, ?_, ?_⟩
  · rw [Layout.storagesOf_append]
    refine List.nodup_append.mpr ⟨hts.nodup, hus.nodup, fun a ha b hb hab => ?_⟩
    have hbk : b < k := hab ▸ hlt a ha
    exact absurd (hus.new b hb) (Nat.not_le_of_lt hbk)
  · rw [Layout.storagesOf_append]
    refine List.forall_mem_append.mpr ⟨hts.new, fun a ha => ?_⟩
    exact Nat.le_trans hn (hus.new a ha)

/-- A new storage over the values of layouts. -/
theorem Separate.newArray (hts : h.Separate n ts) (hn : n ≤ h.size) (elem : Ty) (size : Nat) :
    (h.newArray ⟨elem, size, (ts.map Layout.value).toArray⟩).2.Separate n
      [.node h.size elem size ts] := by
  have hg := h.extends_newArray ⟨elem, size, (ts.map Layout.value).toArray⟩
  have hself := h.get?_alloc_self ⟨elem, size, (ts.map Layout.value).toArray⟩
  refine ⟨?_, ?_, ?_⟩
  · exact List.forall_mem_singleton.mpr (has_node.mpr ⟨hself, (hts.extends hg).has⟩)
  · rw [Layout.storagesOf_singleton]
    refine List.nodup_cons.mpr ⟨fun hmem => ?_, hts.nodup⟩
    exact Nat.lt_irrefl _ (hts.lt_size hmem)
  · rw [Layout.storagesOf_singleton]
    exact List.forall_mem_cons.mpr ⟨hn, hts.new⟩

/-! ### New values -/

/-- A value of the shape has been made in new storages, and those before are as they were. -/
def Forms (h : Heap) (s : Shape) (made : Value × Heap) : Prop :=
  ∃ t : Layout, t.value = made.1 ∧ t.shape = s ∧ made.2.Separate h.size [t] ∧ h.Extends made.2

/-- Values of the shapes have been made in new storages, behind those already made. -/
def FormsAll (h : Heap) (done : Array Value) (ss : List Shape) (made : Array Value × Heap) : Prop :=
  ∃ ts : List Layout, made.1.toList = done.toList ++ ts.map Layout.value ∧
    ts.map Layout.shape = ss ∧ made.2.Separate h.size ts ∧ h.Extends made.2

theorem forms_leaf {v : Value} (hv : v.isLeaf = true) : h.Forms (.leaf v) (v, h) :=
  ⟨.leaf v, rfl, rfl, .leaf hv, .refl h⟩

theorem formsAll_nil (h : Heap) (done : Array Value) : h.FormsAll done [] (done, h) :=
  ⟨[], by simp, rfl, .nil, .refl h⟩

/-- One value, and then others. -/
theorem Forms.cons {s : Shape} {ss : List Shape} {first : Value × Heap} {done : Array Value}
    {rest : Array Value × Heap} (hfirst : h.Forms s first)
    (hrest : first.2.FormsAll (done.push first.1) ss rest) : h.FormsAll done (s :: ss) rest := by
  obtain ⟨t, hvalue, hshape, hsep, hext⟩ := hfirst
  obtain ⟨ts, hvalues, hshapes, hseps, hexts⟩ := hrest
  refine ⟨t :: ts, ?_, by rw [List.map_cons, hshape, hshapes], ?_, hext.trans hexts⟩
  · rw [hvalues, Array.toList_push, List.append_assoc, List.map_cons, hvalue]
    rfl
  · exact (hsep.extends hexts).append hseps (fun a ha => hsep.lt_size ha) hext.size

/-- A storage over new values. -/
theorem FormsAll.newArray {ss : List Shape} {made : Array Value × Heap}
    (hmade : h.FormsAll #[] ss made) (elem : Ty) (size : Nat) :
    h.Forms (.node elem size ss) (made.2.newArray ⟨elem, size, made.1⟩) := by
  obtain ⟨ts, hvalues, rfl, hsep, hext⟩ := hmade
  have hitems : made.1 = (ts.map Layout.value).toArray := Array.toList_inj.mp hvalues
  rw [hitems]
  refine ⟨.node made.2.size elem size ts, rfl, ?_, hsep.newArray hext.size elem size, ?_⟩
  · rw [Layout.shape, Layout.shapes_eq]
  · exact hext.trans (extends_newArray _ _)

theorem formsAll_make {step : Heap → Value × Heap} {s : Shape}
    (hstep : ∀ h : Heap, h.Forms s (step h)) : ∀ (n : Nat) (done : Array Value) (h : Heap),
      h.FormsAll done (List.replicate n s) (make step n done h) := by
  intro n
  induction n with
  | zero => intro done h; exact formsAll_nil h done
  | succ n ih => intro done h; exact (hstep h).cons (ih _ _)

end Heap

/-- What is seen through the zero value of a type. -/
def Ty.zeroShape : Ty → Shape
  | .array size elem => .node elem size (List.replicate size elem.zeroShape)
  | t => .leaf (Heap.zero t .empty).1

/-- **The zero value of a type** has its shape, in new storages that are all different. -/
theorem Heap.forms_zero : ∀ (t : Ty) (h : Heap), h.Forms t.zeroShape (zero t h)
  | .int32, _ | .float32, _ | .bool, _ | .string, _ | .rune, _ | .pointer _, _ => forms_leaf rfl
  | .array size elem, h => (formsAll_make (forms_zero elem) size #[] h).newArray elem size

end Treewalk
