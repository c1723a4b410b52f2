/-
# The heap

Arrays live in numbered storages, which are shared by all values that refer
to them. A storage has an element type, a declared size and its elements.
Storages nest: an element may refer to a further storage. Functions that
follow the nesting are bounded by the number of storages, which is enough
when no storage lies inside itself.

Key definitions: `Heap`, `Heap.alloc`, `Heap.zero`, `Heap.read`,
`Heap.write`, `Heap.copy`, `Heap.holds`, `Heap.text`, `Heap.same`.
-/
import Treewalk.Value

namespace Treewalk

structure Storage where
  elem : Ty
  size : Nat
  items : Array Value
  deriving Inhabited

structure Heap where
  storages : Array Storage
  deriving Inhabited

namespace Storage

/-- The type of the arrays a storage holds. -/
def type (s : Storage) : Ty := .array s.size s.elem

/-- The place of an index among the elements. -/
def position (s : Storage) (index : Int) : Except ValueFault Nat :=
  if 0 ≤ index ∧ index < s.items.size then .ok index.toNat
  else .error (.outOfRange index s.items.size)

/-- The element at an index. -/
def read (s : Storage) (index : Int) : Except ValueFault Value := do
  let i ← s.position index
  return s.items.getD i .nil

end Storage

namespace Heap

def empty : Heap := ⟨#[]⟩

def size (h : Heap) : Nat := h.storages.size

def get? (h : Heap) (id : StorageId) : Option Storage := h.storages[id]?

/-- A storage; that of no array is empty. -/
def get (h : Heap) (id : StorageId) : Storage := (h.get? id).getD ⟨.int32, 0, #[]⟩

/-- A new storage. -/
def alloc (h : Heap) (s : Storage) : StorageId × Heap := (h.storages.size, ⟨h.storages.push s⟩)

/-- An array value over a new storage. -/
def newArray (h : Heap) (s : Storage) : Value × Heap :=
  let (id, h) := h.alloc s
  (.array id, h)

@[simp] theorem size_alloc (h : Heap) (s : Storage) : (h.alloc s).2.size = h.size + 1 := by
  simp [alloc, size]

@[simp] theorem get?_alloc_self (h : Heap) (s : Storage) :
    (h.alloc s).2.get? (h.alloc s).1 = some s := by
  simp [alloc, get?]

theorem get?_alloc_of_lt (h : Heap) (s : Storage) {id : StorageId} (lt : id < h.size) :
    (h.alloc s).2.get? id = h.get? id := by
  simp only [alloc, get?, size] at *
  rw [Array.getElem?_push_lt lt, Array.getElem?_eq_getElem lt]

/-- `n` values made one after the other, behind those already made. -/
def make (step : Heap → Value × Heap) : Nat → Array Value → Heap → Array Value × Heap
  | 0, made, h => (made, h)
  | n + 1, made, h =>
    let (v, h) := step h
    make step n (made.push v) h

/-- The value of a variable of the type that was given none. All its arrays are new. -/
def zero : Ty → Heap → Value × Heap
  | .int32, h => (.int 0, h)
  | .float32, h => (.float 0, h)
  | .bool, h => (.bool false, h)
  | .string, h => (.str "", h)
  | .rune, h => (.rune 0, h)
  | .array size elem, h =>
    let (items, h) := make (zero elem) size #[] h
    h.newArray ⟨elem, size, items⟩
  | .pointer _, h => (.nil, h)

/-- The given elements, filled up with zero values to a size. -/
def fillItems (h : Heap) (elem : Ty) (size : Nat) (items : Array Value) : Array Value × Heap :=
  make (zero elem) (size - items.size) items h

/-- A storage with the given first elements, filled up with zero values. -/
def fill (h : Heap) (elem : Ty) (size : Nat) (items : Array Value) :
    Except ValueFault (StorageId × Heap) :=
  if size < items.size then .error (.tooManyElements size items.size)
  else
    let (items, h) := h.fillItems elem size items
    .ok (h.alloc ⟨elem, size, items⟩)

/-- There is room for the elements that are within the size. -/
theorem fill_take (h : Heap) (elem : Ty) (size : Nat) (items : Array Value) :
    h.fill elem size (items.take size) =
      let made := h.fillItems elem size (items.take size)
      .ok (made.2.alloc ⟨elem, size, made.1⟩) := by
  have hroom : ¬ size < (items.take size).size := by
    rw [Array.take_eq_extract, Array.size_extract]
    omega
  rw [fill, if_neg hroom]

/-- The element of a storage at an index. -/
def read (h : Heap) (id : StorageId) (index : Int) : Except ValueFault Value :=
  (h.get id).read index

/-- Puts a value into a storage. -/
def put (h : Heap) (id : StorageId) (i : Nat) (v : Value) : Heap :=
  ⟨h.storages.modify id fun s => { s with items := s.items.setIfInBounds i v }⟩

/-- Writes the element of a storage at an index. -/
def write (h : Heap) (id : StorageId) (index : Int) (v : Value) : Except ValueFault Heap := do
  let i ← (h.get id).position index
  return h.put id i v

/-- The text of a value, with `depth` levels of nested arrays. -/
def textTo : Nat → Heap → Value → String
  | 0, _, v => v.textWith fun _ => "[]"
  | depth + 1, h, v =>
    v.textWith fun id =>
      "[" ++ " ".intercalate ((h.get id).items.toList.map (h.textTo depth)) ++ "]"

/-- The text of a value: elements in brackets, separated by blanks. -/
def text (h : Heap) (v : Value) : String := h.textTo h.size v

/-- Whether two values are the same, with `depth` levels of nested arrays. -/
def sameTo : Nat → Heap → Value → Value → Bool
  | 0, _, v, w => v.sameWith (· == ·) w
  | depth + 1, h, v, w =>
    v.sameWith (fun a b => a == b || itemsSame (h.sameTo depth) (h.get a) (h.get b)) w
where
  /-- Whether two storages hold the same elements. -/
  itemsSame (same : Value → Value → Bool) (s t : Storage) : Bool :=
    s.items.size == t.items.size && (s.items.zip t.items).all fun (v, w) => same v w

/-- Whether two values are the same. Arrays are if their storage is, or all elements are. -/
def same (h : Heap) (v w : Value) : Bool := h.sameTo h.size v w

/-- Whether two storages agree in element type, size and elements. -/
def sameStorage (h : Heap) (a b : StorageId) : Bool :=
  let s := h.get a
  let t := h.get b
  s.elem == t.elem && s.size == t.size && sameTo.itemsSame h.same s t

/-- A copy of a value, with `depth` levels of nested arrays copied to new storages. -/
def copyTo : Nat → Heap → Value → Value × Heap
  | depth + 1, h, .array id =>
    let s := h.get id
    let (items, h) := s.items.foldl (fun (items, h) v =>
      let (w, h) := copyTo depth h v
      (items.push w, h)) (#[], h)
    h.newArray { s with items }
  | _, h, v => (v, h)

/-- A copy of a value that shares no storage with it. -/
def copy (h : Heap) (v : Value) : Value × Heap := h.copyTo h.size v

/-- Whether the storage `target` lies within `depth` levels inside the storage `id`. -/
def holdsTo : Nat → Heap → StorageId → StorageId → Bool
  | 0, _, _, _ => false
  | depth + 1, h, id, target =>
    (h.get id).items.any fun
      | .array inner => inner == target || h.holdsTo depth inner target
      | _ => false

/-- Whether the storage `target` lies inside the storage `id`, at any depth. -/
def holds (h : Heap) (id target : StorageId) : Bool := h.holdsTo h.size id target

end Heap

end Treewalk
