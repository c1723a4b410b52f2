/-
# Kinds and what is kept under them

A variable has a kind from its declaration on, and an element that of the
element type of its storage. What is written to either is of that kind, nil,
or at least of the kind of what it replaces; a variable declared without a
type from nil also takes pointers.

Zero values and copies have the kinds they should have, whatever the heap.

The sizes in a type are integers of the language, so that there is a greatest
one.

Key definitions: `Kind.Fits`, `Kind.Holds`, `Slot.Takes`, `Storage.Uniform`,
`Storage.TakesAt`, `Ty.IsSized`.
Key theorems: `Kind.holds_of_coerce`, `Slot.takes_of_coerce`, `Heap.fits_zero`,
`Storage.Uniform.fillItems`, `Storage.Uniform.copies`.
-/
import Treewalk.Proofs.Slots

namespace Treewalk

/-- The value is nil or of the kind. -/
def Kind.Fits (k : Kind) (v : Value) : Prop := v = .nil ∨ v.kind = k

/-- What a variable of the kind may hold. -/
def Kind.Holds (k : Kind) (v : Value) : Prop := k.Fits v ∨ k = .nil ∧ v.kind = .pointer

/-- A value that may be written over the content of a variable. -/
def Slot.Takes (s : Slot) (v : Value) : Prop := s.kind.Holds v ∨ v.kind = s.value.kind

/-- All elements are nil or of the kind of the element type. -/
def Storage.Uniform (s : Storage) : Prop := ∀ v ∈ s.items, s.elem.kind.Fits v

/-- A value that may be written over an element. -/
def Storage.TakesAt (s : Storage) (i : Nat) (v : Value) : Prop :=
  s.elem.kind.Fits v ∨ ∃ w, s.items[i]? = some w ∧ v.kind = w.kind

/-- The greatest size of an array: sizes are integers. -/
def maxSize : Nat := Int32.maxValue.toInt.toNat

/-- The sizes of the arrays that values of the type are made of are integers. -/
def Ty.IsSized : Ty → Prop
  | .array size elem => size ≤ maxSize ∧ elem.IsSized
  | _ => True

theorem toNat_le_maxSize (n : Int32) : n.toInt.toNat ≤ maxSize := by
  have h := Int32.toInt_le n
  have hmax : Int32.maxValue.toInt = 2 ^ 31 - 1 := rfl
  unfold maxSize
  omega

theorem Value.isNil_iff {v : Value} : v.isNil = true ↔ v = .nil := by
  cases v <;> simp [Value.isNil]

theorem Value.kind_eq_nil {v : Value} : v.kind = .nil ↔ v = .nil := by
  cases v <;> simp [Value.kind]

theorem Ty.kind_ne_nil (t : Ty) : t.kind ≠ .nil := by cases t <;> simp [Ty.kind]

theorem Ty.fits_of_accepts {t : Ty} {v : Value} (h : t.accepts v = true) : t.kind.Fits v := by
  unfold Ty.accepts at h
  split at h
  · exact .inl rfl
  · exact .inr (beq_iff_eq.mp h).symm

namespace Kind

variable {k : Kind} {v w : Value}

theorem Fits.of_kind_eq (h : k.Fits v) (he : w.kind = v.kind) : k.Fits w := by
  rcases h with rfl | h
  · exact .inl (Value.kind_eq_nil.mp he)
  · exact .inr (he.trans h)

theorem Holds.of_kind_eq (h : k.Holds v) (he : w.kind = v.kind) : k.Holds w := by
  rcases h with h | ⟨hk, hv⟩
  · exact .inl (h.of_kind_eq he)
  · exact .inr ⟨hk, he.trans hv⟩

theorem holds_of_coerce (h : k.coerce v = some w) : k.Holds w := by
  unfold Kind.coerce at h
  split at h
  · cases h; exact .inl (.inl rfl)
  · cases h; exact .inl (.inr rfl)
  · cases h; exact .inr ⟨rfl, rfl⟩
  · split at h
    · rename_i hk
      cases h
      exact .inl (.inr hk.symm)
    · cases h

end Kind

theorem Ty.fits_of_coerce {t : Ty} {v w : Value} (h : t.kind.coerce v = some w) : t.kind.Fits w := by
  rcases Kind.holds_of_coerce h with hf | ⟨hk, -⟩
  · exact hf
  · exact absurd hk t.kind_ne_nil

/-- What is coerced to the kind of a slot may be written there. So it is with the kind of the
content, where the slot has none of its own. -/
theorem Slot.takes_of_coerce {s : Slot} {k : Kind} {v w : Value}
    (hk : k = s.kind ∨ s.kind = .nil ∧ k = s.value.kind) (h : k.coerce v = some w) : s.Takes w := by
  rcases hk with rfl | ⟨hnil, rfl⟩
  · exact .inl (Kind.holds_of_coerce h)
  · rcases Kind.holds_of_coerce h with (rfl | hw) | ⟨-, hw⟩
    · exact .inl (.inl (.inl rfl))
    · exact .inr hw
    · exact .inl (.inr ⟨hnil, hw⟩)

/-- A variable that holds what it may goes on doing so. -/
theorem Slot.Takes.holds {s : Slot} {v : Value} (h : s.Takes v) (hs : s.kind.Holds s.value) :
    s.kind.Holds v := by
  rcases h with h | h
  · exact h
  · exact hs.of_kind_eq h

theorem Storage.TakesAt.fits {s : Storage} {i : Nat} {v : Value} (h : s.TakesAt i v)
    (hs : s.Uniform) : s.elem.kind.Fits v := by
  rcases h with h | ⟨w, hw, hk⟩
  · exact h
  · exact (hs w (Array.mem_of_getElem? hw)).of_kind_eq hk

/-! ### Zero values -/

namespace Heap

theorem fits_zero (t : Ty) (h : Heap) : t.kind.Fits (zero t h).1 := by
  cases t with
  | pointer _ => exact .inl rfl
  | _ => exact .inr rfl

/-- What is made one after the other was there or is the result of a step. -/
theorem mem_make {step : Heap → Value × Heap} {v : Value} : ∀ (n : Nat) (made : Array Value)
    (h : Heap), v ∈ (make step n made h).1 → v ∈ made ∨ ∃ h', v = (step h').1
  | 0, _, _, hv => .inl hv
  | n + 1, made, h, hv => by
    rcases mem_make n _ _ hv with hv | hv
    · rcases Array.mem_push.mp hv with hv | rfl
      · exact .inl hv
      · exact .inr ⟨h, rfl⟩
    · exact .inr hv

end Heap

theorem Storage.Uniform.fillItems {elem : Ty} {size : Nat} {items : Array Value} (h : Heap)
    (hi : ∀ v ∈ items, elem.kind.Fits v) :
    Storage.Uniform ⟨elem, size, (h.fillItems elem size items).1⟩ := by
  intro v hv
  rcases Heap.mem_make _ _ _ hv with hv | ⟨h', rfl⟩
  · exact hi v hv
  · exact Heap.fits_zero elem h'

theorem Storage.uniform_zeros (elem : Ty) (size : Nat) (h : Heap) :
    Storage.Uniform ⟨elem, size, (Heap.make (Heap.zero elem) size #[] h).1⟩ := by
  intro v hv
  rcases Heap.mem_make _ _ _ hv with hv | ⟨h', rfl⟩
  · simp at hv
  · exact Heap.fits_zero elem h'

/-! ### Copies -/

namespace Heap

theorem kind_copyTo (depth : Nat) (h : Heap) (v : Value) : (h.copyTo depth v).1.kind = v.kind := by
  cases depth <;> cases v <;> rfl

/-- A copy among copies was there or has the kind of what it was made from. -/
theorem mem_copies {depth : Nat} {w : Value} : ∀ (vs : List Value) (made : Array Value) (h : Heap),
    w ∈ (vs.foldl (fun (items, h) v =>
      let (w, h) := Heap.copyTo depth h v
      (items.push w, h)) (made, h)).1 → w ∈ made ∨ ∃ v ∈ vs, w.kind = v.kind
  | [], _, _, hw => .inl hw
  | v :: vs, made, h, hw => by
    rcases mem_copies vs _ _ hw with hw | ⟨u, hu, hk⟩
    · rcases Array.mem_push.mp hw with hw | rfl
      · exact .inl hw
      · exact .inr ⟨v, by simp, kind_copyTo depth h v⟩
    · exact .inr ⟨u, by simp [hu], hk⟩

end Heap

/-- The copies of elements are as uniform as the elements. -/
theorem Storage.Uniform.copies {s : Storage} (hs : s.Uniform) (depth : Nat) (h : Heap) :
    Storage.Uniform { s with items := (s.items.toList.foldl (fun (items, h) v =>
      let (w, h) := Heap.copyTo depth h v
      (items.push w, h)) (#[], h)).1 } := by
  intro w hw
  rcases Heap.mem_copies _ _ _ hw with hw | ⟨v, hv, hk⟩
  · simp at hw
  · exact (hs v (by simpa using hv)).of_kind_eq hk

end Treewalk
