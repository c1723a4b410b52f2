/-
# Arrays inside arrays

An element of a storage may be an array, and so storages lie inside each
other. The heap is acyclic when none lies inside itself; then the number of
storages inside a storage, itself among them, is a rank that falls with each
level (`Heap.rank_lt`) and is never more than the size of the heap
(`Heap.rank_le_size`). So the functions that follow the nesting to a depth of
that size follow it to its end, and asking whether one storage lies inside
another is enough to keep the heap acyclic (`Heap.Acyclic.put`).

Key definitions: `Heap.Contains`, `Heap.Acyclic`, `Heap.rank`.
Key theorems: `Heap.rank_lt`, `Heap.holds_of_transGen`, `Heap.Acyclic.put`,
`Heap.Acyclic.alloc`.
-/
import Treewalk.Heap
import Mathlib.Data.Finset.Card
import Mathlib.Logic.Relation

namespace Treewalk
namespace Heap

open Relation

variable {h : Heap} {a b id : StorageId} {i : Nat} {v : Value} {s : Storage}

/-! ### Storages after a change -/

theorem get_of_get? (hs : h.get? a = some s) : h.get a = s := by
  rw [get, hs]
  rfl

theorem get?_of_lt (ha : a < h.size) : h.get? a = some (h.get a) := by
  have hs : h.get? a = some h.storages[a] := Array.getElem?_eq_getElem ha
  rw [hs, get_of_get? hs]

theorem lt_size_of_get? (hs : h.get? a = some s) : a < h.size :=
  (Array.getElem?_eq_some_iff.mp hs).1

theorem get_of_size_le (ha : h.size ≤ a) : (h.get a).items = #[] := by
  have hn : h.storages[a]? = none := Array.getElem?_eq_none ha
  simp [get, get?, hn]

theorem lt_size_of_mem (hv : v ∈ (h.get a).items) : a < h.size := by
  rcases Nat.lt_or_ge a h.size with hlt | hge
  · exact hlt
  · simp [get_of_size_le hge] at hv

@[simp] theorem size_put (h : Heap) (id : StorageId) (i : Nat) (v : Value) :
    (h.put id i v).size = h.size := by
  simp [put, size]

theorem get?_put (h : Heap) (id : StorageId) (i : Nat) (v : Value) (j : StorageId) :
    (h.put id i v).get? j =
      if id = j then (h.get? j).map fun s => { s with items := s.items.setIfInBounds i v }
      else h.get? j := by
  simp only [put, get?, Array.getElem?_modify]

theorem get_put_of_ne (hne : a ≠ id) : (h.put id i v).get a = h.get a := by
  rw [get, get?_put, if_neg (Ne.symm hne), get]

/-- The elements after a write are the written one and those before. -/
theorem mem_put {w : Value} (hw : w ∈ ((h.put id i v).get a).items) :
    (a = id ∧ w = v) ∨ w ∈ (h.get a).items := by
  by_cases ha : a = id
  · subst ha
    rw [get, get?_put, if_pos rfl] at hw
    cases hs : h.get? a with
    | none => simp [hs] at hw
    | some s =>
      simp only [hs, Option.map_some, Option.getD_some] at hw
      rcases Array.mem_or_eq_of_mem_setIfInBounds hw with hw | rfl
      · exact .inr (by simpa [get, hs] using hw)
      · exact .inl ⟨rfl, rfl⟩
  · rw [get_put_of_ne ha] at hw
    exact .inr hw

theorem get_alloc_of_lt (hlt : a < h.size) : (h.alloc s).2.get a = h.get a := by
  rw [get, get?_alloc_of_lt h s hlt, get]

/-- The elements after an allocation are those of the new storage and those before. -/
theorem mem_alloc {w : Value} (hw : w ∈ ((h.alloc s).2.get a).items) :
    (a = h.size ∧ w ∈ s.items) ∨ w ∈ (h.get a).items := by
  have hlt := lt_size_of_mem hw
  rw [size_alloc] at hlt
  rcases Nat.lt_or_ge a h.size with ha | ha
  · rw [get_alloc_of_lt ha] at hw
    exact .inr hw
  · have he : a = (h.alloc s).1 := Nat.le_antisymm (Nat.le_of_lt_succ hlt) ha
    rw [he, get, get?_alloc_self] at hw
    exact .inl ⟨he, hw⟩

/-! ### Nesting -/

/-- An element of the storage `a` is an array over the storage `b`. -/
def Contains (h : Heap) (a b : StorageId) : Prop := Value.array b ∈ (h.get a).items

/-- No storage lies inside itself. -/
def Acyclic (h : Heap) : Prop := ∀ a, ¬ TransGen h.Contains a a

/-- A number for each storage that falls with each level. -/
theorem acyclic_of_rank (rank : StorageId → Nat)
    (hr : ∀ a b, h.Contains a b → rank b < rank a) : h.Acyclic := by
  have hlt : ∀ {a b}, TransGen h.Contains a b → rank b < rank a := by
    intro a b hab
    induction hab with
    | single hab => exact hr _ _ hab
    | tail _ hbc ih => exact Nat.lt_trans (hr _ _ hbc) ih
  exact fun a ha => Nat.lt_irrefl _ (hlt ha)

open Classical in
/-- The storages that a storage leads to, itself among them. -/
noncomputable def within (h : Heap) (a : StorageId) : Finset StorageId :=
  (Finset.range h.size).filter (ReflTransGen h.Contains a)

theorem mem_within : b ∈ h.within a ↔ b < h.size ∧ ReflTransGen h.Contains a b := by
  simp [within]

/-- How many storages a storage leads to. -/
noncomputable def rank (h : Heap) (a : StorageId) : Nat := (h.within a).card

theorem rank_le_size (h : Heap) (a : StorageId) : h.rank a ≤ h.size := by
  have hsub : h.within a ⊆ Finset.range h.size := fun b hb =>
    Finset.mem_range.mpr (mem_within.mp hb).1
  simpa [rank] using Finset.card_le_card hsub

theorem rank_pos (ha : a < h.size) : 0 < h.rank a :=
  Finset.card_pos.mpr ⟨a, mem_within.mpr ⟨ha, .refl⟩⟩

theorem rank_lt_of_contains (ha : ¬ TransGen h.Contains a a) (hab : h.Contains a b) :
    h.rank b < h.rank a := by
  refine Finset.card_lt_card ⟨fun c hc => ?_, fun hsub => ?_⟩
  · obtain ⟨hc, hbc⟩ := mem_within.mp hc
    exact mem_within.mpr ⟨hc, .head hab hbc⟩
  · -- `a` leads to itself, and nothing inside it leads back
    have hself := hsub (mem_within.mpr ⟨lt_size_of_mem hab, .refl⟩)
    exact ha (.head' hab (mem_within.mp hself).2)

theorem rank_lt (hh : h.Acyclic) (hab : h.Contains a b) : h.rank b < h.rank a :=
  rank_lt_of_contains (hh a) hab

/-! ### Asking for the nesting -/

theorem holdsTo_of_transGen (hh : h.Acyclic) : ∀ (depth : Nat) {a : StorageId},
    h.rank a ≤ depth → TransGen h.Contains a b → h.holdsTo depth a b = true
  | 0, a, hd, hab => by
    obtain ⟨c, hac, -⟩ := TransGen.head'_iff.mp hab
    have := rank_lt hh hac
    omega
  | depth + 1, a, hd, hab => by
    obtain ⟨c, hac, hcb⟩ := TransGen.head'_iff.mp hab
    have hlt := rank_lt hh hac
    unfold holdsTo
    refine Array.any_eq_true'.mpr ⟨.array c, hac, ?_⟩
    rcases reflTransGen_iff_eq_or_transGen.mp hcb with rfl | hcb
    · simp
    · simp [holdsTo_of_transGen hh depth (by omega) hcb]

/-- The test for nesting finds every storage inside another. -/
theorem holds_of_transGen (hh : h.Acyclic) (hab : TransGen h.Contains a b) :
    h.holds a b = true :=
  holdsTo_of_transGen hh h.size (h.rank_le_size a) hab

/-! ### Changes that keep the heap acyclic -/

/-- A write is safe if the storage written to does not lie inside the array written. -/
theorem Acyclic.put (hh : h.Acyclic)
    (hv : ∀ stored, v = .array stored → stored ≠ id ∧ h.holds stored id = false) :
    (h.put id i v).Acyclic := by
  classical
  -- what leads to the storage is raised above all else
  refine acyclic_of_rank
    (fun a => if ReflTransGen h.Contains a id then h.rank a + (h.size + 1) else h.rank a) ?_
  intro a b hab
  rcases mem_put hab with ⟨rfl, hb⟩ | hab
  · obtain ⟨hne, hno⟩ := hv b hb.symm
    have hout : ¬ ReflTransGen h.Contains b a := by
      intro hba
      rcases reflTransGen_iff_eq_or_transGen.mp hba with hba | hba
      · exact hne hba.symm
      · rw [holds_of_transGen hh hba] at hno
        cases hno
    have hle := h.rank_le_size b
    simp only [if_neg hout, if_pos ReflTransGen.refl]
    omega
  · have hlt := rank_lt hh hab
    by_cases hb : ReflTransGen h.Contains b id
    · simp only [if_pos hb, if_pos (ReflTransGen.head hab hb)]
      omega
    · simp only [if_neg hb]
      split <;> omega

/-- A new storage is safe if all arrays are over storages that were there before. -/
theorem Acyclic.alloc (hh : h.Acyclic) (hold : ∀ a b, h.Contains a b → b < h.size)
    (hs : ∀ b, Value.array b ∈ s.items → b < h.size) : (h.alloc s).2.Acyclic := by
  refine acyclic_of_rank (fun a => if a = h.size then h.size + 1 else h.rank a) ?_
  intro a b hab
  rcases mem_alloc hab with ⟨rfl, hb⟩ | hab
  · have hlt := hs b hb
    have hle := h.rank_le_size b
    simp only [if_pos, if_neg (Nat.ne_of_lt hlt)]
    omega
  · have ha := lt_size_of_mem hab
    simp only [if_neg (Nat.ne_of_lt ha), if_neg (Nat.ne_of_lt (hold a b hab))]
    exact rank_lt hh hab

end Heap
end Treewalk
