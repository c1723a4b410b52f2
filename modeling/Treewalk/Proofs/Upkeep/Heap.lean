/-
# New arrays keep every discipline

Zero values, literals and copies only make new storages, one after the other,
out of values that may be held at that moment. Each is followed through the
heap by what it has made so far.

Key definitions: `Discipline.Makes`, `Discipline.Item`.
Key theorems: `Discipline.makes_zero`, `Discipline.makes_copy`,
`Discipline.keeps_newArray`.
-/
import Treewalk.Proofs.Upkeep.Place

namespace Treewalk
namespace Discipline

variable {D : Discipline} {R : Regime} {k : Mode} {m : Machine} {pos : Position}

/-- A heap that goes on from the memory, and a value in it. -/
structure Makes (D : Discipline) (μ : Memory) (v : Value) (h : Heap) : Prop where
  inv : D.Inv { μ with heap := h }
  later : D.Later μ { μ with heap := h }
  val : D.Val { μ with heap := h } v

/-- A heap that goes on from the memory, and as many values in it. -/
structure MakesAll (D : Discipline) (μ : Memory) (n : Nat) (vs : Array Value) (h : Heap) :
    Prop where
  inv : D.Inv { μ with heap := h }
  later : D.Later μ { μ with heap := h }
  vals : ∀ v ∈ vs, D.Val { μ with heap := h } v
  size : vs.size = n

theorem MakesAll.push {μ : Memory} {n : Nat} {vs : Array Value} {h h' : Heap} {v : Value}
    (hs : D.MakesAll μ n vs h) (hv : D.Makes { μ with heap := h } v h') :
    D.MakesAll μ (n + 1) (vs.push v) h' where
  inv := hv.inv
  later := D.trans hs.later hv.later
  vals w hw := by
    rcases Array.mem_push.mp hw with hw | rfl
    · exact D.val_later hv.later (hs.vals w hw)
    · exact hv.val
  size := by simp [hs.size]

theorem MakesAll.newArray {μ : Memory} {n : Nat} {vs : Array Value} {h : Heap} {s : Storage}
    (hs : D.MakesAll μ n vs h) (hi : s.items = vs) (hf : D.Fits s.size n)
    (hu : D.mixes ∨ s.Uniform) : D.Makes μ (h.newArray s).1 (h.newArray s).2 := by
  obtain ⟨h1, h2, h3⟩ := D.alloc (μ := { μ with heap := h }) (s := s) hs.inv
    (by rw [hi]; exact hs.vals) (by rw [hi, hs.size]; exact hf) hu
  exact ⟨h1, D.trans hs.later h2, h3⟩

/-! ### Zero values -/

theorem makesAll_make {step : Heap → Value × Heap} {μ : Memory}
    (hstep : ∀ h, D.Inv { μ with heap := h } →
      D.Makes { μ with heap := h } (step h).1 (step h).2) :
    ∀ (n c : Nat) (made : Array Value) (h : Heap), D.MakesAll μ c made h →
      D.MakesAll μ (c + n) (Heap.make step n made h).1 (Heap.make step n made h).2
  | 0, _, _, _, hm => hm
  | n + 1, c, made, h, hm => by
    have := makesAll_make hstep n (c + 1) _ _ (hm.push (hstep h hm.inv))
    rwa [Nat.add_right_comm] at this

theorem makes_zero : ∀ (t : Ty) {μ : Memory}, t.IsSized → D.Inv μ →
    D.Makes μ (Heap.zero t μ.heap).1 (Heap.zero t μ.heap).2
  | .int32, _, _, h => ⟨h, D.refl _, D.val_plain rfl⟩
  | .float32, _, _, h => ⟨h, D.refl _, D.val_plain rfl⟩
  | .bool, _, _, h => ⟨h, D.refl _, D.val_plain rfl⟩
  | .string, _, _, h => ⟨h, D.refl _, D.val_plain rfl⟩
  | .rune, _, _, h => ⟨h, D.refl _, D.val_plain rfl⟩
  | .pointer _, _, _, h => ⟨h, D.refl _, D.val_plain rfl⟩
  | .array size elem, μ, ht, h => by
    have hs := makesAll_make (μ := μ) (fun _ h => makes_zero elem ht.2 h) size 0 #[] μ.heap
      ⟨h, D.refl _, by simp, rfl⟩
    rw [Nat.zero_add] at hs
    exact hs.newArray (s := ⟨elem, size, _⟩) rfl (D.fits_self ht.1)
      (.inr (Storage.uniform_zeros elem size μ.heap))

/-- Elements filled up to a size. -/
theorem makesAll_fillItems {μ : Memory} {elem : Ty} {size : Nat} {items : Array Value}
    (ht : elem.IsSized) (h : D.Inv μ) (hv : ∀ v ∈ items, D.Val μ v) (hs : items.size ≤ size) :
    D.MakesAll μ size (μ.heap.fillItems elem size items).1 (μ.heap.fillItems elem size items).2 := by
  have := makesAll_make (μ := μ) (fun _ h => makes_zero elem ht h) (size - items.size) items.size
    items μ.heap ⟨h, D.refl _, hv, rfl⟩
  rwa [Nat.add_sub_cancel' hs] at this

theorem keeps_onHeap {f : Heap → Value × Heap} (h : D.Inv m.memory)
    (hf : D.Makes m.memory (f m.heap).1 (f m.heap).2) :
    D.Keeps R k (Eval.onHeap f) m D.GivesOne :=
  keeps_modifyGet ⟨.of_eq rfl rfl rfl (Nat.le_refl _) rfl, hf.inv, hf.later⟩ h
    (D.past_heap h hf.later) hf.val

theorem keeps_zero {t : Ty} (ht : t.IsSized) (h : D.Inv m.memory) :
    D.Keeps R k (Eval.zero t) m fun v m' => D.Val m'.memory v ∧ t.kind.Fits v :=
  (keeps_onHeap h (makes_zero t ht h)).and fun _ _ hr => by
    cases hr
    exact Heap.fits_zero t m.heap

/-! ### Copies -/

/-- The copies of elements, behind those already made. -/
theorem makesAll_copies {μ : Memory} {depth : Nat} : ∀ (vs : List Value) (c : Nat)
    (made : Array Value) (g : Heap),
    (∀ w ∈ vs, ∀ g, D.Inv { μ with heap := g } → D.Later μ { μ with heap := g } →
      D.Makes { μ with heap := g } (g.copyTo depth w).1 (g.copyTo depth w).2) →
    D.MakesAll μ c made g →
    D.MakesAll μ (c + vs.length)
      (vs.foldl (fun (items, h) v =>
        let (w, h) := Heap.copyTo depth h v
        (items.push w, h)) (made, g)).1
      (vs.foldl (fun (items, h) v =>
        let (w, h) := Heap.copyTo depth h v
        (items.push w, h)) (made, g)).2
  | [], _, _, _, _, hm => hm
  | w :: vs, c, made, g, hw, hm => by
    have hc := hw w (by simp) g hm.inv hm.later
    have := makesAll_copies vs (c + 1) _ _ (fun u hu => hw u (by simp [hu])) (hm.push hc)
    rwa [Nat.add_right_comm, Nat.add_assoc] at this

/-- A copy of an array, given the copies of its elements. -/
theorem makes_copyTo_array {μ : Memory} {depth : Nat} {id : StorageId} (h : D.Inv μ)
    (hitems : ∀ w ∈ (μ.heap.get id).items, ∀ g, D.Inv { μ with heap := g } →
      D.Later μ { μ with heap := g } →
      D.Makes { μ with heap := g } (g.copyTo depth w).1 (g.copyTo depth w).2)
    (hf : D.Fits (μ.heap.get id).size (μ.heap.get id).items.size)
    (hu : D.mixes ∨ (μ.heap.get id).Uniform) :
    D.Makes μ (μ.heap.copyTo (depth + 1) (.array id)).1
      (μ.heap.copyTo (depth + 1) (.array id)).2 := by
  have hs := makesAll_copies (μ := μ) (μ.heap.get id).items.toList 0 #[] μ.heap
    (fun w hw => hitems w (by simpa using hw)) ⟨h, D.refl _, by simp, rfl⟩
  have hcopies := hu.imp_right fun hu => hu.copies depth μ.heap
  rw [Nat.zero_add, Array.length_toList] at hs
  simp only [Array.foldl_toList] at hs hcopies
  exact hs.newArray (s := { μ.heap.get id with items := _ }) rfl hf hcopies

theorem makes_copyTo : ∀ (depth : Nat) (v : Value) {μ : Memory}, D.Inv μ → D.Val μ v →
    D.Makes μ (μ.heap.copyTo depth v).1 (μ.heap.copyTo depth v).2
  | 0, v, _, h, hv => by
    cases v <;> exact ⟨h, D.refl _, hv⟩
  | depth + 1, .array id, μ, h, hv => by
    refine makes_copyTo_array h (fun w hw g hg hl => ?_) (D.fits_get h hv) (D.uniform_get h hv)
    exact makes_copyTo depth w (μ := { μ with heap := g }) hg (D.val_later hl (D.val_item h hv hw))
  | _ + 1, .nil, _, h, hv => ⟨h, D.refl _, hv⟩
  | _ + 1, .int _, _, h, hv => ⟨h, D.refl _, hv⟩
  | _ + 1, .float _, _, h, hv => ⟨h, D.refl _, hv⟩
  | _ + 1, .bool _, _, h, hv => ⟨h, D.refl _, hv⟩
  | _ + 1, .str _, _, h, hv => ⟨h, D.refl _, hv⟩
  | _ + 1, .rune _, _, h, hv => ⟨h, D.refl _, hv⟩
  | _ + 1, .pointer _ _, _, h, hv => ⟨h, D.refl _, hv⟩
  | _ + 1, .multi _, _, h, hv => ⟨h, D.refl _, hv⟩

theorem makes_copy {v : Value} {μ : Memory} (h : D.Inv μ) (hv : D.Val μ v) :
    D.Makes μ (μ.heap.copy v).1 (μ.heap.copy v).2 :=
  makes_copyTo _ v h hv

theorem keeps_copy {v : Value} (h : D.Inv m.memory) (hv : D.Val m.memory v) :
    D.Keeps R k (Eval.copy v) m D.GivesOne :=
  keeps_onHeap h (makes_copy h hv)

/-- A value that is several at once is copied as it is, whether or not it may be held. -/
theorem keeps_copy_multi {vs : List Value} (h : D.Inv m.memory) :
    D.Keeps R k (Eval.copy (.multi vs)) m fun w _ => w = .multi vs := by
  have hcopy : m.heap.copy (.multi vs) = (.multi vs, m.heap) := by
    cases hs : m.heap.size <;> simp [Heap.copy, Heap.copyTo, hs]
  refine keeps_modifyGet ?_ h ?_ ?_
  · simp only [hcopy]
    exact .refl h
  · simp only [hcopy]
    exact D.past_refl _
  · simp only [hcopy]

/-! ### Array literals -/

/-- An element for an array: it may be held, and it is of the element type, or others are allowed. -/
structure Item (D : Discipline) (elem : Ty) (μ : Memory) (v : Value) : Prop where
  val : D.Val μ v
  fits : D.mixes ∨ elem.kind.Fits v

theorem mem_of_mem_take {items : Array Value} {n : Nat} {v : Value} (h : v ∈ items.take n) :
    v ∈ items := by
  obtain ⟨i, hi, rfl⟩ := Array.mem_extract_iff_getElem.mp h
  exact Array.getElem_mem _

theorem keeps_newArray {size : Nat} {elem : Ty} {items : Array Value}
    (ht : (Ty.array size elem).IsSized) (h : D.Inv m.memory)
    (hv : ∀ v ∈ items, D.Item elem m.memory v) :
    D.Keeps R k (Eval.newArray size elem items pos) m
      fun v m' => D.Val m'.memory v ∧ v.kind = .array := by
  have huni : ∀ h : Heap, D.mixes ∨
      Storage.Uniform ⟨elem, size, (h.fillItems elem size (items.take size)).1⟩ := fun h => by
    by_cases hm : D.mixes
    · exact .inl hm
    · exact .inr (.fillItems h fun v hi => (hv v (mem_of_mem_take hi)).fits.resolve_left hm)
  have hmake : ∀ m', D.Leads m m' → D.Keeps R k (Eval.arrayOf size elem (items.take size) pos) m'
      fun v m' => D.Val m'.memory v ∧ v.kind = .array := fun m' hl => by
    have hle : (items.take size).size ≤ size := by
      rw [Array.take_eq_extract, Array.size_extract]
      omega
    have hs := makesAll_fillItems ht.2 hl.inv
      (fun v hm => hl.val (hv v (mem_of_mem_take hm)).val) hle
    have hnew := hs.newArray (s := ⟨elem, size, _⟩) rfl (D.fits_self ht.1) (huni m'.heap)
    refine keeps_get_bind hl.inv ?_
    rw [Heap.fill_take]
    refine (keeps_lift (P := fun r m₁ => m₁ = m' ∧ r = _) hl.inv fun r hr =>
      ⟨rfl, (Except.ok.inj hr).symm⟩).bind ?_
    rintro ⟨id, heap⟩ m₁ - ⟨rfl, ⟨⟩⟩
    refine (keeps_modify (P := fun _ m₂ => D.Val m₂.memory (.array _))
      ⟨.of_eq rfl rfl rfl (Nat.le_refl _) rfl, hnew.inv, hnew.later⟩ hl.inv
      (D.past_heap hl.inv hnew.later) hnew.val).bind fun _ m₂ hl₂ hid => ?_
    exact keeps_pure hl₂.inv ⟨hid, rfl⟩
  unfold Eval.newArray
  by_cases hs : size < items.size
  · simp only [if_pos hs]
    exact (keeps_report h).bind fun _ m' hl _ => hmake m' hl
  · simp only [if_neg hs]
    exact hmake m (.refl h)

end Discipline
end Treewalk
