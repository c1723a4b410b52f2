/-
# Well-formed memories

Throughout a session the global frame has no frame around it, variables and
elements hold single values whose arrays are there, and no array lies inside
itself. The first needs that only frames are closed that were opened since,
the last that a write looks whether it would close a circle.

Key definitions: `Value.StoredIn`, `Memory.Formed`, `Discipline.formed`.
Key theorems: `formed_of_reached`.
-/
import Treewalk.Proofs.Cell
import Treewalk.Proofs.Reached

namespace Treewalk

/-- A single value; if it is an array, one of the first `n` storages is its own. -/
def Value.StoredIn (n : Nat) : Value → Prop
  | .array id => id < n
  | .multi _ => False
  | _ => True

theorem Value.StoredIn.mono {n k : Nat} {v : Value} (h : v.StoredIn n) (hk : n ≤ k) :
    v.StoredIn k := by
  cases v with
  | array id => exact Nat.lt_of_lt_of_le h hk
  | _ => exact h

/-- The global frame, the variables and the storages are as a session keeps them. -/
structure Memory.Formed (μ : Memory) : Prop where
  global : μ.frames.parent? Frames.globalId = some none
  values : ∀ c v, μ.Holds v c → v.StoredIn μ.heap.size
  acyclic : μ.heap.Acyclic

namespace Memory.Formed

variable {μ ν : Memory} {f parent owner : FrameId} {id : StorageId} {name : String} {v : Value}

theorem initial : Formed ⟨.initial, .empty⟩ := by
  refine ⟨rfl, AllHold.initial, ?_⟩
  refine Heap.acyclic_of_rank (fun _ => 0) fun a b hab => ?_
  exact absurd hab (not_holds_initial (c := .storage a))

theorem set (h : Formed μ) (hv : v.StoredIn μ.heap.size) : Formed (μ.set owner name v) where
  global := by
    rw [Memory.set, Frames.parent?_setLocal]
    exact h.global
  values := AllHold.set h.values hv
  acyclic := h.acyclic

theorem bind {slot : Slot} {entry : Nat} (h : Formed μ) (hv : slot.value.StoredIn μ.heap.size) :
    Formed (μ.bind f name slot entry) where
  global := by
    rw [Memory.bind, Frames.parent?_bindSymbol, Frames.parent?_bind]
    exact h.global
  values := AllHold.bind h.values hv
  acyclic := h.acyclic

theorem put {i : Nat} (h : Formed μ) (hv : v.StoredIn μ.heap.size)
    (hs : ∀ stored, v = .array stored → stored ≠ id ∧ μ.heap.holds stored id = false) :
    Formed (μ.put id i v) where
  global := h.global
  values := by
    rw [Memory.put, Heap.size_put]
    exact AllHold.put h.values hv
  acyclic := h.acyclic.put hs

theorem alloc {s : Storage} (h : Formed μ) (hs : ∀ v ∈ s.items, v.StoredIn μ.heap.size) :
    Formed (μ.alloc s) where
  global := h.global
  values := by
    rw [Memory.alloc, Heap.size_alloc]
    exact (AllHold.alloc h.values hs).imp fun _ hv => hv.mono (Nat.le_succ _)
  acyclic := h.acyclic.alloc (fun a b hab => h.values (.storage a) _ hab) fun b hb => hs _ hb

theorem openIn (h : Formed μ) : Formed (μ.openIn parent) where
  global := by
    have hne := Nat.ne_of_lt (Frames.lt_nextId_of_parent? h.global)
    rw [Memory.openIn, Frames.parent?_openIn, if_neg hne]
    exact h.global
  values := AllHold.openIn h.values
  acyclic := h.acyclic

theorem close (h : Formed ν) (hf : f ≠ Frames.globalId) : Formed (ν.close f) where
  global := by
    rw [Memory.close, Frames.parent?_close, if_neg (Ne.symm hf)]
    exact h.global
  values := AllHold.close h.values
  acyclic := h.acyclic

end Memory.Formed

/-- What evaluation keeps so that memories stay well-formed: it holds single values over storages
that are there, and the heap only grows. -/
def Discipline.formed : Discipline where
  Inv := Memory.Formed
  Later μ ν := μ.heap.size ≤ ν.heap.size
  Val μ v := v.StoredIn μ.heap.size
  refl _ := Nat.le_refl _
  trans := Nat.le_trans
  val_later hl hv := hv.mono hl
  val_plain {_ v} h := by cases v <;> trivial
  val_multi h := h.elim
  val_read h _ hv := by
    obtain ⟨owner, -, hv⟩ := Memory.holds_of_value? hv
    exact h.values _ _ hv
  val_item {_ id _} h _ hv := h.values (.storage id) _ hv
  set h _ hv _ _ := ⟨h.set hv, Nat.le_refl _⟩
  bind h _ _ hv _ := ⟨h.bind hv, Nat.le_refl _⟩
  put h _ hv _ hs _ := ⟨h.put hv hs, by simp [Memory.put]⟩
  alloc h hs _ _ := by
    refine ⟨h.alloc hs, ?_, ?_⟩
    · simp [Memory.alloc]
    · simp [Memory.alloc, Value.StoredIn]
  openIn h _ := ⟨h.openIn, trivial, fun _ hv => hv⟩
  close h hl h' :=
    have hne := Nat.ne_of_gt (Frames.lt_nextId_of_parent? h.global)
    ⟨h'.close hne, hl, fun _ hv => hv⟩

/-- **Every memory a session reaches is well-formed.** -/
theorem formed_of_reached {config : Config} {Q : Program → Prop} {m : Machine}
    (h : m.Reached config Q) : m.memory.Formed := by
  have hr : Discipline.formed.Runs False config.limits m :=
    Discipline.runs_of_reached (fun _ _ hf => hf.elim) .initial trivial h
  exact hr.inv

end Treewalk
