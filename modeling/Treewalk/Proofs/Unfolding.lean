/-
# Arrays unfold to their end

Values are printed, copied, compared and searched by following arrays into
their elements. In a heap where no storage lies inside itself this comes to
an end: the rank of a storage falls with each level, so to follow the nesting
deeper than the rank of a value makes no difference (`Heap.textTo_eq`,
`Heap.sameTo_eq`, `Heap.copyTo_eq`, `Heap.holdsTo_iff`), and no rank is more
than the number of storages, at which these functions stop by themselves.

That no storage ever lies inside itself rests on the check a write to an
element makes. The check is exact: it refuses the writes that would close a
circle and no others (`Heap.not_acyclic_put_iff`, `Eval.write_refused_iff`).

Key definitions: `Heap.Closed`, `Heap.Extends`, `Heap.Unfolds`.
Key theorems: `Heap.unfolds`, `Heap.holds_iff`, `Heap.not_acyclic_put_iff`,
`arrays_never_lie_in_themselves`.
-/
import Treewalk.Proofs.Formed
import Treewalk.Proofs.Outcome

namespace Treewalk
namespace Heap

open Relation

variable {h g k : Heap} {a b id stored : StorageId} {i d e : Nat} {v w : Value} {s : Storage}

/-! ### Closed heaps -/

/-- All elements are single values, and their arrays are over storages that are there. -/
def Closed (h : Heap) : Prop := ∀ a, ∀ v ∈ (h.get a).items, v.StoredIn h.size

/-- The rank of the storage of an array; none for other values. -/
noncomputable def rankOf (h : Heap) : Value → Nat
  | .array id => h.rank id
  | _ => 0

theorem rankOf_le_size (h : Heap) (v : Value) : h.rankOf v ≤ h.size := by
  cases v with
  | array id => exact h.rank_le_size id
  | _ => exact Nat.zero_le _

theorem rankOf_lt (hh : h.Acyclic) (hv : v ∈ (h.get a).items) : h.rankOf v < h.rank a := by
  cases v with
  | array b => exact rank_lt hh hv
  | _ => exact rank_pos (lt_size_of_mem hv)

/-- An array has a level to go down to: a bound on its rank is the successor of one on the ranks of
its elements. -/
theorem rank_le_succ (hh : h.Acyclic) (hid : id < h.size) (hd : h.rank id ≤ d) :
    ∃ e, d = e + 1 ∧ ∀ v ∈ (h.get id).items, h.rankOf v ≤ e := by
  have hpos := rank_pos hid
  refine ⟨d - 1, by omega, fun v hv => ?_⟩
  have hlt := rankOf_lt hh hv
  omega

/-- The storages inside each other are so in a well-founded way: no path goes down for ever. -/
theorem wellFounded_contains (hh : h.Acyclic) : WellFounded fun b a => h.Contains a b :=
  Subrelation.wf (fun hab => rank_lt hh hab) (measure h.rank).wf

/-! ### Printing, comparing and searching -/

theorem textTo_eq (hh : h.Acyclic) (hc : h.Closed) : ∀ (d e : Nat) {v : Value},
    v.StoredIn h.size → h.rankOf v ≤ d → h.rankOf v ≤ e → h.textTo d v = h.textTo e v := by
  intro d
  induction d with
  | zero =>
    intro e v hv hd he
    cases v with
    | array id =>
      have hpos := rank_pos hv
      have hz : h.rank id ≤ 0 := hd
      omega
    | multi vs => exact hv.elim
    | _ => cases e <;> rfl
  | succ d ih =>
    intro e v hv hd he
    cases v with
    | array id =>
      obtain ⟨d', hd', hdi⟩ := rank_le_succ hh hv hd
      obtain ⟨e', rfl, hei⟩ := rank_le_succ hh hv he
      have hitems : (h.get id).items.toList.map (h.textTo d) =
          (h.get id).items.toList.map (h.textTo e') := by
        refine List.map_congr_left fun w hw => ?_
        have hw : w ∈ (h.get id).items := by simpa using hw
        exact ih e' (hc id w hw) (by have := hdi w hw; omega) (hei w hw)
      simp only [textTo, Value.textWith, hitems]
    | multi vs => exact hv.elim
    | _ => cases e <;> rfl

/-- Elements are compared pair by pair, so the comparison may be given for the elements alone. -/
theorem itemsSame_congr {f f' : Value → Value → Bool} {s t : Storage}
    (hf : ∀ v ∈ s.items, ∀ w, f v w = f' v w) :
    sameTo.itemsSame f s t = sameTo.itemsSame f' s t := by
  unfold sameTo.itemsSame
  congr 1
  rw [Bool.eq_iff_iff, Array.all_eq_true', Array.all_eq_true']
  refine forall₂_congr fun (v, w) hx => ?_
  have hz : (v, w) ∈ s.items.toList.zip t.items.toList := by
    rw [← Array.toList_zip]
    exact Array.mem_toList_iff.mpr hx
  have hvw : f v w = f' v w := hf v (Array.mem_toList_iff.mp (List.of_mem_zip hz).1) w
  simp only [hvw]

theorem sameTo_eq (hh : h.Acyclic) (hc : h.Closed) : ∀ (d e : Nat) {v : Value} (w : Value),
    v.StoredIn h.size → h.rankOf v ≤ d → h.rankOf v ≤ e → h.sameTo d v w = h.sameTo e v w := by
  intro d
  induction d with
  | zero =>
    intro e v w hv hd he
    cases v with
    | array id =>
      have hpos := rank_pos hv
      have hz : h.rank id ≤ 0 := hd
      omega
    | multi vs => exact hv.elim
    | _ => cases e <;> cases w <;> rfl
  | succ d ih =>
    intro e v w hv hd he
    cases v with
    | array id =>
      obtain ⟨d', hd', hdi⟩ := rank_le_succ hh hv hd
      obtain ⟨e', rfl, hei⟩ := rank_le_succ hh hv he
      cases w with
      | array b =>
        have hitems : sameTo.itemsSame (h.sameTo d) (h.get id) (h.get b) =
            sameTo.itemsSame (h.sameTo e') (h.get id) (h.get b) := by
          refine itemsSame_congr fun u hu w => ?_
          exact ih e' w (hc id u hu) (by have := hdi u hu; omega) (hei u hu)
        simp only [sameTo, Value.sameWith, hitems]
      | _ => rfl
    | multi vs => exact hv.elim
    | _ => cases e <;> cases w <;> rfl

theorem transGen_of_holdsTo : ∀ (d : Nat) {a : StorageId}, h.holdsTo d a b = true →
    TransGen h.Contains a b := by
  intro d
  induction d with
  | zero => intro a ha; cases ha
  | succ d ih =>
    intro a ha
    obtain ⟨v, hv, hb⟩ := Array.any_eq_true'.mp ha
    cases v with
    | array c =>
      rcases Bool.or_eq_true_iff.mp hb with hb | hb
      · rw [eq_of_beq hb] at hv
        exact .single hv
      · exact .head hv (ih hb)
    | _ => cases hb

/-- The search for a storage, deep enough, finds those that lie inside and no others. -/
theorem holdsTo_iff (hh : h.Acyclic) (hd : h.rank a ≤ d) :
    h.holdsTo d a b = true ↔ TransGen h.Contains a b :=
  ⟨transGen_of_holdsTo d, holdsTo_of_transGen hh d hd⟩

theorem holds_iff (hh : h.Acyclic) : h.holds a b = true ↔ TransGen h.Contains a b :=
  holdsTo_iff hh (h.rank_le_size a)

/-! ### Copying

A copy makes new storages as it goes, so the heap it ends in is not the one
whose ranks bound it. The storages of that one are left as they are. -/

/-- The second heap has the storages of the first, and maybe more. -/
structure Extends (h g : Heap) : Prop where
  size : h.size ≤ g.size
  get : ∀ a, a < h.size → g.get a = h.get a

theorem Extends.refl (h : Heap) : h.Extends h := ⟨Nat.le_refl _, fun _ _ => rfl⟩

theorem Extends.trans (hg : h.Extends g) (hk : g.Extends k) : h.Extends k := by
  refine ⟨Nat.le_trans hg.size hk.size, fun a ha => ?_⟩
  rw [hk.get a (Nat.lt_of_lt_of_le ha hg.size), hg.get a ha]

theorem extends_newArray (h : Heap) (s : Storage) : h.Extends (h.newArray s).2 := by
  refine ⟨?_, fun a ha => get_alloc_of_lt ha⟩
  have hs : (h.newArray s).2.size = h.size + 1 := size_alloc h s
  omega

/-- One element more of a copy. -/
def copyItem (depth : Nat) (made : Array Value × Heap) (v : Value) : Array Value × Heap :=
  (made.1.push (made.2.copyTo depth v).1, (made.2.copyTo depth v).2)

theorem copyTo_array (h : Heap) (depth : Nat) (id : StorageId) :
    h.copyTo (depth + 1) (.array id) =
      ((h.get id).items.toList.foldl (copyItem depth) (#[], h)).2.newArray
        { h.get id with items := ((h.get id).items.toList.foldl (copyItem depth) (#[], h)).1 } := by
  rw [Array.foldl_toList]
  rfl

theorem extends_copyItems (hd : ∀ (g : Heap) (v : Value), g.Extends (g.copyTo d v).2) :
    ∀ (vs : List Value) (made : Array Value × Heap),
      made.2.Extends (vs.foldl (copyItem d) made).2 := by
  intro vs
  induction vs with
  | nil => intro made; exact .refl _
  | cons v vs ih => intro made; exact (hd made.2 v).trans (ih (copyItem d made v))

theorem extends_copyTo : ∀ (d : Nat) (g : Heap) (v : Value), g.Extends (g.copyTo d v).2 := by
  intro d
  induction d with
  | zero => intro g v; exact .refl g
  | succ d ih =>
    intro g v
    cases v with
    | array id =>
      rw [copyTo_array]
      have hitems := extends_copyItems ih (g.get id).items.toList (#[], g)
      exact hitems.trans (extends_newArray _ _)
    | _ => exact .refl g

theorem copyItems_eq (hd : ∀ (g : Heap) (v : Value), h.Extends g → v ∈ (h.get a).items →
      g.copyTo d v = g.copyTo e v) :
    ∀ (vs : List Value) (made : Array Value × Heap), h.Extends made.2 →
      (∀ v ∈ vs, v ∈ (h.get a).items) →
      vs.foldl (copyItem d) made = vs.foldl (copyItem e) made := by
  intro vs
  induction vs with
  | nil => intro made _ _; rfl
  | cons v vs ih =>
    intro made hm hvs
    have hv := hd made.2 v hm (hvs v (by simp))
    have hitem : copyItem d made v = copyItem e made v := by rw [copyItem, copyItem, hv]
    rw [List.foldl_cons, List.foldl_cons, hitem]
    refine ih _ (hm.trans ?_) fun w hw => hvs w (by simp [hw])
    exact extends_copyTo e made.2 v

theorem copyTo_eq (hh : h.Acyclic) (hc : h.Closed) : ∀ (d e : Nat) {g : Heap} {v : Value},
    h.Extends g → v.StoredIn h.size → h.rankOf v ≤ d → h.rankOf v ≤ e →
    g.copyTo d v = g.copyTo e v := by
  intro d
  induction d with
  | zero =>
    intro e g v hg hv hd he
    cases v with
    | array id =>
      have hpos := rank_pos hv
      have hz : h.rank id ≤ 0 := hd
      omega
    | _ => cases e <;> rfl
  | succ d ih =>
    intro e g v hg hv hd he
    cases v with
    | array id =>
      obtain ⟨d', hd', hdi⟩ := rank_le_succ hh hv hd
      obtain ⟨e', rfl, hei⟩ := rank_le_succ hh hv he
      have hget := hg.get id hv
      have hitems := copyItems_eq (a := id) (d := d) (e := e') (fun k w hk hw =>
        ih e' hk (hc id w hw) (by have := hdi w hw; omega) (hei w hw))
        (g.get id).items.toList (#[], g) hg fun w hw => by simpa [hget] using hw
      rw [copyTo_array, copyTo_array, hitems]
    | _ => cases e <;> rfl

/-! ### All that follows a value -/

/-- Whatever follows the arrays of a value comes to an end: at the bound it is given it does the same
as at every greater one. -/
structure Unfolds (h : Heap) (v : Value) : Prop where
  text : ∀ depth, h.size ≤ depth → h.textTo depth v = h.text v
  copy : ∀ depth, h.size ≤ depth → h.copyTo depth v = h.copy v
  same : ∀ w depth, h.size ≤ depth → h.sameTo depth v w = h.same v w
  holds : ∀ id, v = .array id → ∀ target depth, h.size ≤ depth →
    h.holdsTo depth id target = h.holds id target

/-- **In an acyclic heap every value unfolds.** -/
theorem unfolds (hh : h.Acyclic) (hc : h.Closed) (hv : v.StoredIn h.size) : h.Unfolds v := by
  have hsize := h.rankOf_le_size v
  refine ⟨fun d hd => ?_, fun d hd => ?_, fun w d hd => ?_, fun id _ target d hd => ?_⟩
  · exact textTo_eq hh hc d h.size hv (Nat.le_trans hsize hd) hsize
  · exact copyTo_eq hh hc d h.size (.refl h) hv (Nat.le_trans hsize hd) hsize
  · exact sameTo_eq hh hc d h.size w hv (Nat.le_trans hsize hd) hsize
  · have hrank := h.rank_le_size id
    rw [Bool.eq_iff_iff, holdsTo_iff hh (Nat.le_trans hrank hd), holds_iff hh]

/-! ### Writes that would close a circle -/

theorem contains_put_self (hi : i < (h.get id).items.size) :
    (h.put id i (.array b)).Contains id b := by
  have hid : id < h.size := by
    by_contra hn
    rw [get_of_size_le (Nat.le_of_not_lt hn)] at hi
    exact Nat.not_lt_zero _ hi
  rw [Contains, get, get?_put, if_pos rfl, get?_of_lt hid, Option.map_some, Option.getD_some]
  exact Array.mem_iff_getElem.mpr ⟨i, by simpa using hi, by simp⟩

/-- What leads to a storage still does so after a write to that storage: the way there does not pass
through it. -/
theorem transGen_put (hh : h.Acyclic) (ha : TransGen h.Contains a id) :
    TransGen (h.put id i v).Contains a id := by
  have hkeep : ∀ {a b}, TransGen h.Contains a id → h.Contains a b →
      (h.put id i v).Contains a b := by
    intro a b hai hab
    have hne : a ≠ id := by
      rintro rfl
      exact hh a hai
    rw [Contains, get_put_of_ne hne]
    exact hab
  induction ha using TransGen.head_induction_on with
  | single hab => exact .single (hkeep (.single hab) hab)
  | head hac hci ih => exact .head (hkeep (.head hac hci) hac) ih

/-- **A write closes a circle** exactly if the storage written to is the stored one or lies in it. -/
theorem not_acyclic_put_iff (hh : h.Acyclic) (hi : i < (h.get id).items.size) :
    ¬ (h.put id i (.array stored)).Acyclic ↔ stored = id ∨ TransGen h.Contains stored id := by
  constructor
  · intro hcircle
    by_contra hno
    obtain ⟨hne, hout⟩ := not_or.mp hno
    refine hcircle (hh.put fun s hs => ?_)
    cases hs
    refine ⟨hne, ?_⟩
    rw [Bool.eq_false_iff, Ne, holds_iff hh]
    exact hout
  · rintro (rfl | hin) hacyclic
    · exact hacyclic stored (.single (contains_put_self hi))
    · exact hacyclic id (.head (contains_put_self hi) (transGen_put hh hin))

end Heap

namespace Eval

variable {m : Machine} {id stored : StorageId} {index : Int} {holder : Variable} {pos : Position}

theorem checkAcyclic_circle (hc : stored = id ∨ m.heap.holds stored id = true) :
    (checkAcyclic id (.array stored) holder pos).run m =
      .error (.fault (.arrayInsideItself holder.name) pos) m := by
  refine (run_bind_of_ok (a := m) rfl).trans ?_
  rw [if_pos hc]
  rfl

theorem checkAcyclic_free (hc : ¬ (stored = id ∨ m.heap.holds stored id = true)) :
    (checkAcyclic id (.array stored) holder pos).run m = .ok () m := by
  refine (run_bind_of_ok (a := m) rfl).trans ?_
  rw [if_neg hc]
  rfl

/-- A write that closes no circle puts the value into the storage. -/
theorem run_write_free {i : Nat} (hc : ¬ (stored = id ∨ m.heap.holds stored id = true))
    (hi : (m.heap.get id).position index = .ok i) :
    (write (.element id index holder) (.array stored) pos).run m =
      .ok () ({ m with heap := m.heap.put id i (.array stored) }.refresh holder) := by
  refine (run_bind_of_ok (checkAcyclic_free hc)).trans ?_
  refine (run_bind_of_ok (a := m) rfl).trans ?_
  rw [hi]
  rfl

/-- A write to no element is a fault of its own. -/
theorem run_write_outside {f : ValueFault} (hc : ¬ (stored = id ∨ m.heap.holds stored id = true))
    (hi : (m.heap.get id).position index = .error f) :
    (write (.element id index holder) (.array stored) pos).run m =
      .error (.fault (.value f) pos) m := by
  refine (run_bind_of_ok (checkAcyclic_free hc)).trans ?_
  refine (run_bind_of_ok (a := m) rfl).trans ?_
  rw [hi]
  rfl

/-- **Which writes are refused:** those that would close a circle. They change nothing. -/
theorem write_refused_iff (hh : m.heap.Acyclic) {name : String} {at' : Position} {m' : Machine} :
    (write (.element id index holder) (.array stored) pos).run m =
        .error (.fault (.arrayInsideItself name) at') m' ↔
      (stored = id ∨ Relation.TransGen m.heap.Contains stored id) ∧
        name = holder.name ∧ at' = pos ∧ m' = m := by
  rw [← Heap.holds_iff hh]
  by_cases hc : stored = id ∨ m.heap.holds stored id = true
  · have hrun : (write (.element id index holder) (.array stored) pos).run m =
        .error (.fault (.arrayInsideItself holder.name) pos) m :=
      run_bind_of_error (checkAcyclic_circle hc)
    rw [hrun]
    constructor
    · intro he
      cases he
      exact ⟨hc, rfl, rfl, rfl⟩
    · rintro ⟨-, rfl, rfl, rfl⟩
      rfl
  · refine ⟨fun he => ?_, fun he => absurd he.1 hc⟩
    cases hi : (m.heap.get id).position index with
    | ok i =>
      rw [run_write_free hc hi] at he
      cases he
    | error f =>
      rw [run_write_outside hc hi] at he
      cases he

end Eval

theorem Memory.Formed.closed {μ : Memory} (h : μ.Formed) : μ.heap.Closed :=
  fun a v hv => h.values (.storage a) v hv

/-- **Arrays never lie inside themselves.** In every machine a session reaches, no storage lies
inside itself, so whatever follows the arrays of a value comes to an end. A write of an array to an
element is refused exactly if the storage written to is the stored one or lies inside it, which is
exactly if the write would close a circle; it changes nothing then. -/
theorem arrays_never_lie_in_themselves (config : Config) {m : Machine}
    (hm : m.Reached config fun _ => True) :
    m.heap.Acyclic ∧ (WellFounded fun b a => m.heap.Contains a b) ∧
    (∀ v c, m.memory.Holds v c → v.StoredIn m.heap.size) ∧
    (∀ v : Value, v.StoredIn m.heap.size → m.heap.Unfolds v) ∧
    ∀ id index holder stored pos,
      (∀ name pos' m', (Eval.write (.element id index holder) (.array stored) pos).run m =
          .error (.fault (.arrayInsideItself name) pos') m' ↔
        (stored = id ∨ Relation.TransGen m.heap.Contains stored id) ∧
          name = holder.name ∧ pos' = pos ∧ m' = m) ∧
      ∀ i, (m.heap.get id).position index = .ok i →
        (¬ (m.heap.put id i (.array stored)).Acyclic ↔
          stored = id ∨ Relation.TransGen m.heap.Contains stored id) ∧
        ((m.heap.put id i (.array stored)).Acyclic →
          (Eval.write (.element id index holder) (.array stored) pos).run m =
            .ok () ({ m with heap := m.heap.put id i (.array stored) }.refresh holder)) := by
  have hf := formed_of_reached hm
  have hh : m.heap.Acyclic := hf.acyclic
  refine ⟨hh, Heap.wellFounded_contains hh, fun v c hv => hf.values c v hv,
    fun v hv => Heap.unfolds hh hf.closed hv, ?_⟩
  intro id index holder stored pos
  refine ⟨fun name pos' m' => Eval.write_refused_iff hh, fun i hi => ?_⟩
  have hcircle : ¬ (m.heap.put id i (.array stored)).Acyclic ↔
      stored = id ∨ Relation.TransGen m.heap.Contains stored id :=
    Heap.not_acyclic_put_iff hh (Storage.lt_of_position hi)
  refine ⟨hcircle, fun hput => Eval.run_write_free ?_ hi⟩
  rw [Heap.holds_iff hh, ← hcircle]
  exact not_not_intro hput

/-- A program with a global array of one row. -/
def matrix : Program :=
  let o := Position.origin
  ⟨[.varDecl [⟨"m", o⟩] (some (.array (.int "1" o) (.array (.int "1" o) .int32))) [] o]⟩

/-- The machine after it: the row is the storage 0, the array the storage 1. -/
def afterMatrix : Machine := Machine.initial.executeParsed ⟨{}, ""⟩ ⟨matrix, []⟩

theorem matrix_stays_out_of_its_row :
    (Eval.write (.element 0 0 ⟨0, "m"⟩) (.array 1) .origin).run afterMatrix =
        .error (.fault (.arrayInsideItself "m") .origin) afterMatrix ∧
      ¬ (afterMatrix.heap.put 0 0 (.array 1)).Acyclic ∧
      afterMatrix.heap.text (.array 1) = "[[0]]" ∧
      afterMatrix.heap.textTo 1000 (.array 1) = "[[0]]" := by
  have hm : afterMatrix.Reached ⟨{}, ""⟩ fun _ => True :=
    .idle (.executed ⟨matrix, []⟩ trivial .initial)
  obtain ⟨-, -, -, hunfolds, hwrite⟩ := arrays_never_lie_in_themselves ⟨{}, ""⟩ hm
  have hin : Relation.TransGen afterMatrix.heap.Contains 1 0 :=
    Heap.transGen_of_holdsTo afterMatrix.heap.size (by decide +kernel)
  have hsize : afterMatrix.heap.size = 2 := by decide +kernel
  have htext : afterMatrix.heap.text (.array 1) = "[[0]]" := by decide +kernel
  have hitems : (afterMatrix.heap.get 0).items.size = 1 := by decide +kernel
  have hpos : (afterMatrix.heap.get 0).position 0 = .ok 0 := by
    simp [Storage.position, hitems]
  obtain ⟨hrefused, hcircle⟩ := hwrite 0 0 ⟨0, "m"⟩ 1 .origin
  refine ⟨(hrefused "m" .origin afterMatrix).mpr ⟨.inr hin, rfl, rfl, rfl⟩,
    (hcircle 0 hpos).1.mpr (.inr hin), htext, ?_⟩
  have hv : (Value.array 1).StoredIn afterMatrix.heap.size := by
    rw [hsize]
    exact Nat.one_lt_two
  rw [(hunfolds (.array 1) hv).text 1000 (by omega)]
  exact htext

end Treewalk
