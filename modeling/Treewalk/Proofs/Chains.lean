/-
# Chains of pointers

From a pointer one goes to the variable it designates, and if that holds a
pointer, on from there. The type of a pointer is read off the end of this
chain, and the chain need not have one: an assignment checks that a pointer is
given to a variable of pointers and not what it points to, so that a variable
may come to hold its own address.

A variable is passed only once before a chain comes round, and there are no
more variables than have been defined. So a chain ends within that number of
steps, or it closes: it leads to a variable that leads back to itself
(`Memory.Counted.closes`). In the first case the type label is the same at
every bound from the length of the chain on, in the second it grows with the
bound for ever (`Frames.typeLabelTo_of_ends`, `Frames.typeLabelTo_of_endless`).

Circles are closed by assignments. A pointer aims at a variable that is there,
so nothing leads to a variable that is only being declared; the one exception
is a parameter of the same name as an earlier one, which takes its place.

Key definitions: `Frames.chase`, `Frames.PointsTo`, `Frames.Circular`,
`Memory.Counted`, `Discipline.chained`.
Key theorems: `Frames.typeLabelTo_of_ends`, `Frames.typeLabelTo_of_endless`,
`Memory.Counted.closes`, `Discipline.circle_of_session`,
`pointer_chains_end_or_close`.
-/
import Treewalk.Proofs.Steady
import Mathlib.Data.List.Nodup

namespace Treewalk
namespace Frames

open Relation

variable {fs : Frames} {h : Heap} {u v w : Value} {i j k n : Nat} {x y : Variable}

/-! ### Following pointers -/

/-- What the variable holds that a pointer designates. -/
def behind (fs : Frames) : Value → Option Value
  | .pointer f x => fs.value? f x
  | _ => none

/-- The value that `n` pointers lead to, one after the other. -/
def chase (fs : Frames) : Nat → Value → Option Value
  | 0, v => some v
  | n + 1, v => (fs.behind v).bind (fs.chase n)

theorem chase_succ (hv : fs.behind v = some w) (n : Nat) : fs.chase (n + 1) v = fs.chase n w := by
  rw [chase, hv, Option.bind_some]

theorem chase_add (fs : Frames) (i j : Nat) (v : Value) :
    fs.chase (i + j) v = (fs.chase i v).bind (fs.chase j) := by
  induction i generalizing v with
  | zero => rw [Nat.zero_add, chase, Option.bind_some]
  | succ i ih =>
    rw [Nat.succ_add, chase, chase]
    cases fs.behind v with
    | none => rfl
    | some w => exact ih w

theorem chase_le (hk : k ≤ n) (hn : (fs.chase n v).isSome = true) :
    (fs.chase k v).isSome = true := by
  rw [← Nat.add_sub_of_le hk, chase_add] at hn
  exact Option.isSome_of_isSome_bind hn

theorem exists_pointer (hv : fs.behind v = some w) :
    ∃ f x, v = .pointer f x ∧ fs.value? f x = some w := by
  cases v with
  | pointer f x => exact ⟨f, x, rfl, hv⟩
  | _ => cases hv

theorem exists_behind (hn : fs.chase (n + 1) v = some u) :
    ∃ w, fs.behind v = some w ∧ fs.chase n w = some u :=
  Option.bind_eq_some_iff.mp hn

/-- A chain ends within a number of steps, or goes on for one more. -/
theorem ends_or_goes_on (fs : Frames) (v : Value) (n : Nat) :
    (∃ k ≤ n, ∃ w, fs.chase k v = some w ∧ fs.behind w = none) ∨
      (fs.chase (n + 1) v).isSome = true := by
  induction n with
  | zero =>
    cases hv : fs.behind v with
    | none => exact .inl ⟨0, Nat.le_refl _, v, rfl, hv⟩
    | some w =>
      rw [chase_succ hv]
      exact .inr rfl
  | succ n ih =>
    rcases ih with ⟨k, hk, hends⟩ | hmore
    · exact .inl ⟨k, Nat.le_succ_of_le hk, hends⟩
    obtain ⟨w, hw⟩ := Option.isSome_iff_exists.mp hmore
    cases hu : fs.behind w with
    | none => exact .inl ⟨n + 1, Nat.le_refl _, w, hw, hu⟩
    | some u =>
      rw [chase_add fs (n + 1) 1, hw, Option.bind_some, chase_succ hu]
      exact .inr rfl

/-- A chain that comes back to a value never ends. -/
theorem endless_of_chase_eq (hij : i < j) (hi : fs.chase i v = some u)
    (hj : fs.chase j v = some u) (n : Nat) : (fs.chase n v).isSome = true := by
  have hround : fs.chase (j - i) u = some u := by
    rw [← hj, ← Nat.add_sub_of_le (Nat.le_of_lt hij), chase_add, hi, Option.bind_some,
      Nat.add_sub_cancel_left]
  have hcircle : ∀ n, (fs.chase n u).isSome = true := by
    intro n
    induction n using Nat.strong_induction_on with
    | _ n ih =>
      rcases Nat.le_total n (j - i) with hle | hge
      · exact chase_le hle (by rw [hround]; rfl)
      · rw [← Nat.add_sub_of_le hge, chase_add, hround, Option.bind_some]
        exact ih _ (by omega)
  rcases Nat.le_total n i with hle | hge
  · exact chase_le hle (by rw [hi]; rfl)
  · rw [← Nat.add_sub_of_le hge, chase_add, hi, Option.bind_some]
    exact hcircle _

/-! ### Type labels -/

/-- The label of what so many pointers lead to. -/
def starred : Nat → String → String
  | 0, label => label
  | n + 1, label => "*" ++ starred n label

theorem typeLabelTo_pointer {f : FrameId} {x : String} (hv : fs.value? f x = some w) (n : Nat) :
    fs.typeLabelTo h (n + 1) (.pointer f x) = "*" ++ fs.typeLabelTo h n w := by
  rw [typeLabelTo, hv]

theorem typeLabelTo_end (hw : fs.behind w = none) (n : Nat) :
    fs.typeLabelTo h n w = fs.typeLabelTo h 0 w := by
  cases n with
  | zero => rfl
  | succ n =>
    cases w with
    | pointer f x =>
      have hv : fs.value? f x = none := hw
      rw [typeLabelTo, hv, typeLabelTo]
    | _ => rfl

/-- **The label of a chain that ends:** a star for each pointer, and the label of the end. -/
theorem typeLabelTo_of_ends (hk : fs.chase k v = some w) (hw : fs.behind w = none) (hn : k ≤ n) :
    fs.typeLabelTo h n v = starred k (fs.typeLabelTo h 0 w) := by
  induction k generalizing v n with
  | zero =>
    cases hk
    exact typeLabelTo_end hw n
  | succ k ih =>
    obtain ⟨n, rfl⟩ : ∃ m, n = m + 1 := ⟨n - 1, by omega⟩
    obtain ⟨u, hu, hend⟩ := exists_behind hk
    obtain ⟨f, x, rfl, hvalue⟩ := exists_pointer hu
    rw [typeLabelTo_pointer hvalue, ih hend (Nat.le_of_succ_le_succ hn), starred]

/-- **The label of a chain without an end** has as many stars as the bound allows. -/
theorem typeLabelTo_of_endless (hv : ∀ n, (fs.chase n v).isSome = true) (n : Nat) :
    fs.typeLabelTo h n v = starred n "pointer" := by
  induction n generalizing v with
  | zero =>
    obtain ⟨u, hu⟩ := Option.isSome_iff_exists.mp (hv 1)
    obtain ⟨w, hw, -⟩ := exists_behind hu
    obtain ⟨f, x, rfl, -⟩ := exists_pointer hw
    rfl
  | succ n ih =>
    obtain ⟨u, hu⟩ := Option.isSome_iff_exists.mp (hv 1)
    obtain ⟨w, hw, -⟩ := exists_behind hu
    obtain ⟨f, x, rfl, hvalue⟩ := exists_pointer hw
    rw [typeLabelTo_pointer hvalue, starred, ih fun n => chase_succ hw n ▸ hv (n + 1)]

/-! ### Circles -/

/-- A variable holds a pointer to another, or to itself. -/
def PointsTo (fs : Frames) (x y : Variable) : Prop :=
  ∃ s, fs.local? x.owner x.name = some s ∧ s.value = .pointer y.owner y.name

/-- Some variable leads back to itself. -/
def Circular (fs : Frames) : Prop := ∃ x, TransGen fs.PointsTo x x

theorem Circular.mono {gs : Frames} (h : ∀ x y, gs.PointsTo x y → fs.PointsTo x y) :
    gs.Circular → fs.Circular := by
  rintro ⟨x, hx⟩
  exact ⟨x, hx.lift id h⟩

/-- If only what one variable holds is changed, what leads somewhere afterwards did so before, or
goes through that variable. -/
theorem transGen_of_changed {gs : Frames}
    (h : ∀ z y, z ≠ x → gs.PointsTo z y → fs.PointsTo z y) {a b : Variable}
    (hab : TransGen gs.PointsTo a b) :
    TransGen fs.PointsTo a b ∨
      ReflTransGen gs.PointsTo a x ∧ TransGen gs.PointsTo x b := by
  induction hab with
  | single hab =>
    by_cases ha : a = x
    · subst ha
      exact .inr ⟨.refl, .single hab⟩
    · exact .inl (.single (h _ _ ha hab))
  | @tail b c hab hbc ih =>
    rcases ih with ih | ⟨hax, hxb⟩
    · by_cases hb : b = x
      · subst hb
        exact .inr ⟨hab.to_reflTransGen, .single hbc⟩
      · exact .inl (ih.tail (h _ _ hb hbc))
    · exact .inr ⟨hax, hxb.tail hbc⟩

/-- If only what one variable holds is changed, and that does not lead back to it, there is no new
circle. -/
theorem circular_of_changed {gs : Frames}
    (h : ∀ z y, z ≠ x → gs.PointsTo z y → fs.PointsTo z y) (hx : ¬ TransGen gs.PointsTo x x) :
    gs.Circular → fs.Circular := by
  rintro ⟨y, hy⟩
  rcases transGen_of_changed h hy with hy | ⟨hyx, hxy⟩
  · exact ⟨y, hy⟩
  · exact absurd (hxy.trans_left hyx) hx

end Frames

namespace Memory

open Relation Frames

variable {μ ν : Memory} {u v w : Value} {n : Nat} {x y z : Variable}

/-! ### As many variables as have been defined -/

/-- There are no more variables than have been defined. -/
def Counted (μ : Memory) : Prop :=
  ∀ xs : List Variable, xs.Nodup → (∀ x ∈ xs, μ.frames.hasLocal x.owner x.name = true) →
    xs.length ≤ μ.frames.defined

theorem Counted.mono (h : μ.Counted)
    (hlocal : ∀ x : Variable, ν.frames.hasLocal x.owner x.name = true →
      μ.frames.hasLocal x.owner x.name = true)
    (hdefined : μ.frames.defined ≤ ν.frames.defined) : ν.Counted := fun xs hxs hall =>
  Nat.le_trans (h xs hxs fun x hx => hlocal x (hall x hx)) hdefined

theorem Counted.bind (h : μ.Counted) (f : FrameId) (name : String) (slot : Slot) (entry : Nat) :
    (μ.bind f name slot entry).Counted := by
  intro xs hxs hall
  have hdefined : (μ.bind f name slot entry).frames.defined = μ.frames.defined + 1 := rfl
  -- all but the variable that is declared were there before
  have hold := h (xs.erase ⟨f, name⟩) (hxs.erase _) fun x hx => by
    obtain ⟨hne, hx⟩ := hxs.mem_erase_iff.mp hx
    have hlocal := hall x hx
    have hn : ¬ (x.owner = f ∧ x.name = name) := by
      rintro ⟨rfl, rfl⟩
      exact hne rfl
    rwa [Memory.bind, Frames.hasLocal_bindSymbol, Frames.hasLocal_bind, if_neg hn] at hlocal
  have hlength : xs.length ≤ (xs.erase ⟨f, name⟩).length + 1 := by
    rw [List.length_erase]
    split <;> omega
  omega

/-- What a chain passes is what a variable holds. -/
theorem exists_passed {fs : Frames} (hn : (fs.chase (n + 1) v).isSome = true) :
    ∃ (x : Variable) (s : Slot), fs.local? x.owner x.name = some s ∧
      fs.chase (n + 1) v = some s.value := by
  obtain ⟨w, hw⟩ := Option.isSome_iff_exists.mp hn
  obtain ⟨u, hu, hstep⟩ := Option.bind_eq_some_iff.mp ((chase_add fs n 1 v).symm.trans hw)
  obtain ⟨w', hbehind, hend⟩ := exists_behind hstep
  cases hend
  obtain ⟨f, x, rfl, hvalue⟩ := exists_pointer hbehind
  obtain ⟨owner, s, -, hs, rfl⟩ := local?_of_value? hvalue
  exact ⟨⟨owner, x⟩, s, hs, hw⟩

/-- **A chain longer than the number of variables** comes back to a value it has passed. -/
theorem Counted.closes (h : μ.Counted)
    (hv : (μ.frames.chase (μ.frames.defined + 1) v).isSome = true) :
    ∃ (i j : Nat) (x : Variable) (s : Slot), i < j ∧ j ≤ μ.frames.defined ∧
      μ.frames.local? x.owner x.name = some s ∧ μ.frames.chase (i + 1) v = some s.value ∧
      μ.frames.chase (j + 1) v = some s.value := by
  have hpassed : ∀ i, i ≤ μ.frames.defined → ∃ (x : Variable) (s : Slot),
      μ.frames.local? x.owner x.name = some s ∧ μ.frames.chase (i + 1) v = some s.value :=
    fun i hi => exists_passed (chase_le (Nat.succ_le_succ hi) hv)
  have : Nonempty Variable := ⟨⟨0, ""⟩⟩
  have : Nonempty Slot := ⟨default⟩
  choose! x s hlocal hchase using hpassed
  obtain ⟨i, hi, j, hj, hx, hne⟩ : ∃ i ≤ μ.frames.defined, ∃ j ≤ μ.frames.defined,
      x i = x j ∧ i ≠ j := by
    by_contra hno
    have hle : ∀ i ∈ List.range (μ.frames.defined + 1), i ≤ μ.frames.defined := fun i hi =>
      Nat.le_of_lt_succ (List.mem_range.mp hi)
    have hnodup : ((List.range (μ.frames.defined + 1)).map x).Nodup :=
      List.nodup_range.map_on fun i hi j hj hx =>
        by_contra fun hne => hno ⟨i, hle i hi, j, hle j hj, hx, hne⟩
    have hlength := h _ hnodup fun y hy => by
      obtain ⟨i, hi, rfl⟩ := List.mem_map.mp hy
      exact hasLocal_of_local? (hlocal i (hle i hi))
    rw [List.length_map, List.length_range] at hlength
    exact Nat.not_succ_le_self _ hlength
  have hs : s i = s j := by
    have hi := hlocal i hi
    rw [hx, hlocal j hj] at hi
    exact (Option.some.inj hi).symm
  rcases Nat.lt_or_gt_of_ne hne with hlt | hgt
  · exact ⟨i, j, x i, s i, hlt, hj, hlocal i hi, hchase i hi, hs ▸ hchase j hj⟩
  · exact ⟨j, i, x i, s i, hgt, hi, hlocal i hi, hs ▸ hchase j hj, hchase i hi⟩

/-! ### Pointers that aim at variables -/

theorem Aimed.pointsTo (hy : μ.Aimed y.owner y.name)
    (hv : μ.frames.value? y.owner y.name = some (.pointer z.owner z.name)) :
    μ.frames.PointsTo y z := by
  obtain ⟨owner, s, ho, hs, hvalue⟩ := local?_of_value? hv
  rw [hy.owner_eq ho] at hs
  exact ⟨s, hs, hvalue⟩

/-- Where pointers aim at variables, the steps of a chain go from variable to variable. -/
theorem WellAimed.transGen (h : μ.WellAimed) (hy : μ.Aimed y.owner y.name)
    (hz : μ.frames.chase (n + 1) (.pointer y.owner y.name) = some (.pointer z.owner z.name)) :
    TransGen μ.frames.PointsTo y z := by
  induction n generalizing y with
  | zero =>
    obtain ⟨w, hw, hend⟩ := exists_behind hz
    cases hend
    exact .single (hy.pointsTo hw)
  | succ n ih =>
    obtain ⟨w, hw, hz⟩ := exists_behind hz
    obtain ⟨_, hw', -⟩ := exists_behind hz
    obtain ⟨f, x, rfl, -⟩ := exists_pointer hw'
    have hvalue : μ.frames.value? y.owner y.name = some (.pointer f x) := hw
    obtain ⟨owner, -, hheld⟩ := holds_of_value? hvalue
    have hx : μ.Aimed f x := (h _ _ hheld).2 f x rfl
    exact .head (hy.pointsTo (z := ⟨f, x⟩) hw) (ih (y := ⟨f, x⟩) hx hz)

/-! ### Changes of one variable -/

theorem variable_eq_iff {f : FrameId} {name : String} :
    (z.owner = f ∧ z.name = name) ↔ z = ⟨f, name⟩ := by
  cases z
  simp

theorem pointsTo_of_set {owner : FrameId} {name : String} (hz : z ≠ ⟨owner, name⟩)
    (h : (μ.set owner name v).frames.PointsTo z y) : μ.frames.PointsTo z y := by
  obtain ⟨s, hs, hv⟩ := h
  rw [local?_set, if_neg (fun he => hz (variable_eq_iff.mp he))] at hs
  exact ⟨s, hs, hv⟩

theorem pointsTo_of_bind {f : FrameId} {name : String} {slot : Slot} {entry : Nat}
    (hz : z ≠ ⟨f, name⟩) (h : (μ.bind f name slot entry).frames.PointsTo z y) :
    μ.frames.PointsTo z y := by
  obtain ⟨s, hs, hv⟩ := h
  rw [local?_bind, if_neg (fun he => hz (variable_eq_iff.mp he))] at hs
  exact ⟨s, hs, hv⟩

/-- Nothing leads to a variable that is only being declared. -/
theorem WellAimed.not_circular_bind (h : μ.WellAimed) {f : FrameId} {name : String} {slot : Slot}
    {entry : Nat} (hv : slot.value.AimedIn μ) (hfree : μ.frames.local? f name = none) :
    ¬ TransGen (μ.bind f name slot entry).frames.PointsTo ⟨f, name⟩ ⟨f, name⟩ := by
  intro hcircle
  obtain ⟨_, ⟨s, hs, -⟩, -⟩ := TransGen.head'_iff.mp hcircle
  obtain ⟨z, -, hz⟩ := TransGen.tail'_iff.mp hcircle
  have hlive : μ.frames.isLive f = true := by
    have hlive := Frames.isLive_of_local? hs
    rwa [Frames.isLive_of_parent?_eq (fun _ => parent?_bind ..)] at hlive
  have haimed : μ.Aimed f name := by
    by_cases hself : z = ⟨f, name⟩
    · obtain ⟨s', hs', hvalue⟩ := hz
      rw [local?_bind, if_pos (variable_eq_iff.mpr hself)] at hs'
      obtain ⟨_, -, rfl⟩ := Option.map_eq_some_iff.mp hs'
      exact hv.2 f name hvalue
    · obtain ⟨s', hs', hvalue⟩ := pointsTo_of_bind hself hz
      exact (h (.slot z.owner z.name) s'.value ⟨s', hs', rfl⟩).2 f name hvalue
  obtain ⟨s', hs', -⟩ := haimed.slot hlive
  rw [hfree] at hs'
  cases hs'

/-- **A chain ends or closes.** -/
theorem chain_cases (h : μ.WellAimed) (hc : μ.Counted) (v : Value) :
    (∃ k ≤ μ.frames.defined, ∃ w, μ.frames.chase k v = some w ∧ μ.frames.behind w = none) ∨
      (∃ k ≤ μ.frames.defined, ∃ y : Variable,
        μ.frames.chase k v = some (.pointer y.owner y.name) ∧ TransGen μ.frames.PointsTo y y) ∧
      ∀ n, (μ.frames.chase n v).isSome = true := by
  refine (ends_or_goes_on μ.frames v μ.frames.defined).imp_right fun hmore => ?_
  obtain ⟨i, j, x, s, hij, hj, hs, hi, hj'⟩ := hc.closes hmore
  have hendless := endless_of_chase_eq (Nat.succ_lt_succ hij) hi hj'
  -- the value that the chain comes back to is a pointer to a variable on the circle
  have hround : μ.frames.chase (j - i) s.value = some s.value := by
    rw [← hj', show j + 1 = (i + 1) + (j - i) by omega, chase_add, hi, Option.bind_some]
  obtain ⟨n, hn⟩ : ∃ n, j - i = n + 1 := ⟨j - i - 1, by omega⟩
  rw [hn] at hround
  obtain ⟨w, hw, -⟩ := exists_behind hround
  obtain ⟨f, z, hpointer, -⟩ := exists_pointer hw
  have haimed : μ.Aimed f z := (h (.slot x.owner x.name) s.value ⟨s, hs, rfl⟩).2 f z hpointer
  rw [hpointer] at hround hi
  refine ⟨⟨i + 1, by omega, ⟨f, z⟩, hi, ?_⟩, hendless⟩
  exact h.transGen (y := ⟨f, z⟩) (z := ⟨f, z⟩) haimed hround

end Memory

/-! ### The course of a session -/

theorem Frames.defined_setLocal (fs : Frames) (id : FrameId) (name : String) (v : Value) :
    (fs.setLocal id name v).defined = fs.defined := rfl

namespace Discipline

open Memory Frames Relation

/-- What evaluation keeps so that variables can be counted. -/
def counted : Discipline where
  Inv := Counted
  set {μ _ owner v} h _ _ _ _ := by
    refine ⟨h.mono (fun x hx => ?_) (Nat.le_of_eq (Frames.defined_setLocal ..).symm), trivial⟩
    rwa [Memory.set, Frames.hasLocal_setLocal] at hx
  bind h _ _ _ _ := ⟨h.bind _ _ _ _, trivial⟩
  put h _ _ _ _ _ := ⟨h.mono (fun _ hx => hx) (Nat.le_refl _), trivial⟩
  alloc h _ _ _ := ⟨h.mono (fun _ hx => hx) (Nat.le_refl _), trivial, trivial⟩
  openIn {μ parent} h _ := by
    refine ⟨h.mono (fun x hx => ?_) (Nat.le_refl _), trivial, fun _ _ => trivial⟩
    rwa [Memory.openIn, Frames.hasLocal_openIn] at hx
  close {μ _ ν} _ _ h := by
    refine ⟨h.mono (fun x hx => ?_) (Nat.le_refl _), trivial, fun _ _ => trivial⟩
    rw [Memory.close, Frames.hasLocal_close] at hx
    split at hx
    · cases hx
    · exact hx

/-- What evaluation keeps so that circles are closed by assignments only. -/
def chained : Discipline :=
  { aimed with
    Past := fun μ ν => ν.frames.Circular → μ.frames.Circular
    Excepts := fun ν ev => ∃ y : Variable, TransGen ν.frames.PointsTo y y ∧
      (ev = .assigned y.owner y.name ∨ ev = .declared y.owner y.name .parameter)
    past_refl := fun _ h => h
    past_trans := fun h h' hc => h (h' hc)
    past_set := by
      intro μ x owner v _ _ _
      by_cases hc : TransGen (μ.set owner x.name v).frames.PointsTo ⟨owner, x.name⟩ ⟨owner, x.name⟩
      · exact .inr ⟨_, hc, .inl rfl⟩
      · exact .inl (circular_of_changed (fun _ _ hz => pointsTo_of_set hz) hc)
    past_bind := by
      intro μ f name slot role entry hinv hv ha
      by_cases hc : TransGen (μ.bind f name slot entry).frames.PointsTo ⟨f, name⟩ ⟨f, name⟩
      · cases hs : μ.frames.local? f name with
        | none => exact absurd hc (WellAimed.not_circular_bind hinv hv hs)
        | some s =>
          obtain ⟨rfl, -⟩ := ha.free hs
          exact .inr ⟨_, hc, .inr rfl⟩
      · exact .inl (circular_of_changed (fun _ _ hz => pointsTo_of_bind hz) hc)
    past_heap := fun _ _ h => h
    past_openIn := fun parent _ => Circular.mono fun x y h => by
      obtain ⟨s, hs, hv⟩ := h
      rw [Memory.openIn, Frames.local?_openIn] at hs
      exact ⟨s, hs, hv⟩
    past_close := fun id _ => Circular.mono fun x y h => by
      obtain ⟨s, hs, hv⟩ := h
      rw [Memory.close, Frames.local?_close] at hs
      split at hs
      · cases hs
      · exact ⟨s, hs, hv⟩ }

section Session

variable {config : Config} {Q : Program → Prop} {es ps qs : List Moment} {m : Machine} {e : Moment}

theorem counted_of_session (h : Machine.Session config Q es m) :
    ∀ e ∈ es, e.memory.Counted := by
  have hrests : counted.Rests False .initial := by
    refine rests_initial (fun xs _ hall => ?_) trivial
    cases xs with
    | nil => exact Nat.zero_le _
    | cons x xs =>
      have hx := hall x List.mem_cons_self
      rw [Frames.hasLocal_eq, Machine.memory, Machine.initial, Frames.local?_initial] at hx
      cases hx
  have hf := session_follows (fun _ _ hf => False.elim hf) h hrests
  exact fun e he => ((hf.of_loose {}).1 e he).inv

/-- **Where the first circle comes from:** at the first moment at which there is one, a variable has
just been assigned, or a parameter declared, that leads back to itself. -/
theorem circle_of_session (h : Machine.Session config Q (ps ++ e :: qs) m)
    (hps : ∀ p ∈ ps, ¬ p.machine.frames.Circular) (he : e.machine.frames.Circular) :
    ∃ y : Variable, TransGen e.machine.frames.PointsTo y y ∧
      (e.event = some (.assigned y.owner y.name) ∨
        e.event = some (.declared y.owner y.name .parameter)) := by
  have hloose : chained.Loose := {}
  have hrests : chained.Rests False .initial := rests_initial AllHold.initial rfl
  have hf := session_follows (fun _ _ hf => False.elim hf) h hrests
  have hdisturbs : chained.Disturbs e := by
    by_contra hquiet
    have hpast := hf.past fun p hp => ⟨hloose.allows p, fun hd => ?_⟩
    · obtain ⟨x, hx⟩ := hpast he
      obtain ⟨_, ⟨s, hs, -⟩, -⟩ := TransGen.head'_iff.mp hx
      cases (Frames.local?_initial _ _).symm.trans hs
    · rcases List.mem_append.mp hp with hp | hp
      · obtain ⟨_, -, y, hy, -⟩ := hd
        exact hps p hp ⟨y, hy⟩
      · rw [List.mem_singleton.mp hp] at hd
        exact hquiet hd
  obtain ⟨ev, hev, y, hy, hcases⟩ := hdisturbs
  refine ⟨y, hy, ?_⟩
  rcases hcases with rfl | rfl
  · exact .inl hev
  · exact .inr hev

end Session
end Discipline

open Relation Frames

/-- **Chains of pointers end or close.** At every moment of a session and from every value, one
comes to a value that is no pointer to a variable within as many steps as variables have been
defined, and the type label has as many stars, whatever its bound beyond that; or one comes to a
variable that leads back to itself, and then the label has as many stars as its bound allows and is
never settled. There is no such variable until one that is there is assigned a pointer which leads
back to it, or a parameter is declared anew with such a pointer. -/
theorem pointer_chains_end_or_close {config : Config} {es : List Moment} {m : Machine}
    (h : Machine.Session config (fun _ => True) es m) :
    (∀ e ∈ es, ∀ v,
      (∃ k ≤ e.machine.frames.defined, ∃ w, e.machine.frames.chase k v = some w ∧
        e.machine.frames.behind w = none ∧ ∀ n, k ≤ n →
          e.machine.frames.typeLabelTo e.machine.heap n v =
            starred k (e.machine.frames.typeLabelTo e.machine.heap 0 w)) ∨
      (∃ k ≤ e.machine.frames.defined, ∃ y : Variable,
        e.machine.frames.chase k v = some (.pointer y.owner y.name) ∧
          TransGen e.machine.frames.PointsTo y y) ∧
        ∀ n, e.machine.frames.typeLabelTo e.machine.heap n v = starred n "pointer") ∧
    ∀ ps e qs, es = ps ++ e :: qs → (∀ p ∈ ps, ¬ p.machine.frames.Circular) →
      e.machine.frames.Circular →
      ∃ y : Variable, TransGen e.machine.frames.PointsTo y y ∧
        (e.event = some (.assigned y.owner y.name) ∨
          e.event = some (.declared y.owner y.name .parameter)) := by
  have haimed := (Discipline.aimed_of_session h).1
  refine ⟨fun e he v => ?_, ?_⟩
  · have hcounted := Discipline.counted_of_session h e he
    rcases Memory.chain_cases (haimed e he).inv hcounted v with ⟨k, hk, w, hw, hend⟩ | ⟨hc, hn⟩
    · exact .inl ⟨k, hk, w, hw, hend, fun n hn => typeLabelTo_of_ends hw hend hn⟩
    · exact .inr ⟨hc, fun n => typeLabelTo_of_endless hn n⟩
  · rintro ps e qs rfl hps he
    exact Discipline.circle_of_session h hps he

/-- A program with a variable that is given its own address. -/
def selfPointing : Parsed :=
  let o := Position.origin
  ⟨⟨[.varDecl [⟨"p", o⟩] (some (.pointer .int32)) [] o,
    .func ⟨"main", [], [], [.assign (.name "p") .plain (.addressOf "p" o) o]⟩ o]⟩, []⟩

def afterSelfPointing : Machine := Machine.initial.executeParsed ⟨{}, ""⟩ selfPointing

theorem self_pointer_has_no_label :
    ∃ es, Machine.Session ⟨{}, ""⟩ (fun _ => True) es afterSelfPointing ∧
      afterSelfPointing.frames.value? 0 "p" = some (.pointer 0 "p") ∧
      (∀ n, afterSelfPointing.frames.typeLabelTo afterSelfPointing.heap n (.pointer 0 "p") =
        starred n "pointer") ∧
      ∃ e ∈ es, ∃ y : Variable, TransGen e.machine.frames.PointsTo y y ∧
        (e.event = some (.assigned y.owner y.name) ∨
          e.event = some (.declared y.owner y.name .parameter)) := by
  have hinitial : Machine.Session ⟨{}, ""⟩ (fun _ => True) [Machine.initial.still] .initial :=
    .initial
  obtain ⟨fs, hfs⟩ := hinitial.exists_executed selfPointing trivial
  have hs : Machine.Session ⟨{}, ""⟩ (fun _ => True)
      ([Machine.initial.still] ++ (fs ++ [afterSelfPointing.still])) afterSelfPointing := hfs
  have hvalue : afterSelfPointing.frames.value? 0 "p" = some (.pointer 0 "p") := rfl
  have hself : afterSelfPointing.frames.PointsTo ⟨0, "p"⟩ ⟨0, "p"⟩ := ⟨_, rfl, rfl⟩
  generalize afterSelfPointing = m at *
  have hlast : m.still ∈ [Machine.initial.still] ++ (fs ++ [m.still]) := by simp
  obtain ⟨hchains, hfirst⟩ := pointer_chains_end_or_close hs
  generalize [Machine.initial.still] ++ (fs ++ [m.still]) = es at *
  refine ⟨es, hs, hvalue, ?_, ?_⟩
  · have hbehind : m.frames.behind (.pointer 0 "p") = some (.pointer 0 "p") := hvalue
    have hchase : ∀ k, m.frames.chase k (.pointer 0 "p") = some (.pointer 0 "p") := by
      intro k
      induction k with
      | zero => rfl
      | succ k ih => rw [chase_succ hbehind, ih]
    rcases hchains _ hlast (.pointer 0 "p") with ⟨k, -, w, hw, hend, -⟩ | ⟨-, hlabels⟩
    · cases (hchase k).symm.trans hw
      cases hbehind.symm.trans hend
    · exact hlabels
  · classical
    have hcircular : es.any (fun e => decide e.machine.frames.Circular) = true :=
      List.any_eq_true.mpr ⟨_, hlast, decide_eq_true ⟨_, .single hself⟩⟩
    obtain ⟨e, he⟩ := Option.isSome_iff_exists.mp (List.find?_isSome.mpr (List.any_eq_true.mp hcircular))
    obtain ⟨hP, ps, qs, rfl, hps⟩ := List.find?_eq_some_iff_append.mp he
    refine ⟨e, by simp, hfirst ps e qs rfl (fun p hp => ?_) (of_decide_eq_true hP)⟩
    simpa using hps p hp

end Treewalk
