/-
# What a failed statement leaves

Assignments, steps and declarations evaluate expressions: the indices of a
target, the sizes of a type, the values on the right. They look at the machine
besides, and change it only when nothing can fail any more. So if one of them
ends in a fault, all that has been done is that the first of its expressions
have been evaluated, or all of them; where these call nothing, the machine is
as it was but for what was reported.

Key definitions: `Stmt.inputs`, `Machine.evaluated`, `Eval.Draws`,
`Eval.FailsIn`, `Eval.Clean`.
Key theorems: `Eval.Draws.bind`, `Eval.draws_placeOf`, `Stmt.raw_fails`,
`failed_statements_change_nothing`.
-/
import Treewalk.Proofs.CallFree
import Treewalk.Proofs.Recorded

namespace Treewalk

open Eval

def Target.indices : Target → List Expr
  | .name _ | .deref _ => []
  | .index _ indices => indices

/-- The sizes in a written type, from the outside in. -/
def TypeExpr.sizes : TypeExpr → List Expr
  | .array size elem => size :: elem.sizes
  | .pointer target => target.sizes
  | .int32 | .float32 | .bool | .string | .rune => []

/-- Assignments, steps and declarations. -/
def Stmt.isUpdate : Stmt → Bool
  | .assign .. | .step .. | .varDecl .. | .constDecl .. | .shortDecl .. => true
  | _ => false

/-- The expressions that an assignment, a step or a declaration evaluates, in their order. -/
def Stmt.inputs : Stmt → List Expr
  | .assign target _ e _ => target.indices ++ [e]
  | .step target _ _ => target.indices
  | .varDecl _ type es _ => type.elim [] TypeExpr.sizes ++ es
  | .constDecl _ type e _ => type.elim [] TypeExpr.sizes ++ [e]
  | .shortDecl _ es _ => es
  | _ => []

/-- The statement has a target, and that turns out to be a place. -/
def Stmt.HasPlace (ctx : Context) (frame : FrameId) (m : Machine) : Stmt → Prop
  | .assign target _ _ pos | .step target _ pos =>
    ∃ p m', (placeOf ctx target frame pos).run m = .ok p m'
  | _ => False

/-- The machine that evaluating expressions one after the other leaves. -/
def Machine.evaluated (m : Machine) (ctx : Context) (frame : FrameId) (es : List Expr) : Machine :=
  ((Expr.operands ctx es frame).run m).machine

section Inputs

variable {ctx : Context} {frame : FrameId} {es es' : List Expr} {m m' : Machine}

/-! ### Evaluating expressions one after the other -/

theorem operands_append_ok {ws : List Value} : ∀ {es : List Expr} {vs : List Value}
    {m m₁ : Machine}, (Expr.operands ctx es frame).run m = .ok vs m₁ →
    (Expr.operands ctx es' frame).run m₁ = .ok ws m' →
    (Expr.operands ctx (es ++ es') frame).run m = .ok (vs ++ ws) m'
  | [], _, _, _, h, h' => by
    cases h
    exact h'
  | e :: es, _, _, _, h, h' => by
    obtain ⟨v, m₂, he, h⟩ := run_bind_ok.mp h
    obtain ⟨vs, m₃, hes, h⟩ := run_bind_ok.mp h
    cases h
    exact (run_bind_of_ok he).trans (run_bind_of_ok (operands_append_ok hes h'))

theorem evaluated_append : ∀ {es : List Expr} {vs : List Value} {m m₁ : Machine},
    (Expr.operands ctx es frame).run m = .ok vs m₁ →
    m.evaluated ctx frame (es ++ es') = m₁.evaluated ctx frame es'
  | [], _, _, _, h => by
    cases h
    rfl
  | e :: es, _, m, _, h => by
    obtain ⟨v, m₂, he, h⟩ := run_bind_ok.mp h
    obtain ⟨vs, m₃, hes, h⟩ := run_bind_ok.mp h
    cases h
    have hcons : m.evaluated ctx frame (e :: (es ++ es')) = m₂.evaluated ctx frame (es ++ es') :=
      (congrArg Outcome.machine (run_bind_of_ok he)).trans (bind_pure_machine ..)
    exact hcons.trans (evaluated_append hes)

theorem evaluated_operand (e : Expr) :
    m.evaluated ctx frame [e] = ((e.operand ctx frame).run m).machine :=
  bind_pure_machine ..

/-- That an expression alone may have several values changes nothing. -/
theorem evaluated_singleton (e : Expr) :
    m.evaluated ctx frame [e] = ((e.eval ctx frame).run m).machine := by
  rw [evaluated_operand]
  unfold Expr.operand Expr.eval one
  cases hr : (settled (e.raw ctx frame)).run m with
  | ok v m₁ =>
    rw [run_bind_of_ok hr]
    exact readOnly_single m₁
  | error s m₁ => rw [run_bind_of_error hr]

end Inputs

namespace Eval

section Actions

variable {ctx : Context} {frame : FrameId} {es es' : List Expr} {pos : Position} {α β : Type}
  {x : Eval α} {f : α → Eval β}

/-! ### How actions fail -/

/-- The action changes nothing if it ends in a fault. -/
def Clean (x : Eval α) : Prop :=
  ∀ ⦃m f pos m'⦄, x.run m = .error (.fault f pos) m' → m' = m

/-- If the action ends in a fault, all that has been done is evaluating the first of the expressions
`es`. -/
def FailsIn (ctx : Context) (frame : FrameId) (es : List Expr) (x : Eval α) : Prop :=
  ∀ ⦃m f pos m'⦄, x.run m = .error (.fault f pos) m' →
    ∃ k, k ≤ es.length ∧ m' = m.evaluated ctx frame (es.take k)

/-- Evaluating the expressions `es` is all that the action does to the machine. -/
structure Draws (ctx : Context) (frame : FrameId) (es : List Expr) (x : Eval α) : Prop where
  ok : ∀ {m a m'}, x.run m = .ok a m' → ∃ vs, (Expr.operands ctx es frame).run m = .ok vs m'
  error : FailsIn ctx frame es x

theorem Faultless.failsIn (hx : x.Faultless) : FailsIn ctx frame es x :=
  fun _ _ _ _ h => (hx _ _ _ _ h).elim

theorem FailsIn.bind (hx : FailsIn ctx frame es x) (hf : ∀ a, (f a).Faultless) :
    FailsIn ctx frame es (x >>= f) := by
  intro m fault pos m' h
  rcases run_bind_error.mp h with h | ⟨a, m₁, -, h⟩
  · exact hx h
  · exact (hf a _ _ _ _ h).elim

theorem FailsIn.ifFault {c : Prop} [Decidable c] {g : Fault} (hx : FailsIn ctx frame es x) :
    FailsIn ctx frame es (if c then (fault g pos : Eval PUnit) >>= fun _ => x else x) := by
  by_cases hc : c
  · rw [if_pos hc]
    intro m f at' m' h
    cases h
    exact ⟨0, Nat.zero_le _, rfl⟩
  · rwa [if_neg hc]

theorem Draws.failsIn_bind (hx : Draws ctx frame es x) (hf : ∀ a, FailsIn ctx frame es' (f a)) :
    FailsIn ctx frame (es ++ es') (x >>= f) := by
  intro m fault pos m' h
  rcases run_bind_error.mp h with h | ⟨a, m₁, hr, h⟩
  · obtain ⟨k, hk, rfl⟩ := hx.error h
    refine ⟨k, ?_, by rw [List.take_append_of_le_length hk]⟩
    rw [List.length_append]
    exact Nat.le_add_right_of_le hk
  · obtain ⟨vs, hvs⟩ := hx.ok hr
    obtain ⟨k, hk, rfl⟩ := hf a h
    refine ⟨es.length + k, ?_, by rw [List.take_length_add_append, evaluated_append hvs]⟩
    rw [List.length_append]
    exact Nat.add_le_add_left hk _

theorem Draws.bind (hx : Draws ctx frame es x) (hf : ∀ a, Draws ctx frame es' (f a)) :
    Draws ctx frame (es ++ es') (x >>= f) := by
  refine ⟨fun h => ?_, hx.failsIn_bind fun a => (hf a).error⟩
  obtain ⟨a, m₁, hr, h⟩ := run_bind_ok.mp h
  obtain ⟨vs, hvs⟩ := hx.ok hr
  obtain ⟨ws, hws⟩ := (hf a).ok h
  exact ⟨vs ++ ws, operands_append_ok hvs hws⟩

theorem ReadOnly.draws (hx : x.ReadOnly) : Draws ctx frame [] x := by
  refine ⟨fun h => ⟨[], ?_⟩, fun _ _ _ _ h => ⟨0, Nat.zero_le _, hx.eq_of_error h⟩⟩
  rw [hx.eq_of_ok h]
  rfl

/-- Looking at the machine afterwards draws nothing more. -/
theorem Draws.look (hx : Draws ctx frame es x) (hf : ∀ a, (f a).ReadOnly) :
    Draws ctx frame es (x >>= f) := by
  have h : Draws ctx frame (es ++ []) (x >>= f) := hx.bind fun a => (hf a).draws
  rwa [List.append_nil] at h

/-! ### The parts of statements -/

theorem draws_operands (es : List Expr) : Draws ctx frame es (Expr.operands ctx es frame) := by
  refine ⟨fun h => ⟨_, h⟩, fun m f pos m' h => ⟨es.length, Nat.le_refl _, ?_⟩⟩
  rw [List.take_length, Machine.evaluated, h]
  rfl

theorem draws_operand (e : Expr) : Draws ctx frame [e] (e.operand ctx frame) := by
  constructor
  · intro m v m' h
    exact ⟨[v], run_bind_of_ok h⟩
  · intro m f pos m' h
    refine ⟨1, Nat.le_refl 1, ?_⟩
    have hrun : (Expr.operands ctx [e] frame).run m = .error (.fault f pos) m' := run_bind_of_error h
    rw [List.take_of_length_le (Nat.le_refl 1), Machine.evaluated, hrun]
    rfl

theorem draws_path : ∀ es : List Expr, Draws ctx frame es (Expr.path ctx es frame)
  | [] => readOnly_pure.draws
  | e :: es => by
    refine (draws_operand e).bind fun v => ?_
    exact readOnly_lift.draws.bind fun i => (draws_path es).look fun is => readOnly_pure

theorem draws_type : ∀ t : TypeExpr, Draws ctx frame t.sizes (t.eval ctx frame)
  | .int32 | .float32 | .bool | .string | .rune => readOnly_pure.draws
  | .array size elem => by
    refine (draws_operand size).bind fun v => ?_
    exact readOnly_arraySize.draws.bind fun n => (draws_type elem).look fun t => readOnly_pure
  | .pointer target => (draws_type target).look fun t => readOnly_pure

theorem draws_declaredType (t : Option TypeExpr) :
    Draws ctx frame (t.elim [] TypeExpr.sizes) (declaredType ctx t frame) := by
  cases t with
  | none => exact readOnly_pure.draws
  | some t => exact (draws_type t).look fun _ => readOnly_pure

theorem draws_placeOf (target : Target) :
    Draws ctx frame target.indices (placeOf ctx target frame pos) := by
  cases target with
  | name x => exact (readOnly_writableOwner.bind fun _ => readOnly_pure).draws
  | deref x =>
    exact (readOnly_lookup.bind fun _ => readOnly_follow.bind fun _ => readOnly_pure).draws
  | index x indices =>
    exact readOnly_writableOwner.draws.bind fun _ =>
      (draws_path indices).look fun _ => readOnly_element

/-- The values of a declaration. A lone expression with several values has been evaluated, even if
their number is wrong. -/
theorem failsIn_values (es : List Expr) (count : Nat) :
    FailsIn ctx frame es (values ctx es count frame pos) := by
  have hmany : ∀ es : List Expr, FailsIn ctx frame es
      (if es.length = count then Expr.operands ctx es frame
        else fault (.countMismatch count es.length) pos) := by
    intro es
    by_cases hn : es.length = count
    · rw [if_pos hn]
      exact (draws_operands es).error
    · rw [if_neg hn]
      exact fun _ _ _ _ h => ⟨0, Nat.zero_le _, readOnly_fault.eq_of_error h⟩
  unfold values
  match es with
  | [] => exact hmany []
  | e :: e' :: es => exact hmany (e :: e' :: es)
  | [e] =>
    intro m f pos' m' h
    refine ⟨1, Nat.le_refl 1, ?_⟩
    rw [List.take_of_length_le (Nat.le_refl 1), evaluated_singleton]
    rcases run_bind_error.mp h with h | ⟨v, m₁, hr, h⟩
    · rw [h]
      rfl
    · rw [hr]
      cases v with
      | multi vs => exact (readOnly_ite readOnly_pure readOnly_fault).eq_of_error h
      | _ => exact (readOnly_ite readOnly_pure readOnly_fault).eq_of_error h

/-! ### What comes when nothing can fail any more -/

theorem faultless_report {f : Fault} : (report f pos).Faultless :=
  (preserves_modify fun _ _ => trivial).faultless

theorem faultless_onHeap {g : Heap → α × Heap} : (onHeap g).Faultless :=
  (preserves_modifyGet fun _ _ => trivial).faultless

theorem faultless_ite {c : Prop} [Decidable c] {y : Eval α} (hx : x.Faultless) (hy : y.Faultless) :
    (if c then x else y).Faultless := by
  by_cases h : c
  · rwa [if_pos h]
  · rwa [if_neg h]

theorem faultless_firstValue {name : String} {t : Option Ty} {v : Option Value} :
    (firstValue name t v pos).Faultless := by
  cases t with
  | none => cases v <;> exact faultless_pure
  | some t =>
    cases v with
    | none => exact faultless_onHeap
    | some v =>
      refine faultless_ite faultless_pure ?_
      exact preserves_get.faultless.bind fun _ => faultless_report.bind fun _ => faultless_onHeap

theorem faultless_declare {name : String} {t : Option Ty} {v : Value} {role : Role} :
    (declare frame name t v pos role).Faultless := by
  refine preserves_get.faultless.bind fun m => ?_
  refine (preserves_modifyGet fun _ _ => trivial).faultless.bind fun entry => ?_
  intro m f pos' m' h
  cases h

theorem faultless_declareVars {t : Option Ty} : ∀ (xs : List Binder) (vs : List Value),
    (declareVars frame t xs vs).Faultless
  | [], _ => faultless_pure
  | x :: xs, vs => by
    have hrest := faultless_declareVars (t := t) xs vs.tail
    refine preserves_get.faultless.bind fun m => faultless_ite ?_ ?_
    · exact faultless_report.bind fun _ => hrest
    · exact faultless_firstValue.bind fun v => faultless_declare.bind fun _ => hrest

theorem faultless_declareShort {b : Binder} {v : Value} : (declareShort frame b v).Faultless := by
  intro m f pos' m' h
  rcases run_bind_error.mp h with h | ⟨_, _, ⟨⟩, h⟩
  · cases h
  by_cases hbound : m.frames.hasLocal frame b.name = true
  · rw [if_neg (by simp [hbound])] at h
    split at h
    · exact faultless_report _ _ _ _ h
    simp only at h
    split at h
    · rw [run_store hbound] at h
      cases h
    · exact faultless_report _ _ _ _ h
  · rw [if_pos (by simp [hbound])] at h
    exact faultless_declare _ _ _ _ h

theorem faultless_declareShorts : ∀ xs : List (Binder × Value),
    (xs.forM fun (x, v) => declareShort frame x v).Faultless
  | [] => faultless_pure
  | _ :: xs => faultless_declareShort.bind fun _ => faultless_declareShorts xs

theorem ReadOnly.clean (hx : x.ReadOnly) : x.Clean := fun _ _ _ _ h => hx.eq_of_error h

theorem ReadOnly.clean_bind (hx : x.ReadOnly) (hf : ∀ a, (f a).Clean) : (x >>= f).Clean := by
  intro m fault pos m' h
  rcases run_bind_error.mp h with h | ⟨a, m₁, hr, h⟩
  · exact hx.eq_of_error h
  · exact (hf a h).trans (hx.eq_of_ok hr)

theorem Faultless.clean (hx : x.Faultless) : x.Clean := fun _ _ _ _ h => (hx _ _ _ _ h).elim

theorem clean_modify {g : Machine → Machine} : (modify g : Eval Unit).Clean :=
  (preserves_modify fun _ _ => trivial).faultless.clean

theorem readOnly_slotKind {p : Place} {v : Value} : (slotKind p v).ReadOnly := by
  cases p <;> exact readOnly_get.bind fun _ => readOnly_pure

theorem readOnly_checkAcyclic {id : StorageId} {v : Value} {holder : Variable} :
    (checkAcyclic id v holder pos).ReadOnly := by
  cases v with
  | array stored => exact readOnly_get.bind fun _ => readOnly_ite readOnly_fault readOnly_pure
  | _ => exact readOnly_pure

/-- A write that is refused changes nothing. -/
theorem clean_write {p : Place} {v : Value} : (write p v pos).Clean := by
  cases p with
  | var x =>
    exact readOnly_get.clean_bind fun _ => readOnly_require.clean_bind fun _ => clean_modify
  | element id index holder =>
    exact readOnly_checkAcyclic.clean_bind fun _ => readOnly_get.clean_bind fun _ =>
      readOnly_lift.clean_bind fun _ => clean_modify

theorem clean_assignTo {p : Place} {target : String} {op : AssignOp} {v : Value} :
    (assignTo p target op v pos).Clean := by
  refine readOnly_read.clean_bind fun current => ?_
  cases op with
  | plain =>
    refine readOnly_slotKind.clean_bind fun slot => ?_
    cases slot.coerce v with
    | some w => exact clean_write
    | none => exact (readOnly_get.bind fun _ => readOnly_fault).clean
  | compound op =>
    refine readOnly_lift.clean_bind fun w => ReadOnly.clean_bind (fun _ => rfl) fun _ => ?_
    exact clean_write

theorem clean_stepBy {p : Place} {op : StepOp} : (stepBy p op pos).Clean := by
  refine readOnly_read.clean_bind fun v => ?_
  cases v with
  | int n => exact clean_write
  | rune n => exact clean_write
  | _ => exact readOnly_fault.clean

end Actions

end Eval

/-! ### Statements -/

section Statements

variable {ctx : Context} {frame : FrameId} {m m' : Machine} {pos at' : Position} {f : Fault}

/-- If the target of an assignment is a place, all its expressions are evaluated before it fails. -/
theorem assign_fails {target : Target} {op : AssignOp} {e : Expr} {p : Place} {m₁ : Machine}
    (hplace : (placeOf ctx target frame pos).run m = .ok p m₁)
    (h : ((Stmt.assign target op e pos).raw ctx frame).run m = .error (.fault f at') m') :
    m' = m.evaluated ctx frame (target.indices ++ [e]) := by
  obtain ⟨vs, hvs⟩ := (draws_placeOf target).ok hplace
  rw [evaluated_append hvs, evaluated_operand]
  have hrest := (run_bind_of_ok hplace).symm.trans h
  rcases run_bind_error.mp hrest with herror | ⟨v, m₂, hvalue, hassign⟩
  · rw [herror]
    rfl
  · rw [hvalue]
    exact clean_assignTo hassign

theorem step_fails {target : Target} {op : StepOp} {p : Place} {m₁ : Machine}
    (hplace : (placeOf ctx target frame pos).run m = .ok p m₁)
    (h : ((Stmt.step target op pos).raw ctx frame).run m = .error (.fault f at') m') :
    m' = m.evaluated ctx frame target.indices := by
  obtain ⟨vs, hvs⟩ := (draws_placeOf target).ok hplace
  have hrest := (run_bind_of_ok hplace).symm.trans h
  rw [Machine.evaluated, hvs]
  exact clean_stepBy hrest

/-- Where the target is no place, it has not come to more than the first of its indices. -/
theorem target_fails {target : Target} {g : Place → Eval Unit}
    (hplace : ¬ ∃ p m₁, (placeOf ctx target frame pos).run m = .ok p m₁)
    (h : (placeOf ctx target frame pos >>= g).run m = .error (.fault f at') m') :
    ∃ k, k ≤ target.indices.length ∧ m' = m.evaluated ctx frame (target.indices.take k) := by
  rcases run_bind_error.mp h with h | ⟨p, m₁, hr, -⟩
  · exact (draws_placeOf target).error h
  · exact absurd ⟨p, m₁, hr⟩ hplace

theorem failsIn_varDecl {names : List Binder} {type : Option TypeExpr} {es : List Expr} :
    FailsIn ctx frame (type.elim [] TypeExpr.sizes ++ es)
      ((Stmt.varDecl names type es pos).raw ctx frame) := by
  refine (draws_declaredType type).failsIn_bind fun t => ?_
  by_cases he : es.isEmpty = true
  · rw [if_pos he]
    exact (faultless_pure.bind fun vs => faultless_declareVars names vs).failsIn
  · rw [if_neg he]
    exact (failsIn_values es _).bind fun vs => faultless_declareVars names vs

theorem failsIn_constDecl {x : String} {type : Option TypeExpr} {e : Expr} :
    FailsIn ctx frame (type.elim [] TypeExpr.sizes ++ [e])
      ((Stmt.constDecl x type e pos).raw ctx frame) := by
  refine readOnly_get.draws.failsIn_bind fun m => FailsIn.ifFault ?_
  refine (draws_declaredType type).failsIn_bind fun t => ?_
  exact (failsIn_values [e] 1).bind fun vs => faultless_firstValue.bind fun v => faultless_declare

theorem failsIn_shortDecl {names : List Binder} {es : List Expr} :
    FailsIn ctx frame es ((Stmt.shortDecl names es pos).raw ctx frame) := by
  refine readOnly_get.draws.failsIn_bind fun m => FailsIn.ifFault (FailsIn.ifFault ?_)
  exact (failsIn_values es _).bind fun vs => faultless_declareShorts _

/-- **What a failed statement has done** is evaluating its expressions, all of them if its target is
a place. -/
theorem Stmt.raw_fails {s : Stmt} (hs : s.isUpdate = true)
    (h : (s.raw ctx frame).run m = .error (.fault f at') m') :
    ∃ k, m' = m.evaluated ctx frame (s.inputs.take k) ∧
      (s.HasPlace ctx frame m → k = s.inputs.length) := by
  cases s with
  | assign target op e pos =>
    by_cases hplace : ∃ p m₁, (placeOf ctx target frame pos).run m = .ok p m₁
    · obtain ⟨p, m₁, hp⟩ := hplace
      refine ⟨_, ?_, fun _ => rfl⟩
      rw [List.take_length]
      exact assign_fails hp h
    · obtain ⟨k, hk, rfl⟩ := target_fails hplace h
      refine ⟨k, ?_, fun hp => absurd hp hplace⟩
      rw [Stmt.inputs, List.take_append_of_le_length hk]
  | step target op pos =>
    by_cases hplace : ∃ p m₁, (placeOf ctx target frame pos).run m = .ok p m₁
    · obtain ⟨p, m₁, hp⟩ := hplace
      refine ⟨_, ?_, fun _ => rfl⟩
      rw [List.take_length]
      exact step_fails hp h
    · obtain ⟨k, -, hk⟩ := target_fails hplace h
      exact ⟨k, hk, fun hp => absurd hp hplace⟩
  | varDecl names type es pos =>
    obtain ⟨k, -, hk⟩ := failsIn_varDecl h
    exact ⟨k, hk, fun hp => hp.elim⟩
  | constDecl x type e pos =>
    obtain ⟨k, -, hk⟩ := failsIn_constDecl h
    exact ⟨k, hk, fun hp => hp.elim⟩
  | shortDecl names es pos =>
    obtain ⟨k, -, hk⟩ := failsIn_shortDecl h
    exact ⟨k, hk, fun hp => hp.elim⟩
  | _ => cases hs

end Statements

/-- Without calls, evaluating expressions changes nothing but what was reported and made. -/
theorem evaluated_undisturbed {literals : Bool} (ctx : Context) (frame : FrameId) {es : List Expr}
    (h : es.all (Expr.isCallFree literals) = true) (k : Nat) (m : Machine) :
    m.Undisturbed literals (m.evaluated ctx frame (es.take k)) := by
  refine calm_operands ctx _ frame ?_ m
  rw [Expr.allCallFree_eq, List.all_eq_true]
  exact fun e he => List.all_eq_true.mp h e (List.mem_of_mem_take he)

/-- Evaluating expressions declares no name in the frame, whatever is called. -/
theorem local?_evaluated (config : Config) (rounds levels : Nat) {frame : FrameId}
    {m : Machine} {x : String} (es : List Expr) (hx : m.frames.local? frame x = none) :
    (m.evaluated (.ofLevels config rounds levels) frame es).frames.local? frame x = none := by
  have hcalls := Discipline.calls_ofLevels (.sparing m.memory) config rounds False levels
  have hkeeps := Discipline.keeps_operands hcalls es frame (m := m)
    (Discipline.ready_sparing frame fun hf => hf.elim)
  exact hkeeps.ends.leads.free_of_sparing hx

/-- **A failed statement changes nothing.** Whatever the machine, an assignment, a step or a
declaration that ends in a fault leaves exactly what evaluating the first of its expressions leaves,
and if its target is a place, what evaluating them all leaves. Without calls among them, that is the
machine as it was, but for reports and the storages of array literals; and even with calls, its
frame binds no name that it did not bind before. Nor does any other expression without calls change
more than that. -/
theorem failed_statements_change_nothing (config : Config) (rounds levels : Nat) :
    let ctx := Context.ofLevels config rounds levels
    (∀ (s : Stmt) frame m f pos m', s.isUpdate = true →
      (s.raw ctx frame).run m = .error (.fault f pos) m' →
      (∃ k, m' = m.evaluated ctx frame (s.inputs.take k) ∧
        (s.HasPlace ctx frame m → k = s.inputs.length)) ∧
      (∀ literals, s.inputs.all (Expr.isCallFree literals) = true → m.Undisturbed literals m') ∧
      ∀ x, m.frames.local? frame x = none → m'.frames.local? frame x = none) ∧
    ∀ (e : Expr) literals frame (m : Machine), e.isCallFree literals = true →
      m.Undisturbed literals ((e.eval ctx frame).run m).machine := by
  intro ctx
  refine ⟨fun s frame m f pos m' hs h => ?_, fun e literals frame m he => ?_⟩
  · obtain ⟨k, hk, hplace⟩ := s.raw_fails hs h
    refine ⟨⟨k, hk, hplace⟩, fun literals hfree => ?_, fun x hx => ?_⟩
    · rw [hk]
      exact evaluated_undisturbed ctx frame hfree k m
    · rw [hk]
      exact local?_evaluated config rounds levels _ hx
  · exact (calm_raw ctx e frame he).settled m

/-- A global array, and a function that prints, writes to the array and gives a text. -/
def noisy : Parsed :=
  let o := Position.origin
  ⟨⟨[.varDecl [⟨"a", o⟩] (some (.array (.int "2" o) .int32)) [] o,
    .func ⟨"noisy", [], [.string],
      [.expr (.call "println" [.str "called" o] o) o,
        .assign (.index "a" [.int "1" o]) .plain (.int "5" o) o,
        .returnStmt [.str "text" o] o]⟩ o]⟩, []⟩

def afterNoisy : Machine := Machine.initial.executeParsed ⟨⟨3, none⟩, ""⟩ noisy

/-- What the function gives is assigned to an element that takes integers only. -/
def mismatched : Stmt :=
  let o := Position.origin
  .assign (.index "a" [.int "0" o]) .plain (.call "noisy" [] o) o

/-- The fault that an action ends in. -/
def Outcome.fault? {α : Type} : Outcome α → Option (Fault × Position)
  | .error (.fault f pos) _ => some (f, pos)
  | _ => none

theorem Outcome.eq_error_of_fault? {α : Type} {r : Outcome α} {f : Fault} {pos : Position}
    (h : r.fault? = some (f, pos)) : r = .error (.fault f pos) r.machine := by
  cases r with
  | ok a m => cases h
  | error s m =>
    cases s with
    | fault f' pos' =>
      cases h
      rfl
    | _ => cases h

theorem mismatched_leaves_its_call :
    mismatched.HasPlace (.ofLevels ⟨⟨3, none⟩, ""⟩ 1 2) Frames.globalId afterNoisy ∧
      mismatched.inputs.all (Expr.isCallFree true) = false ∧
      ∃ f pos m', (mismatched.raw (.ofLevels ⟨⟨3, none⟩, ""⟩ 1 2) Frames.globalId).run afterNoisy =
          .error (.fault f pos) m' ∧
        m' = afterNoisy.evaluated (.ofLevels ⟨⟨3, none⟩, ""⟩ 1 2) Frames.globalId
          mismatched.inputs ∧
        m'.output = #["called"] ∧
        (m'.frames.value? Frames.globalId "a").map m'.heap.text = some "[0 5]" := by
  have hplace : mismatched.HasPlace (.ofLevels ⟨⟨3, none⟩, ""⟩ 1 2) Frames.globalId afterNoisy := by
    have hok : ((placeOf (.ofLevels ⟨⟨3, none⟩, ""⟩ 1 2) (.index "a" [.int "0" .origin])
        Frames.globalId .origin).run afterNoisy).result?.isSome = true := by decide +kernel
    obtain ⟨place, hresult⟩ := Option.isSome_iff_exists.mp hok
    exact ⟨place, _, Outcome.eq_ok_of_result? hresult⟩
  have hfault : ((mismatched.raw (.ofLevels ⟨⟨3, none⟩, ""⟩ 1 2) Frames.globalId).run
      afterNoisy).fault?.isSome = true := by decide +kernel
  have houtput : (afterNoisy.evaluated (.ofLevels ⟨⟨3, none⟩, ""⟩ 1 2) Frames.globalId
      mismatched.inputs).output = #["called"] := by decide +kernel
  have harray : ((afterNoisy.evaluated (.ofLevels ⟨⟨3, none⟩, ""⟩ 1 2) Frames.globalId
      mismatched.inputs).frames.value? Frames.globalId "a").map (afterNoisy.evaluated
        (.ofLevels ⟨⟨3, none⟩, ""⟩ 1 2) Frames.globalId mismatched.inputs).heap.text =
      some "[0 5]" := by decide +kernel
  obtain ⟨⟨f, pos⟩, hresult⟩ := Option.isSome_iff_exists.mp hfault
  have hrun := Outcome.eq_error_of_fault? hresult
  obtain ⟨⟨k, hk, hall⟩, -⟩ :=
    (failed_statements_change_nothing ⟨⟨3, none⟩, ""⟩ 1 2).1 _ _ _ _ _ _ rfl hrun
  rw [hall hplace, List.take_length] at hk
  exact ⟨hplace, by decide +kernel, f, pos, _, hrun, hk, by rw [hk, houtput], by rw [hk, harray]⟩

end Treewalk
