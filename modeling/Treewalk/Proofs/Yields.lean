/-
# Expressions that only have a value

Many an expression has a value and does nothing else: evaluating it leaves the
machine as it is, so that nothing is printed or reported. An operator on such
expressions makes another one if it does not fail on their values, and so does
a call of a built-in function that prints nothing, unless the program has a
function of that name.

Key definitions: `Expr.Yields`.
Key theorems: `Expr.Yields.binary`, `Expr.yields_builtin`.
-/
import Treewalk.Eval.Expression
import Treewalk.Proofs.Outcome

namespace Treewalk

/-- In the machine the expression has the value, and evaluating it does nothing else. -/
def Expr.Yields (e : Expr) (ctx : Context) (frame : FrameId) (m : Machine) (v : Value) : Prop :=
  (e.eval ctx frame).run m = .ok v m

namespace Expr

variable {ctx : Context} {frame : FrameId} {m : Machine}

theorem yields_of_raw {e : Expr} {v : Value} (h : (e.raw ctx frame).run m = .ok v m) :
    e.Yields ctx frame m v :=
  Eval.run_settled_of_ok h

theorem Yields.one {e : Expr} {v : Value} (h : e.Yields ctx frame m v) (hv : v.isMulti = false) :
    (Eval.one e.pos (e.raw ctx frame)).run m = .ok v m :=
  Eval.run_one_of_settled h hv e.pos

theorem yields_int {text : String} {n : Int32} (h : readInt32? text = some n) (pos : Position) :
    (Expr.int text pos).Yields ctx frame m (.int n) := by
  refine yields_of_raw ?_
  rw [Expr.raw, h]
  rfl

theorem yields_str {raw : String} {s : String} (h : String.ofList (decodeEscapes raw.toList) = s)
    (pos : Position) : (Expr.str raw pos).Yields ctx frame m (.str s) := by
  refine yields_of_raw ?_
  rw [Expr.raw, h]
  rfl

/-- An operator that does not fail on the values of its operands. -/
theorem Yields.binary {op : BinaryOp} {l r : Expr} {v w u : Value} (hl : l.Yields ctx frame m v)
    (hr : r.Yields ctx frame m w) (hv : v.isMulti = false) (hw : w.isMulti = false)
    (hu : v.apply op w = .ok u) (pos : Position) :
    (Expr.binary op l r pos).Yields ctx frame m u := by
  refine yields_of_raw ?_
  rw [Expr.raw, Eval.run_bind_of_ok (hl.one hv), Eval.run_bind_of_ok (hr.one hw), hu]
  rfl

theorem run_operands : ∀ (args : List (Expr × Value)),
    (∀ p ∈ args, p.1.Yields ctx frame m p.2 ∧ p.2.isMulti = false) →
    (Expr.operands ctx (args.map Prod.fst) frame).run m = .ok (args.map Prod.snd) m
  | [], _ => rfl
  | p :: args, h => by
    obtain ⟨hp, hv⟩ := h p List.mem_cons_self
    have hargs := run_operands args fun q hq => h q (List.mem_cons_of_mem _ hq)
    rw [List.map_cons, Expr.operands, Eval.run_bind_of_ok (hp.one hv), Eval.run_bind_of_ok hargs]
    rfl

theorem run_arguments : ∀ (args : List (Expr × Value)),
    (∀ p ∈ args, p.1.Yields ctx frame m p.2 ∧ p.2.isMulti = false) →
    (Expr.arguments ctx (args.map Prod.fst) frame).run m = .ok (args.map Prod.snd) m
  | [], _ => rfl
  | [p], h => by
    obtain ⟨hp, hv⟩ := h p List.mem_cons_self
    rw [List.map_singleton, List.map_singleton, Expr.arguments]
    refine (Eval.run_bind_of_ok hp).trans ?_
    cases hval : p.2 with
    | multi vs => rw [hval] at hv; cases hv
    | _ => rfl
  | p :: q :: args, h => run_operands (p :: q :: args) h

/-- A call of a built-in function that prints nothing. -/
theorem yields_builtin {callee : String} {b : Builtin} (args : List (Expr × Value)) {v : Value}
    (hf : m.functions.lookup callee = none) (hb : Builtin.named? callee = some b)
    (hargs : ∀ p ∈ args, p.1.Yields ctx frame m p.2 ∧ p.2.isMulti = false)
    (hrun : b.run ctx.config.time m.heap (args.map Prod.snd) #[] = .ok (v, #[]))
    (pos : Position) : (Expr.call callee (args.map Prod.fst) pos).Yields ctx frame m v := by
  have hbuiltin : (Eval.runBuiltin b ctx.config.time (args.map Prod.snd) pos).run m = .ok v m := by
    have hout : { m with output := m.output ++ #[] } = m := by rw [Array.append_empty]
    refine (Eval.run_bind_of_ok rfl).trans ?_
    rw [hrun]
    exact congrArg (EStateM.Result.ok v) hout
  refine yields_of_raw ?_
  rw [Expr.raw, Eval.run_bind_of_ok rfl]
  simp only [hf, hb]
  refine (Eval.run_bind_of_ok rfl).trans ?_
  refine (Eval.run_bind_of_ok (run_arguments args hargs)).trans ?_
  exact (Eval.run_bind_of_ok rfl).trans hbuiltin

end Expr

end Treewalk
