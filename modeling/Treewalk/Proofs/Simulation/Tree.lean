/-
# Evaluation is related to itself

A simulation relates the evaluation of every tree in two contexts that tell
the same time, whose calls are related and of which the second allows at least
as many rounds. The induction is over the tree. Calls are related by a second
induction, over the levels of calls: a call is evaluation with one level
less.

Key definitions: `Simulation.Contexts`.
Key theorems: `Simulation.expr`, `Simulation.stmt`, `Simulation.ofLevels`,
`Simulation.program`.
-/
import Treewalk.Proofs.Simulation.Actions

namespace Treewalk
namespace Simulation

open Eval

/-- Two contexts in which evaluation is related. -/
structure Contexts {limits limits' : Limits} (S : Simulation limits limits') (ctx ctx' : Context) :
    Prop where
  limits : ctx.config.limits = limits
  limits' : ctx'.config.limits = limits'
  time : ctx.config.time = ctx'.config.time
  rounds : ctx.rounds ≤ ctx'.rounds
  call : ∀ func args pos, S.Rel (ctx.call func args pos) (ctx'.call func args pos)

variable {limits limits' : Limits} {S : Simulation limits limits'} {ctx ctx' : Context}
  {frame : FrameId} {pos : Position}

/-! ### Expressions -/

mutual

theorem expr (hc : S.Contexts ctx ctx') : ∀ (e : Expr) (frame : FrameId),
    S.Rel (e.raw ctx frame) (e.raw ctx' frame)
  | .int .., _ => S.quiet quiet_require
  | .float .., _ => S.quiet quiet_require
  | .str .., _ => S.quiet quiet_pure
  | .rune .., _ => S.quiet quiet_pure
  | .bool .., _ => S.quiet quiet_pure
  | .nil _, _ => S.quiet quiet_pure
  | .name .., _ => S.quiet quiet_lookup
  | .binary op lhs rhs pos, frame =>
    S.bind (one (expr hc lhs frame)) fun _ => S.bind (one (expr hc rhs frame)) fun _ =>
      S.quiet quiet_lift
  | .logical op lhs rhs _, frame => by
    refine S.bind (one (expr hc lhs frame)) fun v => ite (S.quiet quiet_pure) ?_
    exact S.bind (one (expr hc rhs frame)) fun _ => S.quiet quiet_pure
  | .unary op operand _, frame => by
    refine S.bind (one (expr hc operand frame)) fun v => ?_
    cases op <;> exact S.quiet quiet_pure
  | .addressOf .., _ => S.quiet quiet_addressOf
  | .deref operand _, frame =>
    S.bind (one (expr hc operand frame)) fun _ => S.quiet quiet_deref
  | .call callee args pos, frame => by
    refine after quiet_get fun m => ?_
    cases m.functions.lookup callee with
    | some func =>
      refine S.bind (arguments hc args frame) fun vs => ?_
      exact after quiet_passed fun _ => hc.call func vs pos
    | none =>
      refine after quiet_require fun b => S.bind (arguments hc args frame) fun vs => ?_
      rw [hc.time]
      exact after quiet_passed fun _ => S.quiet quiet_runBuiltin
  | .index x indices _, frame => by
    refine after quiet_get fun _ => after quiet_require fun owner => ?_
    exact S.bind (path hc indices frame) fun _ => S.quiet quiet_index
  | .array t elements _, frame => by
    refine S.bind (type hc t frame) fun ty => ?_
    cases ty with
    | array size elem =>
      exact S.bind (items hc elem elements frame #[]) fun _ => S.quiet quiet_newArray
    | _ => exact S.quiet quiet_fault
  | .elements .., _ => S.quiet quiet_fault

theorem operands (hc : S.Contexts ctx ctx') : ∀ (es : List Expr) (frame : FrameId),
    S.Rel (Expr.operands ctx es frame) (Expr.operands ctx' es frame)
  | [], _ => S.quiet quiet_pure
  | e :: es, frame =>
    S.bind (one (expr hc e frame)) fun _ => S.bind (operands hc es frame) fun _ =>
      S.quiet quiet_pure

theorem arguments (hc : S.Contexts ctx ctx') : ∀ (es : List Expr) (frame : FrameId),
    S.Rel (Expr.arguments ctx es frame) (Expr.arguments ctx' es frame)
  | [], _ => S.quiet quiet_pure
  | [e], frame => by
    refine S.bind (settled (expr hc e frame)) fun v => ?_
    cases v <;> exact S.quiet quiet_pure
  | e :: e' :: es, frame =>
    S.bind (one (expr hc e frame)) fun _ => S.bind (operands hc (e' :: es) frame) fun _ =>
      S.quiet quiet_pure

theorem path (hc : S.Contexts ctx ctx') : ∀ (es : List Expr) (frame : FrameId),
    S.Rel (Expr.path ctx es frame) (Expr.path ctx' es frame)
  | [], _ => S.quiet quiet_pure
  | e :: es, frame =>
    S.bind (one (expr hc e frame)) fun _ => after quiet_lift fun _ =>
      S.bind (path hc es frame) fun _ => S.quiet quiet_pure

theorem items (hc : S.Contexts ctx ctx') : ∀ (elem : Ty) (es : List Expr) (frame : FrameId)
    (done : Array Value), S.Rel (Expr.items ctx elem es frame done)
      (Expr.items ctx' elem es frame done)
  | _, [], _, _ => S.quiet quiet_pure
  | elem, e :: es, frame, done => by
    have hrest : ∀ v : Value, S.Rel (Expr.items ctx elem es frame (done.push v))
        (Expr.items ctx' elem es frame (done.push v)) :=
      fun v => items hc elem es frame (done.push v)
    cases e with
    | elements inner pos =>
      cases elem with
      | array size elem' =>
        refine S.bind (items hc elem' inner frame #[]) fun vs => ?_
        exact after quiet_newArray hrest
      | _ => exact after quiet_report fun _ => after quiet_onHeap hrest
    | _ => exact S.bind (one (expr hc _ frame)) fun _ => after quiet_arrayItem hrest

theorem type (hc : S.Contexts ctx ctx') : ∀ (t : TypeExpr) (frame : FrameId),
    S.Rel (t.eval ctx frame) (t.eval ctx' frame)
  | .int32, _ => S.quiet quiet_pure
  | .float32, _ => S.quiet quiet_pure
  | .bool, _ => S.quiet quiet_pure
  | .string, _ => S.quiet quiet_pure
  | .rune, _ => S.quiet quiet_pure
  | .array size elem, frame =>
    S.bind (one (expr hc size frame)) fun _ => after quiet_arraySize fun _ =>
      S.bind (type hc elem frame) fun _ => S.quiet quiet_pure
  | .pointer target, frame => S.bind (type hc target frame) fun _ => S.quiet quiet_pure

end

theorem operand (hc : S.Contexts ctx ctx') (e : Expr) (frame : FrameId) :
    S.Rel (e.operand ctx frame) (e.operand ctx' frame) :=
  one (expr hc e frame)

/-! ### The parts of statements -/

theorem values (hc : S.Contexts ctx ctx') (es : List Expr) (count : Nat) :
    S.Rel (Eval.values ctx es count frame pos) (Eval.values ctx' es count frame pos) := by
  unfold Eval.values
  split
  · refine S.bind (settled (expr hc _ frame)) fun v => ?_
    cases v <;> exact ite (S.quiet quiet_pure) (S.quiet quiet_fault)
  · exact ite (operands hc _ frame) (S.quiet quiet_fault)

theorem declaredType (hc : S.Contexts ctx ctx') (t : Option TypeExpr) :
    S.Rel (Eval.declaredType ctx t frame) (Eval.declaredType ctx' t frame) := by
  cases t with
  | none => exact S.quiet quiet_pure
  | some t => exact S.bind (type hc t frame) fun _ => S.quiet quiet_pure

theorem placeOf (hc : S.Contexts ctx ctx') (target : Target) :
    S.Rel (Eval.placeOf ctx target frame pos) (Eval.placeOf ctx' target frame pos) := by
  cases target with
  | name x => exact after quiet_writableOwner fun _ => S.quiet quiet_pure
  | deref x => exact after quiet_lookup fun _ => after quiet_follow fun _ => S.quiet quiet_pure
  | index x indices =>
    refine after quiet_writableOwner fun owner => ?_
    exact S.bind (path hc indices frame) fun _ => S.quiet quiet_element

theorem condition (hc : S.Contexts ctx ctx') (e : Expr) :
    S.Rel (Eval.condition ctx e frame) (Eval.condition ctx' e frame) := by
  refine S.bind (settled (expr hc e frame)) fun v => ite ?_ (S.quiet quiet_pure)
  exact after quiet_fault fun _ => S.quiet quiet_pure

theorem tickIn (hc : S.Contexts ctx ctx') (pos : Position) :
    S.Rel (Eval.tick ctx.config.limits pos) (Eval.tick ctx'.config.limits pos) := by
  rw [hc.limits, hc.limits']
  exact S.tick pos

theorem deeperIn (hc : S.Contexts ctx ctx') {α : Type} {x y : Eval α} (h : S.Rel x y) :
    S.Rel (Eval.deeper ctx.config.limits pos x) (Eval.deeper ctx'.config.limits pos y) := by
  rw [hc.limits, hc.limits']
  exact S.deeper pos h

theorem statementIn (hc : S.Contexts ctx ctx') {x y : Eval Unit} (h : S.Rel x y) :
    S.Rel (Eval.statement ctx.config.limits pos x) (Eval.statement ctx'.config.limits pos y) :=
  S.bind (tickIn hc pos) fun _ => orElseReport h

theorem loopCheck (hc : S.Contexts ctx ctx') (e : Option Expr) :
    S.Rel (Eval.loopCheck ctx e pos frame) (Eval.loopCheck ctx' e pos frame) := by
  refine S.bind (tickIn hc pos) fun _ => ?_
  cases e with
  | none => exact S.quiet quiet_pure
  | some e => exact condition hc e

theorem caseMatches (hc : S.Contexts ctx ctx') (subject : Value) : ∀ es : List Expr,
    S.Rel (Eval.caseMatches ctx subject frame es) (Eval.caseMatches ctx' subject frame es)
  | [] => S.quiet quiet_pure
  | e :: es => S.bind (operand hc e frame) fun _ => ite (S.quiet quiet_pure)
      (caseMatches hc subject es)

theorem returned (hc : S.Contexts ctx ctx') (es : List Expr) :
    S.Rel (Eval.returned ctx es frame) (Eval.returned ctx' es frame) := by
  unfold Eval.returned
  split
  · exact S.quiet quiet_pure
  · exact operand hc _ frame
  · exact S.bind (operands hc _ frame) fun _ => S.quiet quiet_pure

/-! ### Statements -/

mutual

theorem stmt (hc : S.Contexts ctx ctx') : ∀ (s : Stmt) (frame : FrameId),
    S.Rel (s.raw ctx frame) (s.raw ctx' frame)
  | .varDecl names t es pos, frame => by
    refine S.bind (declaredType hc t) fun ty => ite ?_ ?_
    · exact after quiet_pure fun _ => S.quiet (quiet_declareVars _ _)
    · exact S.bind (values hc es _) fun _ => S.quiet (quiet_declareVars _ _)
  | .constDecl x t e pos, frame => by
    refine after quiet_get fun _ => ifFault ?_
    refine S.bind (declaredType hc t) fun ty => S.bind (values hc [e] 1) fun vs => ?_
    exact after quiet_firstValue fun _ => S.quiet quiet_declare
  | .shortDecl names es pos, frame => by
    refine after quiet_get fun m => ifFault (ifFault ?_)
    exact S.bind (values hc es _) fun vs => S.quiet (quiet_declareShorts _)
  | .assign target op e pos, frame =>
    S.bind (placeOf hc target) fun _ => S.bind (operand hc e frame) fun _ => S.quiet quiet_assignTo
  | .step target op pos, frame => S.bind (placeOf hc target) fun _ => S.quiet quiet_stepBy
  | .expr e _, frame => S.bind (settled (expr hc e frame)) fun _ => S.quiet quiet_pure
  | .block body _, frame => inScope (inFrame fun inner => execAll hc body inner)
  | .ifElse branches otherwise _, frame => by
    refine S.bind (execBranches hc branches frame) fun found => ite (S.quiet quiet_pure) ?_
    exact inScope (execOtherwise hc otherwise frame)
  | .loop init check post body pos, frame => by
    refine inScope (inFrame fun inner => S.bind (execOptional hc init inner) fun _ => ?_)
    exact rounds (loopCheck hc check) (inFrame fun inner => execAll hc body inner)
      (execOptional hc post inner) hc.rounds
  | .switch subject clauses otherwise _, frame => by
    refine inScope (inFrame fun inner => untilBreak ?_)
    refine S.bind (operand hc subject inner) fun v => ?_
    refine S.bind (execClauses hc v clauses false inner) fun found => ite (S.quiet quiet_pure) ?_
    exact execOtherwise hc otherwise inner
  | .breakStmt _, _ =>
    after quiet_get fun _ => ite (S.quiet (quiet_signal rfl)) (S.quiet quiet_fault)
  | .continueStmt _, _ =>
    after quiet_get fun _ => ite (S.quiet (quiet_signal rfl)) (S.quiet quiet_fault)
  | .returnStmt es _, frame => by
    refine after quiet_get fun _ => unlessFault ?_
    exact S.bind (returned hc es) fun _ => S.quiet (quiet_signal rfl)
  | .func .., _ => S.quiet quiet_pure

theorem execAll (hc : S.Contexts ctx ctx') : ∀ (ss : List Stmt) (frame : FrameId),
    S.Rel (Stmt.execAll ctx ss frame) (Stmt.execAll ctx' ss frame)
  | [], _ => S.quiet quiet_pure
  | s :: ss, frame => S.bind (statementIn hc (stmt hc s frame)) fun _ => execAll hc ss frame

theorem execOptional (hc : S.Contexts ctx ctx') : ∀ (s? : Option Stmt) (frame : FrameId),
    S.Rel (Stmt.execOptional ctx s? frame) (Stmt.execOptional ctx' s? frame)
  | none, _ => S.quiet quiet_pure
  | some s, frame => statementIn hc (stmt hc s frame)

theorem execOtherwise (hc : S.Contexts ctx ctx') : ∀ (body : Option (List Stmt)) (frame : FrameId),
    S.Rel (Stmt.execOtherwise ctx body frame) (Stmt.execOtherwise ctx' body frame)
  | none, _ => S.quiet quiet_pure
  | some body, _ => inFrame fun inner => execAll hc body inner

theorem execBranches (hc : S.Contexts ctx ctx') : ∀ (branches : List (Branch Stmt))
    (frame : FrameId), S.Rel (Stmt.execBranches ctx branches frame)
      (Stmt.execBranches ctx' branches frame)
  | [], _ => S.quiet quiet_pure
  | ⟨e, body⟩ :: rest, frame => by
    refine S.bind (condition hc e) fun holds => ite ?_ (execBranches hc rest frame)
    exact S.bind (inScope (inFrame fun inner => execAll hc body inner)) fun _ => S.quiet quiet_pure

theorem execClauses (hc : S.Contexts ctx ctx') (subject : Value) :
    ∀ (clauses : List (Clause Stmt)) (found : Bool) (frame : FrameId),
    S.Rel (Stmt.execClauses ctx subject clauses found frame)
      (Stmt.execClauses ctx' subject clauses found frame)
  | [], _, _ => S.quiet quiet_pure
  | ⟨es, body, _⟩ :: rest, found, frame => by
    -- once it is known whether the case runs
    have hrun : ∀ found : Bool, S.Rel
        (if found then do
            Eval.inFrame frame fun inner => Stmt.execAll ctx body inner
            Stmt.execClauses ctx subject rest found frame
          else Stmt.execClauses ctx subject rest found frame)
        (if found then do
            Eval.inFrame frame fun inner => Stmt.execAll ctx' body inner
            Stmt.execClauses ctx' subject rest found frame
          else Stmt.execClauses ctx' subject rest found frame) := fun found => by
      have hrest := execClauses hc subject rest found frame
      exact ite (S.bind (inFrame fun inner => execAll hc body inner) fun _ => hrest) hrest
    cases found with
    | true => exact after quiet_pure hrun
    | false => exact S.bind (caseMatches hc subject es) hrun

end

theorem exec (hc : S.Contexts ctx ctx') (s : Stmt) (frame : FrameId) :
    S.Rel (s.exec ctx frame) (s.exec ctx' frame) :=
  statementIn hc (stmt hc s frame)

/-! ### Calls -/

theorem bindParam (hc : S.Contexts ctx ctx') (p : Param) (v : Value) :
    S.Rel (Eval.bindParam ctx frame p v) (Eval.bindParam ctx' frame p v) := by
  have hbind : ∀ (t : Ty) (w : Value), (if t.accepts w then
      Eval.declare frame p.name (some t) w p.pos .parameter
      else do
        let m ← get
        Eval.fault (.typeMismatch p.name t.label (m.typeLabel w)) p.pos).Quiet := fun t w =>
    quiet_ite quiet_declare (quiet_get.bind fun _ => quiet_fault)
  refine S.bind (type hc p.type frame) fun t => ite ?_ ?_
  · exact after quiet_pure fun w => S.quiet (hbind t w)
  · exact after quiet_onHeap.map fun w => S.quiet (hbind t w)

theorem bindParams (hc : S.Contexts ctx ctx') : ∀ ps : List (Param × Value),
    S.Rel (ps.forM fun (p, v) => Eval.bindParam ctx frame p v)
      (ps.forM fun (p, v) => Eval.bindParam ctx' frame p v)
  | [] => S.quiet (x := pure PUnit.unit) quiet_pure
  | (p, v) :: ps => S.bind (bindParam hc p v) fun _ => bindParams hc ps

theorem runFunction (hc : S.Contexts ctx ctx') (func : FuncDecl) (args : List Value)
    (pos : Position) :
    S.Rel (Eval.runFunction ctx func args pos) (Eval.runFunction ctx' func args pos) := by
  refine unlessFault (deeperIn hc ?_)
  refine inScope (inCall (inFrame fun frame => returnValue ?_))
  exact S.bind (bindParams hc _) fun _ => execAll hc func.body frame

section Levels

variable {config config' : Config} {n n' : Nat}

/-- Calls, of which the second has no fewer levels below it. -/
theorem invoke (S : Simulation limits limits') (hl : config.limits = limits)
    (hl' : config'.limits = limits') (ht : config.time = config'.time) (hn : n ≤ n') :
    ∀ {k k'}, k ≤ k' → ∀ func args pos,
      S.Rel (Eval.invoke config n k func args pos) (Eval.invoke config' n' k' func args pos)
  | 0, 0, _, _, _, _ => S.exhausted
  | 0, k' + 1, _, func, args, pos => by
    -- a call with no levels is cut off from the same call with as many as the second has
    have hc : S.Contexts ⟨config, n, Eval.invoke config n k'⟩
        ⟨config', n', Eval.invoke config' n' k'⟩ :=
      ⟨hl, hl', ht, hn, invoke S hl hl' ht hn (Nat.le_refl k')⟩
    exact S.cut (runFunction hc func args pos)
  | _ + 1, _ + 1, hk, func, args, pos =>
    runFunction ⟨hl, hl', ht, hn, invoke S hl hl' ht hn (Nat.le_of_succ_le_succ hk)⟩ func args pos

/-- Contexts of which the second allows no fewer rounds and levels. -/
theorem ofLevels (S : Simulation limits limits') (hl : config.limits = limits)
    (hl' : config'.limits = limits') (ht : config.time = config'.time) (hn : n ≤ n') {k k' : Nat}
    (hk : k ≤ k') : S.Contexts (.ofLevels config n k) (.ofLevels config' n' k') :=
  ⟨hl, hl', ht, hn, invoke S hl hl' ht hn hk⟩

end Levels

/-! ### Programs -/

theorem globals (hc : S.Contexts ctx ctx') : ∀ ss : List Stmt,
    S.Rel (ss.forM fun s => s.exec ctx frame) (ss.forM fun s => s.exec ctx' frame)
  | [] => S.quiet (x := pure PUnit.unit) quiet_pure
  | s :: ss => S.bind (exec hc s frame) fun _ => globals hc ss

/-- **A program is related to itself.** -/
theorem program (hc : S.Contexts ctx ctx') (p : Program) :
    S.Rel (Eval.program ctx p) (Eval.program ctx' p) := by
  refine after (quiet_hoistAll _ _) fun _ => S.bind (globals hc p.globals) fun _ => ?_
  cases p.main? with
  | none => exact S.quiet quiet_pure
  | some d =>
    refine after quiet_declareFunction fun _ => ?_
    exact S.bind (hc.call d.func [] d.pos) fun _ => S.quiet quiet_pure

end Simulation
end Treewalk
