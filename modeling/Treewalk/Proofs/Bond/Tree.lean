/-
# Evaluation keeps machines tied

Every tree keeps machines tied, as long as its declarations stand at the sites
of the bond: a statement is executed with the scope open that lies around it
in the source, and what is nested in it with the scope that it opens. The
induction is over the tree. Calls keep machines tied by a second induction,
over the levels of calls; a body runs with the scope of its function open,
wherever the call stands.

Key definitions: `Bond.Calls`.
Key theorems: `Bond.keeps_expr`, `Bond.keeps_stmt`, `Bond.calls_ofLevels`,
`Bond.exists_afterHoisting`, `Bond.keeps_program`.
-/
import Treewalk.Proofs.Bond.Actions

namespace Treewalk
namespace Bond

open Eval

/-- Calls of functions that declare at the sites keep machines tied, whatever scopes are open. -/
def Calls (B : Bond) (ctx : Context) : Prop :=
  ∀ ss func args pos, (∀ s ∈ Func.sites func, B.Site s) → B.Keeps ss (ctx.call func args pos)

variable {B : Bond} {ctx : Context} {ss : List Scope} {frame : FrameId} {pos : Position}

/-! ### Expressions -/

mutual

theorem keeps_expr (hc : B.Calls ctx) : ∀ (e : Expr) (frame : FrameId),
    B.Keeps ss (e.raw ctx frame)
  | .int .., _ => keeps_require
  | .float .., _ => keeps_require
  | .str .., _ => keeps_pure
  | .rune .., _ => keeps_pure
  | .bool .., _ => keeps_pure
  | .nil _, _ => keeps_pure
  | .name .., _ => keeps_lookup
  | .binary op lhs rhs pos, frame =>
    (keeps_expr hc lhs frame).one.bind fun _ => (keeps_expr hc rhs frame).one.bind fun _ =>
      keeps_lift
  | .logical op lhs rhs _, frame => by
    refine (keeps_expr hc lhs frame).one.bind fun v => coupled_ite keeps_pure ?_
    exact (keeps_expr hc rhs frame).one.bind fun _ => keeps_pure
  | .unary op operand _, frame => by
    refine (keeps_expr hc operand frame).one.bind fun v => ?_
    cases op <;> exact keeps_pure
  | .addressOf .., _ => keeps_addressOf
  | .deref operand _, frame => (keeps_expr hc operand frame).one.bind fun _ => keeps_deref
  | .call callee args pos, frame => by
    refine coupled_get fun m m' h => ?_
    rw [h.functions]
    cases hlookup : m.functions.lookup callee with
    | some func =>
      refine (keeps_arguments hc args frame).bind fun vs => (keeps_note fun _ _ h => h).bind fun _ => ?_
      exact hc ss func vs pos (h.known hlookup)
    | none =>
      refine keeps_require.bind fun b => (keeps_arguments hc args frame).bind fun vs => ?_
      exact (keeps_note fun _ _ h => h).bind fun _ => keeps_runBuiltin
  | .index x indices _, frame => by
    refine coupled_get fun m m' h => ?_
    rw [h.resolve]
    exact keeps_require.bind fun owner => (keeps_path hc indices frame).bind fun _ => keeps_index
  | .array t elements _, frame => by
    refine (keeps_type hc t frame).bind fun ty => ?_
    cases ty with
    | array size elem => exact (keeps_items hc elem elements frame #[]).bind fun _ => keeps_newArray
    | _ => exact keeps_fault
  | .elements .., _ => keeps_fault

theorem keeps_operands (hc : B.Calls ctx) : ∀ (es : List Expr) (frame : FrameId),
    B.Keeps ss (Expr.operands ctx es frame)
  | [], _ => keeps_pure
  | e :: es, frame =>
    (keeps_expr hc e frame).one.bind fun _ => (keeps_operands hc es frame).bind fun _ => keeps_pure

theorem keeps_arguments (hc : B.Calls ctx) : ∀ (es : List Expr) (frame : FrameId),
    B.Keeps ss (Expr.arguments ctx es frame)
  | [], _ => keeps_pure
  | [e], frame => by
    refine (keeps_expr hc e frame).settled.bind fun v => ?_
    cases v <;> exact keeps_pure
  | e :: e' :: es, frame =>
    (keeps_expr hc e frame).one.bind fun _ => (keeps_operands hc (e' :: es) frame).bind fun _ =>
      keeps_pure

theorem keeps_path (hc : B.Calls ctx) : ∀ (es : List Expr) (frame : FrameId),
    B.Keeps ss (Expr.path ctx es frame)
  | [], _ => keeps_pure
  | e :: es, frame =>
    (keeps_expr hc e frame).one.bind fun _ => keeps_lift.bind fun _ =>
      (keeps_path hc es frame).bind fun _ => keeps_pure

theorem keeps_items (hc : B.Calls ctx) : ∀ (elem : Ty) (es : List Expr) (frame : FrameId)
    (done : Array Value), B.Keeps ss (Expr.items ctx elem es frame done)
  | _, [], _, _ => keeps_pure
  | elem, e :: es, frame, done => by
    have hrest : ∀ v : Value, B.Keeps ss (Expr.items ctx elem es frame (done.push v)) :=
      fun v => keeps_items hc elem es frame (done.push v)
    cases e with
    | elements inner pos =>
      cases elem with
      | array size elem' =>
        exact (keeps_items hc elem' inner frame #[]).bind fun vs => keeps_newArray.bind hrest
      | _ => exact keeps_report.bind fun _ => keeps_onHeap.bind hrest
    | _ => exact (keeps_expr hc _ frame).one.bind fun _ => keeps_arrayItem.bind hrest

theorem keeps_type (hc : B.Calls ctx) : ∀ (t : TypeExpr) (frame : FrameId),
    B.Keeps ss (t.eval ctx frame)
  | .int32, _ => keeps_pure
  | .float32, _ => keeps_pure
  | .bool, _ => keeps_pure
  | .string, _ => keeps_pure
  | .rune, _ => keeps_pure
  | .array size elem, frame =>
    (keeps_expr hc size frame).one.bind fun _ => keeps_arraySize.bind fun _ =>
      (keeps_type hc elem frame).bind fun _ => keeps_pure
  | .pointer target, frame => (keeps_type hc target frame).bind fun _ => keeps_pure

end

theorem keeps_operand (hc : B.Calls ctx) (e : Expr) (frame : FrameId) :
    B.Keeps ss (e.operand ctx frame) :=
  (keeps_expr hc e frame).one

/-! ### The parts of statements -/

theorem keeps_values (hc : B.Calls ctx) (es : List Expr) (count : Nat) :
    B.Keeps ss (values ctx es count frame pos) := by
  unfold values
  split
  · refine (keeps_expr hc _ frame).settled.bind fun v => ?_
    cases v <;> exact coupled_ite keeps_pure keeps_fault
  · exact coupled_ite (keeps_operands hc _ frame) keeps_fault

theorem keeps_declaredType (hc : B.Calls ctx) (t : Option TypeExpr) :
    B.Keeps ss (declaredType ctx t frame) := by
  cases t with
  | none => exact keeps_pure
  | some t => exact (keeps_type hc t frame).bind fun _ => keeps_pure

theorem keeps_placeOf (hc : B.Calls ctx) (target : Target) :
    B.Keeps ss (placeOf ctx target frame pos) := by
  cases target with
  | name x => exact keeps_writableOwner.bind fun _ => keeps_pure
  | deref x => exact keeps_lookup.bind fun _ => keeps_follow.bind fun _ => keeps_pure
  | index x indices =>
    exact keeps_writableOwner.bind fun _ => (keeps_path hc indices frame).bind fun _ => keeps_element

theorem keeps_condition (hc : B.Calls ctx) (e : Expr) : B.Keeps ss (condition ctx e frame) :=
  (keeps_expr hc e frame).settled.bind fun _ => Coupled.ifFault keeps_pure

theorem keeps_loopCheck (hc : B.Calls ctx) (e : Option Expr) :
    B.Keeps ss (loopCheck ctx e pos frame) := by
  refine keeps_tick.bind fun _ => ?_
  cases e with
  | none => exact keeps_pure
  | some e => exact keeps_condition hc e

theorem keeps_caseMatches (hc : B.Calls ctx) (subject : Value) : ∀ es : List Expr,
    B.Keeps ss (caseMatches ctx subject frame es)
  | [] => keeps_pure
  | e :: es => (keeps_operand hc e frame).bind fun _ =>
      coupled_ite keeps_pure (keeps_caseMatches hc subject es)

theorem keeps_returned (hc : B.Calls ctx) (es : List Expr) : B.Keeps ss (returned ctx es frame) := by
  unfold returned
  split
  · exact keeps_pure
  · exact keeps_operand hc _ frame
  · exact (keeps_operands hc _ frame).bind fun _ => keeps_pure

theorem keeps_statement {limits : Limits} {x : Eval Unit} (h : B.Keeps ss x) :
    B.Keeps ss (Eval.statement limits pos x) :=
  keeps_tick.bind fun _ => h.orElseReport

/-! ### Statements -/

mutual

/-- The sites of the statement are those it has in the innermost of the open scopes. -/
theorem keeps_stmt (hc : B.Calls ctx) : ∀ (s : Stmt) (ss : List Scope) (frame : FrameId),
    (∀ site ∈ s.sites (innermost ss), B.Site site) → B.Keeps ss (s.raw ctx frame)
  | .varDecl names t es pos, ss, frame, hs => by
    refine (keeps_declaredType hc t).bind fun ty => coupled_ite ?_ ?_
    · exact keeps_pure.bind fun _ => keeps_declareVars names _ hs
    · exact (keeps_values hc es _).bind fun _ => keeps_declareVars names _ hs
  | .constDecl x t e pos, ss, frame, hs => by
    refine coupled_get fun m m' h => ?_
    rw [h.hasLocal]
    refine Coupled.ifFault ((keeps_declaredType hc t).bind fun ty => ?_)
    refine (keeps_values hc [e] 1).bind fun vs => keeps_firstValue.bind fun _ => ?_
    exact keeps_declare (hs _ (List.mem_singleton_self _))
  | .shortDecl names es pos, ss, frame, hs => by
    refine coupled_get fun m m' h => ?_
    simp only [h.atGlobal, h.hasLocal]
    refine Coupled.ifFault (Coupled.ifFault ((keeps_values hc es _).bind fun vs => ?_))
    refine keeps_declareShorts _ fun p hp => hs _ ?_
    exact List.mem_map_of_mem (List.of_mem_zip hp).1
  | .assign target op e pos, _, frame, _ =>
    (keeps_placeOf hc target).bind fun _ => (keeps_operand hc e frame).bind fun _ => keeps_assignTo
  | .step target op pos, _, frame, _ => (keeps_placeOf hc target).bind fun _ => keeps_stepBy
  | .expr e _, _, frame, _ => (keeps_expr hc e frame).settled.bind fun _ => keeps_pure
  | .block body _, ss, frame, hs =>
    Coupled.inScope (coupled_inFrame fun inner => keeps_execAll hc body (.block :: ss) inner hs)
  | .ifElse branches otherwise _, ss, frame, hs => by
    obtain ⟨hbranches, hotherwise⟩ := List.forall_mem_append.mp hs
    refine (keeps_execBranches hc branches ss frame hbranches).bind fun found => ?_
    refine coupled_ite keeps_pure (Coupled.inScope ?_)
    exact keeps_execOtherwise hc otherwise (.elseBlock :: ss) frame hotherwise
  | .loop init check post body pos, ss, frame, hs => by
    obtain ⟨hheader, hbody⟩ := List.forall_mem_append.mp hs
    obtain ⟨hinit, hpost⟩ := List.forall_mem_append.mp hheader
    refine Coupled.inScope (coupled_inFrame fun inner => ?_)
    refine (keeps_execOptional hc init (.loop :: ss) inner hinit).bind fun _ => ?_
    refine Coupled.rounds (keeps_loopCheck hc check) (coupled_inFrame fun inner => ?_) ?_ _
    · exact keeps_execAll hc body (.loop :: ss) inner hbody
    · exact keeps_execOptional hc post (.loop :: ss) inner hpost
  | .switch subject clauses otherwise _, ss, frame, hs => by
    obtain ⟨hclauses, hotherwise⟩ := List.forall_mem_append.mp hs
    refine Coupled.inScope (coupled_inFrame fun inner => Coupled.untilBreak ?_)
    refine (keeps_operand hc subject inner).bind fun v => ?_
    refine (keeps_execClauses hc v clauses false ss inner hclauses).bind fun found => ?_
    exact coupled_ite keeps_pure (keeps_execOtherwise hc otherwise (.switch :: ss) inner hotherwise)
  | .breakStmt _, ss, _, _ => by
    refine coupled_get fun m m' h => ?_
    rw [h.canBreak]
    exact coupled_ite keeps_signal keeps_fault
  | .continueStmt _, ss, _, _ => by
    refine coupled_get fun m m' h => ?_
    rw [h.canContinue]
    exact coupled_ite keeps_signal keeps_fault
  | .returnStmt es _, ss, frame, _ => by
    refine coupled_get fun m m' h => ?_
    rw [h.canReturn]
    exact Coupled.unlessFault ((keeps_returned hc es).bind fun _ => keeps_signal)
  | .func .., _, _, _ => keeps_pure

theorem keeps_execAll (hc : B.Calls ctx) : ∀ (body : List Stmt) (ss : List Scope) (frame : FrameId),
    (∀ site ∈ Stmt.allSites (innermost ss) body, B.Site site) →
    B.Keeps ss (Stmt.execAll ctx body frame)
  | [], _, _, _ => keeps_pure
  | s :: body, ss, frame, hs => by
    obtain ⟨hfirst, hrest⟩ := List.forall_mem_append.mp hs
    refine (keeps_statement (keeps_stmt hc s ss frame hfirst)).bind fun _ => ?_
    exact keeps_execAll hc body ss frame hrest

theorem keeps_execOptional (hc : B.Calls ctx) : ∀ (s? : Option Stmt) (ss : List Scope)
    (frame : FrameId), (∀ site ∈ Stmt.optionalSites (innermost ss) s?, B.Site site) →
    B.Keeps ss (Stmt.execOptional ctx s? frame)
  | none, _, _, _ => keeps_pure
  | some s, ss, frame, hs => keeps_statement (keeps_stmt hc s ss frame hs)

theorem keeps_execOtherwise (hc : B.Calls ctx) : ∀ (body : Option (List Stmt)) (ss : List Scope)
    (frame : FrameId), (∀ site ∈ Stmt.otherwiseSites (innermost ss) body, B.Site site) →
    B.Keeps ss (Stmt.execOtherwise ctx body frame)
  | none, _, _, _ => keeps_pure
  | some body, ss, _, hs => coupled_inFrame fun inner => keeps_execAll hc body ss inner hs

theorem keeps_execBranches (hc : B.Calls ctx) : ∀ (branches : List (Branch Stmt))
    (ss : List Scope) (frame : FrameId), (∀ site ∈ Stmt.branchSites branches, B.Site site) →
    B.Keeps ss (Stmt.execBranches ctx branches frame)
  | [], _, _, _ => keeps_pure
  | ⟨e, body⟩ :: rest, ss, frame, hs => by
    obtain ⟨hbody, hrest⟩ := List.forall_mem_append.mp hs
    refine (keeps_condition hc e).bind fun holds => ?_
    refine coupled_ite ?_ (keeps_execBranches hc rest ss frame hrest)
    refine Coupled.bind (Coupled.inScope (coupled_inFrame fun inner => ?_)) fun _ => keeps_pure
    exact keeps_execAll hc body (.ifBlock :: ss) inner hbody

theorem keeps_execClauses (hc : B.Calls ctx) (subject : Value) :
    ∀ (clauses : List (Clause Stmt)) (found : Bool) (ss : List Scope) (frame : FrameId),
    (∀ site ∈ Stmt.clauseSites clauses, B.Site site) →
    B.Keeps (.switch :: ss) (Stmt.execClauses ctx subject clauses found frame)
  | [], _, _, _, _ => keeps_pure
  | ⟨es, body, _⟩ :: rest, found, ss, frame, hs => by
    obtain ⟨hbody, hrest⟩ := List.forall_mem_append.mp hs
    -- once it is known whether the case runs
    have hrun : ∀ found : Bool, B.Keeps (.switch :: ss)
        (if found then do
            inFrame frame fun inner => Stmt.execAll ctx body inner
            Stmt.execClauses ctx subject rest found frame
          else Stmt.execClauses ctx subject rest found frame) := fun found => by
      have hgoes := keeps_execClauses hc subject rest found ss frame hrest
      refine coupled_ite (Coupled.bind (coupled_inFrame fun inner => ?_) fun _ => hgoes) hgoes
      exact keeps_execAll hc body (.switch :: ss) inner hbody
    cases found with
    | true => exact keeps_pure.bind hrun
    | false => exact (keeps_caseMatches hc subject es).bind hrun

end

/-! ### Calls -/

theorem keeps_bindParam (hc : B.Calls ctx) (p : Param) (v : Value)
    (hs : B.Site (p.site (innermost ss))) : B.Keeps ss (bindParam ctx frame p v) := by
  have hbind : ∀ (t : Ty) (w : Value), B.Keeps ss (if t.accepts w then
      declare frame p.name (some t) w p.pos .parameter
      else do
        let m ← get
        fault (.typeMismatch p.name t.label (m.typeLabel w)) p.pos) := by
    intro t w
    refine coupled_ite (keeps_declare hs) (coupled_get fun m m' h => ?_)
    rw [h.typeLabel]
    exact keeps_fault
  refine (keeps_type hc p.type frame).bind fun t => coupled_ite ?_ ?_
  · exact keeps_pure.bind fun w => hbind t w
  · exact (Coupled.map keeps_onHeap).bind fun w => hbind t w

theorem keeps_bindParams (hc : B.Calls ctx) : ∀ ps : List (Param × Value),
    (∀ p ∈ ps, B.Site (p.1.site (innermost ss))) →
    B.Keeps ss (ps.forM fun (p, v) => bindParam ctx frame p v)
  | [], _ => keeps_pure (a := PUnit.unit)
  | (p, v) :: ps, hs => by
    rw [List.forall_mem_cons] at hs
    exact (keeps_bindParam hc p v hs.1).bind fun _ => keeps_bindParams hc ps hs.2

/-- A function runs with its own scope open, whatever lies around the call. -/
theorem keeps_runFunction (hc : B.Calls ctx) (func : FuncDecl) (args : List Value) (pos : Position)
    (hs : ∀ s ∈ Func.sites func, B.Site s) : B.Keeps ss (runFunction ctx func args pos) := by
  obtain ⟨hparams, hbody⟩ := List.forall_mem_append.mp hs
  have hrun : B.Keeps ss (inScope (.function func.name) <| inCall <|
      inFrame Frames.globalId fun frame => returnValue do
        (func.params.zip args).forM fun (p, v) => bindParam ctx frame p v
        Stmt.execAll ctx func.body frame) := by
    refine Coupled.inScope (Coupled.inCall (coupled_inFrame fun frame => Coupled.returnValue ?_))
    refine Coupled.bind (keeps_bindParams hc _ fun p hp => hparams _ ?_) fun _ => ?_
    · exact List.mem_map_of_mem (List.of_mem_zip hp).1
    · exact keeps_execAll hc func.body (.function func.name :: ss) frame hbody
  refine Coupled.unlessFault (coupled_get fun m m' h => ?_)
  rw [h.depth]
  exact coupled_ite (Coupled.bind keeps_signal fun _ => hrun) hrun

theorem keeps_invoke (B : Bond) (config : Config) (n : Nat) : ∀ (k : Nat) (ss : List Scope)
    (func : FuncDecl) (args : List Value) (pos : Position), (∀ s ∈ Func.sites func, B.Site s) →
    B.Keeps ss (invoke config n k func args pos)
  | 0, _, _, _, _, _ => keeps_signal
  | k + 1, _, func, args, pos, hs => by
    have hc : B.Calls ⟨config, n, invoke config n k⟩ := keeps_invoke B config n k
    exact keeps_runFunction hc func args pos hs

theorem calls_ofLevels (B : Bond) (config : Config) (n k : Nat) :
    B.Calls (.ofLevels config n k) :=
  keeps_invoke B config n k

/-! ### Programs -/

theorem keeps_globals (hc : B.Calls ctx) : ∀ body : List Stmt,
    (∀ s ∈ body, ∀ site ∈ s.sites .global, B.Site site) →
    B.Keeps [] (body.forM fun s => s.exec ctx frame)
  | [], _ => keeps_pure (a := PUnit.unit)
  | s :: body, hs => by
    rw [List.forall_mem_cons] at hs
    refine (keeps_statement (keeps_stmt hc s [] frame hs.1)).bind fun _ => ?_
    exact keeps_globals hc body hs.2

theorem Tied.known_put {m m' : Machine} {f : FuncDecl} (h : B.Tied ss m m')
    (hs : ∀ s ∈ Func.sites f, B.Site s) :
    B.Tied ss { m with functions := m.functions.put f.name f }
      { m' with functions := m'.functions.put f.name f } := by
  refine { h with functions := fun x => ?_, known := fun {x g} hlookup => ?_ }
  · by_cases hx : x = f.name
    · rw [hx, Table.lookup_put_self, Table.lookup_put_self]
    · rw [Table.lookup_put_of_ne _ _ hx, Table.lookup_put_of_ne _ _ hx, h.functions]
  · by_cases hx : x = f.name
    · rw [hx, Table.lookup_put_self] at hlookup
      exact Option.some.inj hlookup ▸ hs
    · rw [Table.lookup_put_of_ne _ _ hx] at hlookup
      exact h.known hlookup

theorem keeps_hoist {d : Declared} (hs : ∀ s ∈ d.sites, B.Site s) : B.Keeps [] (hoist d) := by
  rw [Declared.sites, List.forall_mem_cons] at hs
  refine coupled_get fun m m' h => ?_
  rw [h.functions]
  refine coupled_ite keeps_report ((keeps_declareFunction hs.1).bind fun _ => ?_)
  exact keeps_modify fun m m' h => h.known_put hs.2

theorem keeps_hoistAll : ∀ (ds : List Declared) (seen : Bool),
    (∀ d ∈ ds, ∀ s ∈ d.sites, B.Site s) → B.Keeps [] (hoistAll ds seen)
  | [], _, _ => keeps_pure
  | d :: ds, seen, hs => by
    rw [List.forall_mem_cons] at hs
    have hrest : ∀ seen, B.Keeps [] (hoistAll ds seen) := fun seen => keeps_hoistAll ds seen hs.2
    unfold hoistAll
    refine coupled_ite (coupled_ite ?_ (hrest true)) ?_
    · exact keeps_report.bind fun _ => hrest true
    · exact (keeps_hoist hs.1).bind fun _ => hrest seen

/-- What two programs do once their functions are known is coupled, if they execute the same globals
and have the same `main`. -/
theorem exists_afterHoisting (hc : B.Calls ctx) {p p' : Program} (hglobals : p'.globals = p.globals)
    (hmain : p'.main? = p.main?) (hs : ∀ s ∈ p.sites, B.Site s) :
    ∃ after after' : Eval Unit, program ctx p = (do hoistAll p.functions false; after) ∧
      program ctx p' = (do hoistAll p'.functions false; after') ∧ B.Coupled [] after after' := by
  refine ⟨_, _, rfl, rfl, ?_⟩
  rw [hglobals, hmain]
  refine Coupled.bind (keeps_globals hc p.globals fun s hmem site hsite => ?_) fun _ => ?_
  · exact hs site (Program.sites_subset_of_globals hmem hsite)
  · cases hd : p.main? with
    | none => exact keeps_pure
    | some d =>
      have hsites : ∀ s ∈ d.sites, B.Site s := fun s hmem =>
        hs s (Program.sites_subset_of_functions (Program.main_mem_functions hd) hmem)
      rw [Declared.sites, List.forall_mem_cons] at hsites
      refine (keeps_declareFunction hsites.1).bind fun _ => ?_
      exact (hc [] d.func [] d.pos hsites.2).bind fun _ => keeps_pure

/-- **A program keeps machines tied.** -/
theorem keeps_program (hc : B.Calls ctx) {p : Program} (hs : ∀ s ∈ p.sites, B.Site s) :
    B.Keeps [] (program ctx p) := by
  obtain ⟨after, after', hprogram, hprogram', hafter⟩ := exists_afterHoisting hc rfl rfl hs
  have hhoist : B.Keeps [] (hoistAll p.functions false) :=
    keeps_hoistAll _ _ fun d hd s hmem => hs s (Program.sites_subset_of_functions hd hmem)
  have hcoupled : B.Coupled [] (program ctx p) (do hoistAll p.functions false; after') := by
    rw [hprogram]
    exact hhoist.bind fun _ => hafter
  rwa [← hprogram'] at hcoupled

/-- What stops a run is reported last, and leaves the machines tied. -/
theorem Ends.execute {config : Config} {p p' : Program} {m m' : Machine}
    (h : B.Ends [] ((program config.context p).run m) ((program config.context p').run m')) :
    B.Tied [] (m.execute config p) (m'.execute config p') := by
  unfold Machine.execute
  generalize (program config.context p).run m = r at h ⊢
  generalize (program config.context p').run m' = r' at h ⊢
  cases h with
  | ok h => exact h
  | @error s m m' h =>
    cases s with
    | abort a pos => exact h.record _
    | _ => exact h

end Bond
end Treewalk
