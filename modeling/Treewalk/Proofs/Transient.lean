/-
# Several values at once are never kept

A call may have several values, and these are one `Value.multi` until whoever
asked for them takes them apart. None is ever kept: not in a variable, not in
an array, not as a parameter and not as an argument, and none is part of
another (`multi_values_are_transient`). What asks for a number of values gets
just as many single ones or none at all.

The invariant is that of a discipline, `Discipline.single`, which has nothing
to say but that the values held are single. So it also holds of calls whose
arguments are not: a parameter has a type, and no type accepts several values
(`Discipline.keeps_invoke_single`).

Key definitions: `Discipline.single`.
Key theorems: `Discipline.single_of_reached`, `Discipline.keeps_invoke_single`,
`multi_values_are_transient`.
-/
import Treewalk.Proofs.Isolation
import Treewalk.Proofs.Steady

namespace Treewalk

theorem Value.isMulti_eq_false {v : Value} (h : v.kind ≠ .multi) : v.isMulti = false := by
  cases v with
  | multi vs => exact absurd rfl h
  | _ => rfl

namespace Discipline

open Memory

/-- What evaluation keeps so that several values are never kept as one. -/
def single : Discipline where
  Inv μ := μ.AllHold (·.isMulti = false)
  Val _ v := v.isMulti = false
  val_later _ h := h
  val_plain {_ v} h := by
    cases v with
    | multi vs => cases h
    | _ => rfl
  val_multi h := by cases h
  val_address _ _ _ _ _ := rfl
  val_read h _ hv := by
    obtain ⟨owner, -, hv⟩ := holds_of_value? hv
    exact h _ _ hv
  val_item {_ id _} h _ hv := h (.storage id) _ hv
  set h _ hv _ _ := ⟨h.set hv, trivial⟩
  bind h _ _ hv _ := ⟨h.bind hv, trivial⟩
  put h _ hv _ _ _ := ⟨h.put hv, trivial⟩
  alloc h hs _ _ := ⟨h.alloc hs, trivial, rfl⟩
  openIn h _ := ⟨h.openIn, trivial, fun _ hv => hv⟩
  close _ _ h := ⟨h.close, trivial, fun _ hv => hv⟩

theorem single_of_reached {config : Config} {Q : Program → Prop} {m : Machine}
    (h : m.Reached config Q) : single.Inv m.memory := by
  have hr : single.Runs False config.limits m :=
    runs_of_reached (fun _ _ hf => hf.elim) AllHold.initial trivial h
  exact hr.inv

/-- Of several values, a result has at least two, and each is single. -/
theorem Res.of_single {μ : Memory} {vs : List Value} (h : single.Res μ (.multi vs)) :
    2 ≤ vs.length ∧ ∀ v ∈ vs, v.isMulti = false := by
  rcases h with h | ⟨ws, hw, hlen, hvs⟩
  · cases h
  · cases hw
    exact ⟨hlen, hvs⟩

section Call

variable {R : Regime} {ctx : Context} {m : Machine} {frame : FrameId}

/-- What is meant for a parameter may be several values, and is still copied as it should be. -/
theorem keeps_given_single {p : Param} {v : Value} {t : Ty} (h : single.Inv m.memory) :
    single.Keeps R .expression (if p.byPointer then pure v else t.convert <$> Eval.copy v) m
      fun _ _ => True := by
  by_cases hv : v.isMulti = false
  · exact (keeps_given h hv).mono fun _ _ _ _ => trivial
  · cases v with
    | multi vs =>
      by_cases hp : p.byPointer = true
      · simp only [if_pos hp]
        exact keeps_pure h trivial
      · simp only [if_neg hp]
        exact (keeps_copy_multi h).map fun _ _ _ _ => trivial
    | _ => exact absurd rfl hv

theorem keeps_bindParam_single (hc : single.Calls R ctx) (h : single.Callee R m frame) (p : Param)
    (v : Value) :
    single.Keeps R .expression (Eval.bindParam ctx frame p v) m fun _ m' => Plain m' frame := by
  refine keeps_bindParam_of hc h fun t m₁ hl₁ _ => ?_
  refine (keeps_given_single hl₁.inv).mono fun w _ _ _ ha => ?_
  exact Value.isMulti_eq_false (Ty.not_multi_of_accepts ha)

/-- Calls keep values single, whatever their arguments. -/
theorem keeps_invoke_single (config : Config) (rounds levels : Nat) (func : FuncDecl)
    (args : List Value) (pos : Position) (h : single.Inv m.memory) :
    single.Keeps ⟨config.limits, rounds, levels, False⟩ .expression
      (Eval.invoke config rounds levels func args pos) m single.Gives := by
  have hcalls := calls_ofLevels single config rounds False
  cases levels with
  | zero =>
    -- no call is made at all, with these arguments or with others
    exact (hcalls 0).call func [] pos h (fun hf => hf.elim) (fun hf => hf.elim) (by simp)
  | succ levels =>
    refine keeps_runFunction_of (hcalls levels) h (fun hf => hf.elim) (fun hf => hf.elim)
      (keeps_bindParams_of _ (callee_called h fun hf => hf.elim) ?_)
    intro p _ m' _ h'
    exact keeps_bindParam_single (hcalls levels) h' p.1 p.2

end Call

end Discipline

/-- **Several values at once are never kept.** At no moment of a session is a variable, an element
of an array, a parameter behind its declaration or an argument several values at once. From every
machine that a session reaches, a call has one value or at least two, which are single ones,
arguments are evaluated to single values, and expressions for a number of targets to just as many
single values, or they are left by a signal. -/
theorem multi_values_are_transient (config : Config) :
    (∀ es m, Machine.Session config (fun _ => True) es m → ∀ e ∈ es,
      (∀ f x s, e.machine.frames.local? f x = some s → s.value.isMulti = false) ∧
      (∀ id, ∀ v ∈ (e.machine.heap.get id).items, v.isMulti = false) ∧
      (∀ f x, e.event = some (.declared f x .parameter) →
        ∃ s, e.machine.frames.local? f x = some s ∧ s.value.isMulti = false) ∧
      ∀ args, e.event = some (.passed args) → ∀ v ∈ args, v.isMulti = false) ∧
    ∀ m, Machine.Reached config (fun _ => True) m → ∀ rounds levels,
      (∀ func args pos vs m',
        (Eval.invoke config rounds levels func args pos).run m = .ok (.multi vs) m' →
        2 ≤ vs.length ∧ ∀ v ∈ vs, v.isMulti = false) ∧
      (∀ es frame vs m',
        (Expr.arguments (.ofLevels config rounds levels) es frame).run m = .ok vs m' →
        ∀ v ∈ vs, v.isMulti = false) ∧
      ∀ es count frame pos,
        (∃ s m', (Eval.values (.ofLevels config rounds levels) es count frame pos).run m =
          .error s m') ∨
        ∃ vs m', (Eval.values (.ofLevels config rounds levels) es count frame pos).run m =
          .ok vs m' ∧ vs.length = count ∧ ∀ v ∈ vs, v.isMulti = false := by
  refine ⟨fun es m hs e he => ?_, fun m hm rounds levels => ?_⟩
  · have hstands := (Discipline.aimed_of_session hs).1 e he
    have hsingle : ∀ v, e.Has v → v.isMulti = false := fun v hv =>
      Value.isMulti_eq_false (hstands.aimed_of_has hv).1
    have hslot : ∀ f x s, e.machine.frames.local? f x = some s → s.value.isMulti = false :=
      fun f x s hx => hsingle _ (.inl ⟨.slot f x, s, hx, rfl⟩)
    refine ⟨hslot, fun id v hv => hsingle v (.inl ⟨.storage id, hv⟩), fun f x hd => ?_,
      fun args ha v hv => hsingle v (.inr ?_)⟩
    · have hdecl := hstands.declares hd
      obtain ⟨s, hx, -⟩ := hdecl.slot hdecl.frm
      exact ⟨s, hx, hslot f x s hx⟩
    · rw [Moment.values, ha]
      exact hv
  · have hinv := Discipline.single_of_reached hm
    have hcalls := Discipline.single.calls_ofLevels config rounds False levels
    have hready : ∀ frame, Discipline.single.Ready ⟨config.limits, rounds, levels, False⟩ m frame :=
      fun _ => ⟨hinv, fun hf => hf.elim, trivial⟩
    refine ⟨fun func args pos vs m' hr => ?_, fun es frame vs m' hr => ?_,
      fun es count frame pos => ?_⟩
    · have hends := (Discipline.keeps_invoke_single config rounds levels func args pos hinv).ends
      rw [hr] at hends
      exact Discipline.Res.of_single hends.2
    · have hends := (Discipline.keeps_arguments hcalls es frame (hready frame)).ends
      rw [hr] at hends
      exact hends.2
    · have hkeeps : Discipline.single.Keeps _ .expression
          (Eval.values (.ofLevels config rounds levels) es count frame pos) m
          (Discipline.single.GivesAll count) :=
        Discipline.keeps_values hcalls (hready frame)
      have hends := hkeeps.ends
      cases hr : (Eval.values (.ofLevels config rounds levels) es count frame pos).run m with
      | error s m' => exact .inl ⟨s, m', rfl⟩
      | ok vs m' =>
        rw [hr] at hends
        exact .inr ⟨vs, m', rfl, hends.2⟩

/-- A function with two results. -/
def pair : FuncDecl :=
  let o := Position.origin
  ⟨"pair", [], [.int32, .int32], [.returnStmt [.int "1" o, .int "2" o] o]⟩

/-- A program that takes the results of `pair` apart: into two variables, into the parameters of a
function and into the arguments of a built-in one. Then it tries to keep both in one variable. -/
def pairing : Parsed :=
  let o := Position.origin
  let print := fun e => Stmt.expr (.call "fmt.Println" [e] o) o
  ⟨⟨[.func pair o,
    .func ⟨"sum", [⟨"a", .int32, o⟩, ⟨"b", .int32, o⟩], [.int32],
      [.returnStmt [.binary .add (.name "a" o) (.name "b" o) o] o]⟩ o,
    .func ⟨"main", [], [],
      [.shortDecl [⟨"x", o⟩, ⟨"y", o⟩] [.call "pair" [] o] o,
        print (.call "sum" [.call "pair" [] o] o),
        print (.call "pair" [] o),
        .shortDecl [⟨"z", o⟩] [.call "pair" [] o] o]⟩ o]⟩, []⟩

def afterPairing : Machine := Machine.initial.executeParsed ⟨⟨3, none⟩, ""⟩ pairing

theorem pair_is_taken_apart :
    afterPairing.output = #["3", "1 2"] ∧
    afterPairing.errors.toList =
      [⟨.semantic, (Fault.countMismatch 1 2).message, .origin⟩] ∧
    (∃ es, Machine.Session ⟨⟨3, none⟩, ""⟩ (fun _ => True) es afterPairing ∧
      ∀ e ∈ es, ∀ args, e.event = some (.passed args) → ∀ v ∈ args, v.isMulti = false) ∧
    (∃ vs m', (Eval.invoke ⟨⟨3, none⟩, ""⟩ 1 1 pair [] .origin).run afterPairing =
        .ok (.multi vs) m' ∧ 2 ≤ vs.length ∧ ∀ v ∈ vs, v.isMulti = false) ∧
    (∃ vs m', (Expr.arguments (.ofLevels ⟨⟨3, none⟩, ""⟩ 1 1) [.call "pair" [] .origin]
        Frames.globalId).run afterPairing = .ok vs m' ∧
      vs.length = 2 ∧ ∀ v ∈ vs, v.isMulti = false) ∧
    ∃ vs m', (Eval.values (.ofLevels ⟨⟨3, none⟩, ""⟩ 1 1) [.call "pair" [] .origin] 2
        Frames.globalId .origin).run afterPairing = .ok vs m' ∧
      vs.length = 2 ∧ ∀ v ∈ vs, v.isMulti = false := by
  have hinitial : Machine.Session ⟨⟨3, none⟩, ""⟩ (fun _ => True) _ _ := .initial
  obtain ⟨fs, hfs⟩ := hinitial.exists_executed pairing trivial
  obtain ⟨hmoments, hreached⟩ := multi_values_are_transient ⟨⟨3, none⟩, ""⟩
  obtain ⟨hinvoke, hargs, hvalues⟩ := hreached afterPairing (.idle hfs.idle) 1 1
  refine ⟨by decide +kernel, by decide +kernel, ⟨_, hfs, fun e he => ?_⟩, ?_, ?_, ?_⟩
  · exact (hmoments _ _ hfs e he).2.2.2
  · have hpair : ((Eval.invoke ⟨⟨3, none⟩, ""⟩ 1 1 pair [] .origin).run afterPairing).result?.any
        Value.isMulti = true := by decide +kernel
    obtain ⟨v, hv, hmulti⟩ := (Option.any_eq_true ..).mp hpair
    cases v with
    | multi vs =>
      have hr := Outcome.eq_ok_of_result? hv
      exact ⟨vs, _, hr, hinvoke _ _ _ _ _ hr⟩
    | _ => cases hmulti
  · have htwo : ((Expr.arguments (.ofLevels ⟨⟨3, none⟩, ""⟩ 1 1) [.call "pair" [] .origin]
        Frames.globalId).run afterPairing).result?.any (·.length == 2) = true := by decide +kernel
    obtain ⟨vs, hvs, hlen⟩ := (Option.any_eq_true ..).mp htwo
    have hr := Outcome.eq_ok_of_result? hvs
    exact ⟨vs, _, hr, eq_of_beq hlen, hargs _ _ _ _ hr⟩
  · have hok : ((Eval.values (.ofLevels ⟨⟨3, none⟩, ""⟩ 1 1) [.call "pair" [] .origin] 2
        Frames.globalId .origin).run afterPairing).result?.isSome = true := by decide +kernel
    rcases hvalues [.call "pair" [] .origin] 2 Frames.globalId .origin with ⟨s, m', hr⟩ | h
    · rw [hr] at hok
      cases hok
    · exact h

end Treewalk
