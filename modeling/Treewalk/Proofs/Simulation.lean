/-
# Simulations

What two evaluations of the same tree have to do with each other, when they
differ in nothing but their limits and bounds. A `Simulation` is a relation
between actions that all the ways of putting actions together respect; that
evaluation as a whole is related to itself then follows by one induction over
the tree.

Most elementary actions look at neither limits nor bounds. They are quiet
(`Eval.Quiet`): they make no step, take back nothing that was printed or
reported, and do not end at a limit. A simulation relates a quiet action to
itself, and what goes on from outcomes has to let limits through
(`Outcome.Lets`).

Key definitions: `Signal.isLimit`, `Eval.Quiet`, `Outcome.Lets`,
`Simulation`.
Key theorems: `Eval.Quiet.bind`, `Simulation.orElseReport`,
`Simulation.rounds`.
-/
import Treewalk.Proofs.Growth

namespace Treewalk

/-- Whether a signal ends a run at one of its limits, or evaluation at its own bounds. -/
def Signal.isLimit : Signal → Bool
  | .abort (.callDepth _) _ | .abort (.stepBudget _) _ | .exhausted => true
  | _ => false

/-- The outcome is not that of a limit. -/
def Outcome.Ordinary {α : Type} (r : Outcome α) : Prop :=
  ∀ s m, r = .error s m → s.isLimit = false

theorem Outcome.ordinary_ok {α : Type} {a : α} {m : Machine} :
    Outcome.Ordinary (.ok a m : Outcome α) := by
  intro s m' h
  cases h

theorem Outcome.ordinary_error {α : Type} {s : Signal} {m : Machine} (h : s.isLimit = false) :
    Outcome.Ordinary (.error s m : Outcome α) := by
  intro s' m' h'
  cases h'
  exact h

/-- A way to go on from an outcome that lets limits through, adds none, and takes nothing back. What
ends a run it lets through whole. -/
structure Outcome.Lets {α β : Type} (next : Outcome α → Outcome β) : Prop where
  limit : ∀ {s m}, s.isLimit = true → next (.error s m) = .error s m
  adds : ∀ {r : Outcome α}, r.Ordinary → r.machine.Adds (next r).machine
  ordinary : ∀ {r : Outcome α}, r.Ordinary → (next r).Ordinary
  abort : ∀ {a pos m}, next (.error (.abort a pos) m) = .error (.abort a pos) m
  aborted : ∀ {r a pos m}, next r = .error (.abort a pos) m → r = .error (.abort a pos) m

/-- Going on from an outcome takes nothing back. -/
theorem Outcome.Lets.grows {α β : Type} {next : Outcome α → Outcome β} (h : Outcome.Lets next)
    (r : Outcome α) : r.machine.Grown (next r).machine := by
  cases r with
  | ok a m => exact (h.adds Outcome.ordinary_ok).toGrown
  | error s m =>
    cases hs : s.isLimit with
    | true => rw [h.limit hs]; exact .refl m
    | false => exact (h.adds (Outcome.ordinary_error hs)).toGrown

/-- An action that makes no step, takes nothing back, and does not end at a limit. -/
structure Eval.Quiet {α : Type} (x : Eval α) : Prop where
  adds : ∀ m : Machine, m.Adds (x.run m).machine
  ordinary : ∀ m, (x.run m).Ordinary
  orderly : x.Orderly

namespace Eval

variable {α β : Type}

theorem quiet_pure {a : α} : (pure a : Eval α).Quiet :=
  ⟨fun m => .refl m, fun _ => Outcome.ordinary_ok, orderly_pure⟩

theorem quiet_get : (get : Eval Machine).Quiet :=
  ⟨fun m => .refl m, fun _ => Outcome.ordinary_ok, orderly_get⟩

theorem quiet_signal {s : Signal} (h : s.isLimit = false) : (signal s : Eval α).Quiet :=
  ⟨fun m => .refl m, fun _ => Outcome.ordinary_error h, orderly_signal⟩

theorem quiet_fault {f : Fault} {pos : Position} : (fault f pos : Eval α).Quiet := quiet_signal rfl

theorem Quiet.bind {x : Eval α} {f : α → Eval β} (hx : x.Quiet) (hf : ∀ a, (f a).Quiet) :
    (x >>= f).Quiet := by
  refine ⟨fun m => ?_, fun m => ?_, hx.orderly.bind fun a => (hf a).orderly⟩
  · have hadds := hx.adds m
    cases hr : x.run m with
    | ok a m' =>
      rw [hr] at hadds
      rw [run_bind_of_ok hr]
      exact hadds.trans ((hf a).adds m')
    | error s m' =>
      rw [hr] at hadds
      rw [run_bind_of_error hr]
      exact hadds
  · cases hr : x.run m with
    | ok a m' =>
      rw [run_bind_of_ok hr]
      exact (hf a).ordinary m'
    | error s m' =>
      rw [run_bind_of_error hr]
      exact Outcome.ordinary_error (hx.ordinary m s m' hr)

theorem Quiet.map {x : Eval α} {f : α → β} (hx : x.Quiet) : (f <$> x).Quiet :=
  hx.bind fun _ => quiet_pure

theorem quiet_modifyGet {f : Machine → α × Machine} (h : ∀ m : Machine, m.Adds (f m).2) :
    (modifyGet f : Eval α).Quiet :=
  ⟨h, fun _ => Outcome.ordinary_ok, orderly_modifyGet fun m => (h m).toGrown⟩

theorem quiet_modify {f : Machine → Machine} (h : ∀ m : Machine, m.Adds (f m)) :
    (modify f : Eval Unit).Quiet :=
  quiet_modifyGet h

theorem quiet_note {ev : Event} {f : Machine → Machine} (h : ∀ m : Machine, m.Adds (f m))
    (hev : ∀ s, ev ≠ .raised s) : (note ev f).Quiet :=
  ⟨h, fun _ => Outcome.ordinary_ok, orderly_note (fun m => (h m).toGrown) hev⟩

theorem quiet_report {f : Fault} {pos : Position} : (report f pos).Quiet :=
  quiet_modify fun m => m.adds_report f pos

theorem quiet_require {a? : Option α} {f : Fault} {pos : Position} : (require a? f pos).Quiet := by
  cases a? with
  | some a => exact quiet_pure
  | none => exact quiet_fault

theorem quiet_lift {ε : Type} [Coe ε Fault] {r : Except ε α} {pos : Position} :
    (lift r pos).Quiet := by
  cases r with
  | ok a => exact quiet_pure
  | error e => exact quiet_fault

theorem quiet_ite {c : Prop} [Decidable c] {x y : Eval α} (hx : x.Quiet) (hy : y.Quiet) :
    (if c then x else y).Quiet := by
  by_cases h : c
  · rw [if_pos h]; exact hx
  · rw [if_neg h]; exact hy

theorem quiet_onHeap {f : Heap → α × Heap} : (onHeap f).Quiet :=
  quiet_modifyGet fun _ => Machine.SameRecord.adds ⟨rfl, rfl, rfl⟩

theorem quiet_onSymbols {f : SymbolTable → α × SymbolTable} : (onSymbols f).Quiet :=
  quiet_modifyGet fun _ => Machine.SameRecord.adds ⟨rfl, rfl, rfl⟩

theorem quiet_single {pos : Position} {v : Value} : (single pos v).Quiet :=
  quiet_ite quiet_fault quiet_pure

/-- An action, if one more call may run. -/
def deeper (limits : Limits) (pos : Position) (x : Eval α) : Eval α := do
  if limits.maxDepth ≤ (← get).depth then abort (.callDepth limits.maxDepth) pos
  x

end Eval

/-- A relation between actions under two limits that evaluation respects. The second action may go
on where the first has come to the bounds of evaluation. -/
structure Simulation (limits limits' : Limits) where
  Rel : {α : Type} → Eval α → Eval α → Prop
  quiet : ∀ {α : Type} {x : Eval α}, x.Quiet → Rel x x
  bind : ∀ {α β : Type} {x y : Eval α} {f g : α → Eval β}, Rel x y → (∀ a, Rel (f a) (g a)) →
    Rel (x >>= f) (y >>= g)
  handle : ∀ {α β : Type} {x y : Eval α} {next : Outcome α → Outcome β}, Outcome.Lets next →
    Rel x y → Rel (x.handle next) (y.handle next)
  bracket : ∀ {α : Type} {x y : Eval α} {opened : List FrameId} {before after : Machine → Machine},
    (∀ m : Machine, m.SameRecord (before m)) → (∀ m : Machine, m.SameRecord (after m)) →
    (∀ m : Machine, m.SameShown (after m)) →
    Rel x y → Rel (Eval.bracket opened before after x) (Eval.bracket opened before after y)
  tick : ∀ pos, Rel (Eval.tick limits pos) (Eval.tick limits' pos)
  deeper : ∀ {α : Type} {x y : Eval α} pos, Rel x y →
    Rel (Eval.deeper limits pos x) (Eval.deeper limits' pos y)
  exhausted : ∀ {α : Type}, Rel (Eval.signal .exhausted : Eval α) (Eval.signal .exhausted)
  cut : ∀ {α : Type} {x y : Eval α}, Rel x y → Rel (Eval.signal .exhausted) y

namespace Simulation

open Eval

variable {limits limits' : Limits} {S : Simulation limits limits'} {α β : Type} {x y : Eval α}

theorem ite {c : Prop} [Decidable c] {x' y' : Eval α} (h : S.Rel x y) (h' : S.Rel x' y') :
    S.Rel (if c then x else x') (if c then y else y') := by
  by_cases hc : c
  · rw [if_pos hc, if_pos hc]; exact h
  · rw [if_neg hc, if_neg hc]; exact h'

/-- What follows on a quiet action. -/
theorem after {z : Eval β} {f g : β → Eval α} (hz : z.Quiet) (h : ∀ b, S.Rel (f b) (g b)) :
    S.Rel (z >>= f) (z >>= g) :=
  S.bind (S.quiet hz) h

/-- What follows on a check. -/
theorem ifFault {c : Prop} [Decidable c] {f : Fault} {pos : Position} (h : S.Rel x y) :
    S.Rel (if c then (Eval.fault f pos : Eval PUnit) >>= fun _ => x else x)
      (if c then (Eval.fault f pos : Eval PUnit) >>= fun _ => y else y) :=
  ite (after quiet_fault fun _ => h) h

theorem unlessFault {c : Prop} [Decidable c] {f : Fault} {pos : Position} (h : S.Rel x y) :
    S.Rel (if c then x else (Eval.fault f pos : Eval PUnit) >>= fun _ => x)
      (if c then y else (Eval.fault f pos : Eval PUnit) >>= fun _ => y) :=
  ite h (after quiet_fault fun _ => h)

theorem orElseReport {a : α} (h : S.Rel x y) :
    S.Rel (Eval.orElseReport x a) (Eval.orElseReport y a) := by
  refine S.handle ⟨fun {s m} hs => ?_, fun {r} hr => ?_, fun {r} hr => ?_, rfl, fun {r} _ _ _ hr => ?_⟩ h
  · cases s with
    | fault f pos => cases hs
    | _ => rfl
  · split
    · exact Machine.adds_report _ _ _
    · exact .refl _
  · split
    · exact Outcome.ordinary_ok
    · exact hr
  · split at hr
    · cases hr
    · exact hr

theorem goesOn {x y : Eval Unit} (h : S.Rel x y) : S.Rel (Eval.goesOn x) (Eval.goesOn y) := by
  refine S.handle ⟨fun {s m} hs => ?_, fun {r} hr => ?_, fun {r} hr => ?_, rfl, fun {r} _ _ _ hr => ?_⟩ h
  · cases s with
    | broke => cases hs
    | continued => cases hs
    | _ => rfl
  · split <;> exact .refl _
  · split
    · exact Outcome.ordinary_ok
    · exact Outcome.ordinary_ok
    · exact Outcome.ordinary_ok
    · exact Outcome.ordinary_error (hr _ _ rfl)
  · split at hr <;> cases hr
    rfl

theorem untilBreak {x y : Eval Unit} (h : S.Rel x y) :
    S.Rel (Eval.untilBreak x) (Eval.untilBreak y) := by
  refine S.handle ⟨fun {s m} hs => ?_, fun {r} hr => ?_, fun {r} hr => ?_, rfl, fun {r} _ _ _ hr => ?_⟩ h
  · cases s with
    | broke => cases hs
    | _ => rfl
  · split <;> exact .refl _
  · split
    · exact Outcome.ordinary_ok
    · exact hr
  · split at hr
    · cases hr
    · exact hr

theorem returnValue {x y : Eval Unit} (h : S.Rel x y) :
    S.Rel (Eval.returnValue x) (Eval.returnValue y) := by
  refine S.handle ⟨fun {s m} hs => ?_, fun {r} hr => ?_, fun {r} hr => ?_, rfl, fun {r} _ _ _ hr => ?_⟩ h
  · cases s with
    | returned v => cases hs
    | _ => rfl
  · split <;> exact .refl _
  · split
    · exact Outcome.ordinary_ok
    · exact Outcome.ordinary_ok
    · exact Outcome.ordinary_error (hr _ _ rfl)
  · split at hr <;> cases hr
    rfl

theorem settled {x y : Eval Value} (h : S.Rel x y) : S.Rel (Eval.settled x) (Eval.settled y) :=
  orElseReport h

theorem one {x y : Eval Value} {pos : Position} (h : S.Rel x y) :
    S.Rel (Eval.one pos x) (Eval.one pos y) :=
  S.bind (settled h) fun _ => S.quiet quiet_single

theorem inScope {sc : Scope} (h : S.Rel x y) : S.Rel (Eval.inScope sc x) (Eval.inScope sc y) :=
  S.bracket (fun _ => ⟨rfl, rfl, rfl⟩) (fun _ => ⟨rfl, rfl, rfl⟩) (fun _ => ⟨rfl, rfl, rfl⟩) h

theorem inCall (h : S.Rel x y) : S.Rel (Eval.inCall x) (Eval.inCall y) :=
  S.bracket (fun _ => ⟨rfl, rfl, rfl⟩) (fun _ => ⟨rfl, rfl, rfl⟩) (fun _ => ⟨rfl, rfl, rfl⟩) h

theorem inFrame {parent : FrameId} {x y : FrameId → Eval α} (h : ∀ id, S.Rel (x id) (y id)) :
    S.Rel (Eval.inFrame parent x) (Eval.inFrame parent y) :=
  after quiet_get fun _ => S.bracket (fun _ => ⟨rfl, rfl, rfl⟩) (fun _ => ⟨rfl, rfl, rfl⟩)
    (fun _ => ⟨rfl, rfl, rfl⟩) (h _)

/-- Loops, of which the second may make more rounds. -/
theorem rounds {check check' : Eval Bool} {body body' post post' : Eval Unit}
    (hcheck : S.Rel check check') (hbody : S.Rel body body') (hpost : S.Rel post post') :
    ∀ {n n' : Nat}, n ≤ n' →
      S.Rel (Eval.rounds check body post n) (Eval.rounds check' body' post' n') := by
  have hround : ∀ {n n'}, S.Rel (Eval.rounds check body post n) (Eval.rounds check' body' post' n') →
      S.Rel (Eval.rounds check body post (n + 1)) (Eval.rounds check' body' post' (n' + 1)) := by
    intro n n' hrest
    refine S.bind hcheck fun go => ite ?_ (S.quiet quiet_pure)
    refine S.bind (goesOn hbody) fun on => ite ?_ (S.quiet quiet_pure)
    exact S.bind hpost fun _ => hrest
  intro n n' hn
  induction n' generalizing n with
  | zero =>
    obtain rfl : n = 0 := Nat.le_zero.mp hn
    exact S.exhausted
  | succ n' ih =>
    cases n with
    | zero => exact S.cut (hround (ih (Nat.le_refl n')))
    | succ n => exact hround (ih (Nat.le_of_succ_le_succ hn))

end Simulation
end Treewalk
