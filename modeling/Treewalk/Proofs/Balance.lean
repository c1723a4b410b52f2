/-
# Scopes and call depth are balanced

Blocks, branches, loops, switches and calls open a scope, and a call counts
itself among the running calls. All of them close again what they opened,
however they end: with a result, by a jump, by a fault or by an abort. So an
action leaves scopes and depth as it found them, and at each point in between
the depth has grown by the functions among the scopes it has opened.

None of this depends on what the memory holds. It is what the discipline that
asks nothing of the memory says, for any tree and from any machine.

Key definitions: `Eval.Balanced`, `Discipline.lax`.
Key theorem: `evaluation_is_balanced`.
-/
import Treewalk.Proofs.Reached

namespace Treewalk

/-- An action leaves scopes and depth as they were. At every point in between there are scopes
inside those of the beginning, and the depth counts the functions among them, up to its limit. -/
structure Eval.Balanced {α : Type} (limits : Limits) (x : Eval α) : Prop where
  scopes : ∀ m, (x.run m).machine.symbols.scopes = m.symbols.scopes
  depth : ∀ m, (x.run m).machine.depth = m.depth
  points : ∀ m p, x.passes m p → ∃ inner, p.symbols.scopes = inner ++ m.symbols.scopes ∧
    p.depth = m.depth + inner.countP Scope.isFunction
  bounded : ∀ m p, x.passes m p → p.depth ≤ max m.depth limits.maxDepth

namespace Discipline

/-- The discipline that asks for nothing. -/
def lax : Discipline where
  Inv _ := True
  set _ _ _ _ _ := ⟨trivial, trivial⟩
  bind _ _ _ _ _ := ⟨trivial, trivial⟩
  put _ _ _ _ _ _ := ⟨trivial, trivial⟩
  alloc _ _ _ _ := ⟨trivial, trivial, trivial⟩
  openIn _ _ := ⟨trivial, trivial, fun _ _ => trivial⟩
  close _ _ _ := ⟨trivial, trivial, fun _ _ => trivial⟩

theorem lax_ready {R : Regime} {m : Machine} {frame : FrameId} (h : R.Knows m) :
    lax.Ready R m frame :=
  ⟨trivial, h, trivial⟩

theorem lax_home {R : Regime} {m : Machine} {frame : FrameId} (h : R.Knows m) :
    lax.Home R m frame :=
  ⟨lax_ready h, fun _ _ => trivial⟩

/-- An action that keeps even a discipline that asks for nothing is balanced. -/
theorem Keeps.balanced {α : Type} {R : Regime} {k : Mode} {x : Eval α}
    {post : α → Machine → Prop} (h : ∀ m, lax.Keeps R k x m post) : x.Balanced R.limits where
  scopes m := (h m).ends.leads.settled.scopes
  depth m := (h m).ends.leads.settled.depth
  points m p hp := ((h m).points p hp).1.scopes
  bounded m p hp := ((h m).points p hp).1.depth

end Discipline

/-- **Scopes and depth are always restored.** Whatever tree is evaluated, in whatever machine and
however it ends, scopes and depth are as before. At all points of a session the depth is the number
of functions among the scopes and within its limit; between programs only the global scope is
open. -/
theorem evaluation_is_balanced (config : Config) :
    (∀ rounds levels frame,
      (∀ s : Stmt, (s.exec (.ofLevels config rounds levels) frame).Balanced config.limits) ∧
      (∀ e : Expr, (e.eval (.ofLevels config rounds levels) frame).Balanced config.limits ∧
        (e.operand (.ofLevels config rounds levels) frame).Balanced config.limits) ∧
      ∀ func args pos,
        (Eval.invoke config rounds levels func args pos).Balanced config.limits) ∧
    (∀ m, Machine.Reached config (fun _ => True) m →
      m.depth = m.symbols.scopes.countP Scope.isFunction ∧ m.depth ≤ config.limits.maxDepth) ∧
    ∀ m, Machine.Idle config (fun _ => True) m → m.symbols.scopes = [.global] ∧ m.depth = 0 := by
  refine ⟨fun rounds levels frame => ?_, fun m hm => ?_, fun m hm => ?_⟩
  · have hc := Discipline.calls_ofLevels .lax config rounds False levels
    have hr : ∀ m, Discipline.lax.Ready ⟨config.limits, rounds, levels, False⟩ m frame :=
      fun m => Discipline.lax_ready False.elim
    refine ⟨fun s => ?_, fun e => ⟨?_, ?_⟩, fun func args pos => ?_⟩
    · exact Discipline.Keeps.balanced fun m => Discipline.keeps_exec hc False.elim (hr m)
    · exact Discipline.Keeps.balanced fun m => (Discipline.keeps_raw hc e frame (hr m)).settled
    · exact Discipline.Keeps.balanced fun m => Discipline.keeps_operand hc (hr m)
    · exact Discipline.Keeps.balanced fun m =>
        hc.call func args pos trivial False.elim False.elim fun _ _ => trivial
  · have h := Discipline.runs_of_reached (D := .lax) (fun _ _ (h : False) => h.elim)
      trivial trivial hm
    exact ⟨h.depth, h.bounded⟩
  · have h := Discipline.rests_of_idle (D := .lax) (fun _ _ (h : False) => h.elim)
      trivial trivial hm
    exact ⟨h.scopes, h.depth⟩

/-- A function that calls itself from within a loop, and is called by `main`. -/
def deepLoop : Program :=
  ⟨[.func ⟨"f", [], [], [.loop none none none [.expr (.call "f" [] .origin) .origin] .origin]⟩
      .origin,
    .func ⟨"main", [], [], [.expr (.call "f" [] .origin) .origin]⟩ .origin]⟩

/-- The machine an abort three calls and two loops deep leaves. -/
def afterDeepLoop : Machine := Machine.initial.executeParsed ⟨⟨3, none⟩, ""⟩ ⟨deepLoop, []⟩

theorem deepLoop_is_balanced :
    afterDeepLoop.errors.toList.map (·.kind) = [.fatal] ∧
      afterDeepLoop.symbols.scopes = [.global] ∧ afterDeepLoop.depth = 0 ∧
      afterDeepLoop.depth ≤ 3 := by
  have hi : Machine.Idle ⟨⟨3, none⟩, ""⟩ (fun _ => True) afterDeepLoop :=
    .executed ⟨deepLoop, []⟩ trivial .initial
  obtain ⟨-, hreached, hidle⟩ := evaluation_is_balanced ⟨⟨3, none⟩, ""⟩
  exact ⟨by decide, (hidle _ hi).1, (hidle _ hi).2, (hreached _ (.idle hi)).2⟩

end Treewalk
