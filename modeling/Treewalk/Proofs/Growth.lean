/-
# What a run shows

A run shows lines, diagnostics and symbols. Lines and diagnostics are only
ever added, at the end, from one moment of a run to every later one
(`Machine.Grown`), and once something has been raised that ends the run,
nothing that is shown changes any more (`Machine.SameShown`). Both are said of
the moments of an action together (`Moment.Before`); an action that goes so is
orderly (`Eval.Orderly`), and so are the ways of putting actions together.

Key definitions: `Machine.Grown`, `Machine.Adds`, `Machine.SameShown`,
`Moment.Before`, `Course`, `Eval.Orderly`.
Key theorems: `Eval.Orderly.bind`, `Eval.Orderly.handle`,
`Eval.Orderly.bracket`.
-/
import Treewalk.Proofs.Outcome

namespace Treewalk
namespace Machine

/-- What was printed and reported in `m` stands at the beginning of what was in `m'`, and all that
was reported since are faults. -/
structure Grown (m m' : Machine) : Prop where
  output : m.output.toList <+: m'.output.toList
  errors : ∃ faults : List Diagnostic, m'.errors.toList = m.errors.toList ++ faults ∧
    ∀ d ∈ faults, d.kind = .semantic

/-- The two machines have printed, reported and counted the same. -/
structure SameRecord (m m' : Machine) : Prop where
  output : m'.output = m.output
  errors : m'.errors = m.errors
  steps : m'.steps = m.steps

/-- `m'` has grown out of `m` without a step. -/
structure Adds (m m' : Machine) : Prop extends Grown m m' where
  steps : m'.steps = m.steps

/-- The two machines have the same lines, diagnostics and symbols to show. -/
structure SameShown (m m' : Machine) : Prop where
  output : m'.output = m.output
  errors : m'.errors = m.errors
  symbols : m'.symbols.symbols = m.symbols.symbols

variable {m m' m'' : Machine}

theorem Grown.refl (m : Machine) : m.Grown m := ⟨List.prefix_refl _, [], by simp, by simp⟩

theorem Grown.trans (h : m.Grown m') (h' : m'.Grown m'') : m.Grown m'' := by
  obtain ⟨faults, he, hk⟩ := h.errors
  obtain ⟨faults', he', hk'⟩ := h'.errors
  refine ⟨h.output.trans h'.output, faults ++ faults', ?_, ?_⟩
  · rw [he', he, List.append_assoc]
  · intro d hd
    rcases List.mem_append.mp hd with hd | hd
    · exact hk d hd
    · exact hk' d hd

theorem Grown.errors_prefix (h : m.Grown m') : m.errors.toList <+: m'.errors.toList := by
  obtain ⟨faults, he, -⟩ := h.errors
  exact ⟨faults, he.symm⟩

/-- Only printed lines and diagnostics matter to growth. -/
theorem Grown.of_sameRecord {p p' : Machine} (h : m.Grown m') (hp : m.SameRecord p)
    (hp' : m'.SameRecord p') : p.Grown p' := by
  refine ⟨?_, ?_⟩
  · rw [hp.output, hp'.output]
    exact h.output
  · rw [hp.errors, hp'.errors]
    exact h.errors

theorem SameRecord.refl (m : Machine) : m.SameRecord m := ⟨rfl, rfl, rfl⟩

theorem SameRecord.adds (h : m.SameRecord m') : m.Adds m' :=
  ⟨(Grown.refl m).of_sameRecord (.refl m) h, h.steps⟩

theorem Adds.refl (m : Machine) : m.Adds m := (SameRecord.refl m).adds

theorem Adds.trans (h : m.Adds m') (h' : m'.Adds m'') : m.Adds m'' :=
  ⟨h.toGrown.trans h'.toGrown, h'.steps.trans h.steps⟩

theorem adds_report (m : Machine) (f : Fault) (pos : Position) : m.Adds (m.report f pos) := by
  refine ⟨⟨List.prefix_refl _, [⟨.semantic, f.message, pos⟩], ?_, ?_⟩, rfl⟩
  · simp [report, record]
  · simp

theorem SameRecord.refresh (h : m.SameRecord m') (x : Variable) : m.SameRecord (m'.refresh x) := by
  unfold Machine.refresh
  split
  · exact ⟨h.output, h.errors, h.steps⟩
  · exact h

theorem SameShown.refl (m : Machine) : m.SameShown m := ⟨rfl, rfl, rfl⟩

theorem SameShown.trans (h : m.SameShown m') (h' : m'.SameShown m'') : m.SameShown m'' :=
  ⟨h'.output.trans h.output, h'.errors.trans h.errors, h'.symbols.trans h.symbols⟩

theorem SameShown.grown (h : m.SameShown m') : m.Grown m' := by
  refine ⟨⟨[], by rw [h.output, List.append_nil]⟩, ?_⟩
  rw [h.errors]
  exact (Grown.refl m).errors

/-- The moment a machine is met at with nothing being done. -/
def still (m : Machine) : Moment := { machine := m }

end Machine

namespace Moment

/-- The moment raises what ends the run. -/
def Raises (e : Moment) (a : Abort) (pos : Position) : Prop :=
  e.event = some (.raised (.abort a pos))

/-- The second moment may come after the first. -/
structure Before (e e' : Moment) : Prop where
  grown : e.machine.Grown e'.machine
  final : ∀ {a pos}, e.Raises a pos → e.machine.SameShown e'.machine

theorem before_still {m : Machine} {e : Moment} (h : m.Grown e.machine) : m.still.Before e :=
  ⟨h, fun hr => nomatch hr⟩

end Moment

/-- The moments of an action that was given `m` and ends so. The run is ended by the action exactly
if a moment raises what ends it. -/
structure Course {α : Type} (m : Machine) (es : List Moment) (r : Outcome α) : Prop where
  ordered : (m.still :: (es ++ [r.machine.still])).Pairwise Moment.Before
  raises : ∀ {e a pos}, e ∈ es → e.Raises a pos → ∃ m', r = .error (.abort a pos) m'
  raised : ∀ {a pos m'}, r = .error (.abort a pos) m' → ∃ e ∈ es, e.Raises a pos

namespace Course

variable {α β : Type} {m m' : Machine} {es es' : List Moment} {r : Outcome α} {r' : Outcome β}
  {e : Moment}

theorem start (h : Course m es r) (he : e ∈ es) : m.Grown e.machine :=
  ((List.pairwise_cons.mp h.ordered).1 e (List.mem_append_left _ he)).grown

theorem grown (h : Course m es r) : m.Grown r.machine :=
  ((List.pairwise_cons.mp h.ordered).1 _ (List.mem_append_right _ (List.mem_singleton_self _))).grown

theorem finish (h : Course m es r) (he : e ∈ es) : e.Before r.machine.still :=
  (List.pairwise_append.mp (List.pairwise_cons.mp h.ordered).2).2.2 e he _ (List.mem_singleton_self _)

theorem pairwise (h : Course m es r) : es.Pairwise Moment.Before :=
  (List.pairwise_append.mp (List.pairwise_cons.mp h.ordered).2).1

/-- What the parts of a course have to be for it to be one. -/
theorem of_parts (hg : m.Grown r.machine) (hs : ∀ e ∈ es, m.Grown e.machine)
    (hp : es.Pairwise Moment.Before) (hf : ∀ e ∈ es, e.Before r.machine.still)
    (hr : ∀ {e a pos}, e ∈ es → e.Raises a pos → ∃ m', r = .error (.abort a pos) m')
    (hr' : ∀ {a pos m'}, r = .error (.abort a pos) m' → ∃ e ∈ es, e.Raises a pos) :
    Course m es r := by
  refine ⟨List.pairwise_cons.mpr ⟨fun e he => ?_, ?_⟩, hr, hr'⟩
  · rcases List.mem_append.mp he with he | he
    · exact Moment.before_still (hs e he)
    · rw [List.mem_singleton.mp he]
      exact Moment.before_still hg
  · refine List.pairwise_append.mpr ⟨hp, List.pairwise_singleton _ _, fun e he e' he' => ?_⟩
    rw [List.mem_singleton.mp he']
    exact hf e he

/-- One action after another that has ended in a result. -/
theorem append (h : Course m es r) (hr : ∀ s m', r ≠ .error s m') (h' : Course r.machine es' r') :
    Course m (es ++ es') r' := by
  have hquiet : ∀ {e a pos}, e ∈ es → ¬ e.Raises a pos := fun he hra => by
    obtain ⟨m', hm⟩ := h.raises he hra
    exact hr _ _ hm
  have hto : ∀ {e}, e ∈ es → ∀ {e' : Moment}, r.machine.Grown e'.machine → e.Before e' :=
    fun he _ hg => ⟨(h.finish he).grown.trans hg, fun hra => absurd hra (hquiet he)⟩
  refine of_parts (h.grown.trans h'.grown) (fun e he => ?_) ?_ (fun e he => ?_) ?_ ?_
  · rcases List.mem_append.mp he with he | he
    · exact h.start he
    · exact h.grown.trans (h'.start he)
  · exact List.pairwise_append.mpr ⟨h.pairwise, h'.pairwise, fun e he e' he' =>
      hto he (h'.start he')⟩
  · rcases List.mem_append.mp he with he | he
    · exact hto he h'.grown
    · exact h'.finish he
  · intro e a pos he hra
    rcases List.mem_append.mp he with he | he
    · exact absurd hra (hquiet he)
    · exact h'.raises he hra
  · intro a pos m' hm
    obtain ⟨e, he, hra⟩ := h'.raised hm
    exact ⟨e, List.mem_append_right _ he, hra⟩

end Course

/-- Whatever machine an action is given, it takes a course. -/
def Eval.Orderly {α : Type} (x : Eval α) : Prop := ∀ m es, x.trace m es → Course m es (x.run m)

namespace Eval

variable {α β : Type} {x : Eval α}

theorem orderly_pure {a : α} : (pure a : Eval α).Orderly := by
  rintro m _ rfl
  exact .of_parts (.refl m) (by simp) .nil (by simp) (by simp) (fun h => nomatch h)

theorem orderly_signal {s : Signal} : (signal s : Eval α).Orderly := by
  rintro m _ rfl
  refine .of_parts (.refl m) ?_ (List.pairwise_singleton _ _) ?_ ?_ ?_
  · simp [Machine.Grown.refl]
  · simp only [List.mem_singleton, forall_eq]
    exact ⟨.refl m, fun _ => .refl m⟩
  · simp only [List.mem_singleton, Moment.Raises]
    rintro _ a pos rfl hra
    cases hra
    exact ⟨m, rfl⟩
  · intro a pos m' hm
    cases hm
    exact ⟨_, List.mem_singleton_self _, rfl⟩

/-- Two moments with a change between them. -/
theorem course_change {m m' : Machine} {a : α} {ev : Option Event} (h : m.Grown m')
    (hev : ∀ s, ev ≠ some (.raised s)) :
    Course m [{ machine := m }, { machine := m', event := ev }] (.ok a m' : Outcome α) := by
  refine .of_parts h ?_ ?_ ?_ ?_ (fun h => nomatch h)
  · simp [Machine.Grown.refl, h]
  · simp only [List.pairwise_cons, List.mem_singleton, forall_eq, List.not_mem_nil, false_implies,
      implies_true, List.Pairwise.nil, and_true]
    exact Moment.before_still h
  · simp only [List.mem_cons, List.not_mem_nil, or_false, forall_eq_or_imp, forall_eq]
    exact ⟨Moment.before_still h, .refl m', fun hra => absurd hra (hev _)⟩
  · simp only [List.mem_cons, List.not_mem_nil, or_false, Moment.Raises]
    rintro _ a pos (rfl | rfl) hra
    · cases hra
    · exact absurd hra (hev _)

theorem orderly_get : (get : Eval Machine).Orderly := by
  rintro m _ rfl
  refine .of_parts (.refl m) ?_ (List.pairwise_singleton _ _) ?_ ?_ (fun h => nomatch h)
  · simp [Machine.Grown.refl]
  · simp only [List.mem_singleton, forall_eq]
    exact Moment.before_still (.refl m)
  · simp only [List.mem_singleton, Moment.Raises]
    rintro _ a pos rfl hra
    cases hra

theorem orderly_modifyGet {f : Machine → α × Machine} (h : ∀ m : Machine, m.Grown (f m).2) :
    (modifyGet f : Eval α).Orderly := by
  rintro m _ rfl
  exact course_change (h m) (fun _ hs => nomatch hs)

theorem orderly_note {ev : Event} {f : Machine → Machine} (h : ∀ m : Machine, m.Grown (f m))
    (hev : ∀ s, ev ≠ .raised s) : (note ev f).Orderly := by
  rintro m _ rfl
  exact course_change (h m) (fun s hs => hev s (Option.some.inj hs))

theorem Orderly.bind {f : α → Eval β} (hx : x.Orderly) (hf : ∀ a, (f a).Orderly) :
    (x >>= f).Orderly := by
  rintro m _ ⟨es₁, es₂, h₁, h₂, rfl⟩
  have hc := hx m es₁ h₁
  cases hr : x.run m with
  | ok a m' =>
    rw [hr] at hc h₂
    rw [run_bind_of_ok hr]
    exact hc.append (fun _ _ h => nomatch h) (hf a m' es₂ h₂)
  | error s m' =>
    rw [hr] at hc h₂
    rw [run_bind_of_error hr, show es₂ = [] from h₂, List.append_nil]
    -- the same signal and the same machine, as an outcome of another type
    refine ⟨hc.ordered, fun he hra => ?_, fun hm => ?_⟩
    · obtain ⟨_, hm⟩ := hc.raises he hra
      cases hm
      exact ⟨m', rfl⟩
    · cases hm
      exact hc.raised rfl

/-- Going on from outcomes, if that takes nothing back and what ends a run is let through. -/
theorem Orderly.handle {next : Outcome α → Outcome β} (hx : x.Orderly)
    (hg : ∀ r : Outcome α, r.machine.Grown (next r).machine)
    (ha : ∀ {a pos m}, next (.error (.abort a pos) m) = .error (.abort a pos) m)
    (ha' : ∀ {r a pos m}, next r = .error (.abort a pos) m → r = .error (.abort a pos) m) :
    (x.handle next).Orderly := by
  rintro m _ ⟨es₁, h₁, rfl⟩
  have hc := hx m es₁ h₁
  have hrun : (x.handle next).run m = next (x.run m) := rfl
  rw [hrun]
  have hlast : ∀ {e}, e ∈ es₁ → e.Before (next (x.run m)).machine.still := fun {e} he => by
    refine ⟨(hc.finish he).grown.trans (hg _), fun hra => ?_⟩
    obtain ⟨m', hm⟩ := hc.raises he hra
    have hf := (hc.finish he).final hra
    rw [hm] at hf ⊢
    rw [ha]
    exact hf
  refine .of_parts (hc.grown.trans (hg _)) (fun e he => ?_) ?_ (fun e he => ?_) ?_ ?_
  · rcases List.mem_append.mp he with he | he
    · exact hc.start he
    · rw [List.mem_singleton.mp he]
      exact hc.grown.trans (hg _)
  · refine List.pairwise_append.mpr
      ⟨hc.pairwise, List.pairwise_singleton _ _, fun e he e' he' => ?_⟩
    rw [List.mem_singleton.mp he']
    exact hlast he
  · rcases List.mem_append.mp he with he | he
    · exact hlast he
    · rw [List.mem_singleton.mp he]
      exact Moment.before_still (.refl _)
  · intro e a pos he hra
    rcases List.mem_append.mp he with he | he
    · obtain ⟨m', hm⟩ := hc.raises he hra
      rw [hm, ha]
      exact ⟨m', rfl⟩
    · rw [List.mem_singleton.mp he] at hra
      cases hra
  · intro a pos m' hm
    obtain ⟨e, he, hra⟩ := hc.raised (ha' hm)
    exact ⟨e, List.mem_append_left _ he, hra⟩

/-- What is opened before an action and closed after it is not shown. -/
theorem Orderly.bracket {opened : List FrameId} {before after : Machine → Machine}
    (hb : ∀ m : Machine, m.Grown (before m)) (ha : ∀ m : Machine, m.SameShown (after m))
    (hx : x.Orderly) : (bracket opened before after x).Orderly := by
  rintro m _ ⟨es', h', rfl⟩
  have hc := hx (before m) es' h'
  rw [run_bracket]
  have hg := hc.grown.trans (ha (x.run (before m)).machine).grown
  have hw : ∀ {e}, e ∈ es'.map (Moment.within opened) →
      ∃ e' ∈ es', e.machine = e'.machine ∧ e.event = e'.event := fun he => by
    obtain ⟨e', he', rfl⟩ := List.mem_map.mp he
    exact ⟨e', he', rfl, rfl⟩
  refine .of_parts ?_ (fun e he => ?_) ?_ (fun e he => ?_) ?_ ?_
  · rw [Outcome.after_machine]
    exact (hb m).trans hg
  · obtain ⟨e', he', hm, -⟩ := hw he
    rw [hm]
    exact (hb m).trans (hc.start he')
  · refine List.pairwise_map.mpr (hc.pairwise.imp fun h => ?_)
    exact ⟨h.grown, h.final⟩
  · obtain ⟨e', he', hm, hev⟩ := hw he
    have hf := hc.finish he'
    rw [Outcome.after_machine]
    refine ⟨?_, fun hra => ?_⟩
    · rw [hm]
      exact hf.grown.trans (ha _).grown
    · rw [hm]
      exact (hf.final (hev.symm.trans hra)).trans (ha _)
  · intro e a pos he hra
    obtain ⟨e', he', -, hev⟩ := hw he
    obtain ⟨m', hm⟩ := hc.raises he' (hev.symm.trans hra)
    rw [hm]
    exact ⟨after m', rfl⟩
  · intro a pos m' hm
    obtain ⟨m₁, hm₁, -⟩ := Outcome.after_eq_error.mp hm
    obtain ⟨e, he, hra⟩ := hc.raised hm₁
    exact ⟨_, List.mem_map_of_mem he, hra⟩

end Eval
end Treewalk
