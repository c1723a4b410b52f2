/-
# What pointers designate

A pointer names a frame and a variable of that very frame. It can be followed
as long as the frame is there, which is as long as the block, loop, switch or
call is being executed that has opened it, and leads to what the variable
holds then. After that, following it ends the run, for good: a frame that is
gone does not come back.

So no variable is ever found to be undeclared behind a pointer. Between the
moment a pointer is followed and the moment the variable is read or written,
an operand may be evaluated; that closes no frame that was there before.

Key definitions: `Machine.Designates`, `Machine.Accepts`,
`Discipline.unaddressed`.
Key theorems: `bound_of_has`, `pointers_designate_their_variables`.
-/
import Treewalk.Proofs.Diagnosis
import Treewalk.Proofs.Forgetting
import Treewalk.Proofs.Steady

namespace Treewalk

/-! ### Reading and writing a variable of a frame -/

namespace Eval

variable {m : Machine} {f : FrameId} {x : String} {s : Slot} {pos : Position}

theorem run_lookup_of_value? {v : Value} (h : m.frames.value? f x = some v) :
    (lookup x f pos).run m = .ok v m := by
  refine (run_bind_of_ok (a := m) rfl).trans ?_
  rw [h]
  rfl

theorem run_lookup_of_local? (h : m.frames.local? f x = some s) :
    (lookup x f pos).run m = .ok s.value m := by
  refine run_lookup_of_value? ?_
  rw [Frames.value?_eq, Frames.slot?_of_local? h]
  rfl

theorem run_one_of_ok {y : Eval Value} {v : Value} {m' : Machine} (h : y.run m = .ok v m')
    (hv : v.isMulti = false) : (one pos y).run m = .ok v m' :=
  run_one_of_settled (run_settled_of_ok h) hv pos

theorem run_slotKind_of_local? (hin : m.frames.InStep) (h : m.frames.local? f x = some s)
    (v : Value) : (slotKind (.var ⟨f, x⟩) v).run m = .ok s.kind m := by
  have hk : m.frames.kind? f x = some s.kind :=
    hin.kind?_of_resolve (Frames.resolve_of_hasLocal (Frames.hasLocal_of_local? h)) h
  refine (run_bind_of_ok (a := m) rfl).trans ?_
  simp only [hk]
  rfl

theorem run_follow {label : String} (h : m.frames.local? f x = some s) :
    (follow label (.pointer f x) pos).run m = .ok ⟨f, x⟩ m := by
  refine (run_bind_of_ok (a := m) rfl).trans ?_
  rw [if_pos (Frames.hasLocal_of_local? h)]
  rfl

theorem run_follow_gone {label : String} (h : m.frames.local? f x = none) :
    (follow label (.pointer f x) pos).run m = .error (.abort (.danglingPointer x) pos) m := by
  refine (run_bind_of_ok (a := m) rfl).trans ?_
  rw [if_neg (by rw [Frames.hasLocal_eq, h]; simp)]
  rfl

end Eval

theorem Machine.frames_refresh (m : Machine) (x : Variable) : (m.refresh x).frames = m.frames := by
  unfold Machine.refresh
  split <;> rfl

/-! ### What a pointer stands for -/

namespace Machine

/-- The pointer to a variable `x` of a frame that is there as long as `live` holds: followed then,
it leads to the variable and to what that holds, and ends the run otherwise. An array behind a
pointer is never looked for in vain because the variable is not declared. -/
structure Designates (m : Machine) (f : FrameId) (x : String) (live : Prop) : Prop where
  made : f < m.frames.nextId
  there : live → ∃ s, m.frames.local? f x = some s ∧ ∀ label pos,
    (Eval.follow label (.pointer f x) pos).run m = .ok ⟨f, x⟩ m ∧
      (Eval.deref label (.pointer f x) pos).run m = .ok s.value m
  gone : ¬ live → ∀ label pos,
    (Eval.follow label (.pointer f x) pos).run m = .error (.abort (.danglingPointer x) pos) m ∧
      (Eval.deref label (.pointer f x) pos).run m = .error (.abort (.danglingPointer x) pos) m
  behind : ∀ y pos, m.frames.value? y.owner y.name = some (.pointer f x) → ∀ name pos' m',
    (Eval.arrayBehind y pos).run m ≠ .error (.fault (.name (.undeclared name)) pos') m'

/-- The variable of the frame itself can be read, and any value can be written to it. -/
def Accepts (m : Machine) (x : Variable) : Prop :=
  ∃ s, m.frames.local? x.owner x.name = some s ∧ ∀ pos,
    (Eval.read (.var x) pos).run m = .ok s.value m ∧
      (∀ current, (Eval.slotKind (.var x) current).run m = .ok s.kind m) ∧
      ∀ v, ∃ m', (Eval.write (.var x) v pos).run m = .ok () m' ∧
        m'.frames.local? x.owner x.name = some { s with value := v }

variable {m : Machine} {f : FrameId} {x : String}

/-- Following a pointer finds out itself whether the variable is there. -/
theorem run_arrayBehind_ne {y : Variable} {pos : Position}
    (hy : m.frames.value? y.owner y.name = some (.pointer f x)) (name : String) (pos' : Position)
    (m' : Machine) :
    (Eval.arrayBehind y pos).run m ≠ .error (.fault (.name (.undeclared name)) pos') m' := by
  unfold Eval.arrayBehind
  rw [Eval.run_bind_of_ok (Eval.run_lookup_of_value? hy)]
  cases hs : m.frames.local? f x with
  | none =>
    rw [Eval.run_bind_of_error (Eval.run_follow_gone hs)]
    exact fun he => nomatch he
  | some s =>
    rw [Eval.run_bind_of_ok (Eval.run_follow hs),
      Eval.run_bind_of_ok (Eval.run_lookup_of_local? hs)]
    cases s.value <;> exact fun he => nomatch he

theorem designates_of_aimed {live : Prop} (h : m.memory.Aimed f x)
    (hlive : m.frames.isLive f = true ↔ live) : m.Designates f x live := by
  refine ⟨h.made, fun hl => ?_, fun hl label pos => ?_, fun y pos => run_arrayBehind_ne⟩
  · obtain ⟨s, hs, -⟩ := h.slot (hlive.mpr hl)
    refine ⟨s, hs, fun label pos => ⟨Eval.run_follow hs, ?_⟩⟩
    exact (Eval.run_bind_of_ok (Eval.run_follow hs)).trans (Eval.run_lookup_of_local? hs)
  · have hs : m.frames.local? f x = none := by
      cases hs : m.frames.local? f x with
      | none => rfl
      | some s => exact absurd (hlive.mp (Frames.isLive_of_local? hs)) hl
    exact ⟨Eval.run_follow_gone hs, Eval.run_bind_of_error (Eval.run_follow_gone hs)⟩

theorem accepts_of_aimed (hin : m.frames.InStep) (h : m.memory.Aimed f x)
    (hlive : m.frames.isLive f = true) : m.Accepts ⟨f, x⟩ := by
  obtain ⟨s, hs, -⟩ := h.slot hlive
  refine ⟨s, hs, fun pos =>
    ⟨Eval.run_lookup_of_local? hs, Eval.run_slotKind_of_local? hin hs, fun v => ?_⟩⟩
  refine ⟨_, Eval.run_store (Frames.hasLocal_of_local? hs), ?_⟩
  rw [frames_refresh, Frames.local?_setLocal, if_pos ⟨rfl, rfl⟩]
  exact congrArg (Option.map _) hs

end Machine

/-! ### Where pointers come from -/

namespace Discipline

/-- No pointer to the variable is held, as long as its frame binds no such name. -/
def unaddressed (f : FrameId) (x : String) : Discipline where
  Inv μ := μ.AllHold fun v => v.kind ≠ .multi ∧ v ≠ .pointer f x
  Val _ v := v.kind ≠ .multi ∧ v ≠ .pointer f x
  Permits μ := μ.frames.local? f x = none
  val_later _ h := h
  val_plain {_ v} h := by cases v <;> simp_all [Value.isPlain, Value.kind]
  val_multi h := absurd rfl h.1
  val_address _ hp _ hr _ := by
    refine ⟨by simp [Value.kind], fun he => ?_⟩
    cases he
    have hlocal := Frames.hasLocal_of_resolve hr
    rw [Frames.hasLocal_eq, hp] at hlocal
    cases hlocal
  val_read h _ hv := by
    obtain ⟨owner, -, hv⟩ := Memory.holds_of_value? hv
    exact h _ _ hv
  val_item {_ id _} h _ hv := h (.storage id) _ hv
  set h _ hv _ _ := ⟨h.set hv, trivial⟩
  bind h _ _ hv _ := ⟨h.bind hv, trivial⟩
  put h _ hv _ _ _ := ⟨h.put hv, trivial⟩
  alloc h hs _ _ := ⟨h.alloc hs, trivial, by simp [Value.kind], by simp⟩
  openIn h _ := ⟨h.openIn, trivial, fun _ hv => hv⟩
  close _ _ h := ⟨h.close, trivial, fun _ hv => hv⟩

end Discipline

section Session

variable {config : Config} {Q : Program → Prop} {es ps qs : List Moment} {m : Machine} {e : Moment}
  {f : FrameId} {x : String}

/-- Before there is a pointer, the variable is bound in the frame that the pointer names. -/
theorem bound_of_has (h : Machine.Session config Q (ps ++ e :: qs) m) (he : e.Has (.pointer f x)) :
    ∃ e' ∈ ps ++ [e], ∃ s, e'.machine.frames.local? f x = some s := by
  by_contra hno
  push Not at hno
  have hallows : ∀ e' ∈ ps ++ [e], (Discipline.unaddressed f x).Allows e' := fun e' he' =>
    ⟨fun _ => trivial, .inl trivial, Option.eq_none_iff_forall_ne_some.mpr (hno e' he')⟩
  have hrests : (Discipline.unaddressed f x).Rests False .initial :=
    Discipline.rests_initial Memory.AllHold.initial trivial
  have hf := Discipline.session_follows (fun _ _ hf => False.elim hf) h hrests
  obtain ⟨hstands, -⟩ := hf.at hallows
  rcases he with ⟨c, hv⟩ | hv
  · exact (hstands.inv c _ hv).2 rfl
  · exact (hstands.vals _ hv).2 rfl

/-- What evaluation in a frame that is there begins with. -/
theorem Discipline.Stands.ready_aimed {R : Regime} {tidy : Prop} {limits : Limits} {frame : FrameId}
    (h : aimed.Stands tidy limits e) (hR : R.tidy → tidy)
    (hf : frame = Frames.globalId ∨ frame ∈ e.frames) : aimed.Ready R e.machine frame :=
  ⟨h.inv, fun t => h.knows (hR t), (h.live frame).mpr hf⟩

/-- The value of an operand is well aimed, and frames are as before. -/
theorem aimed_of_operand {rounds levels : Nat} {frame : FrameId} {a : Expr} {v : Value}
    {m₁ m₂ : Machine} (h : Discipline.aimed.Ready ⟨config.limits, rounds, levels, False⟩ m₁ frame)
    (hr : (a.operand (.ofLevels config rounds levels) frame).run m₁ = .ok v m₂) :
    v.AimedIn m₂.memory ∧ Discipline.aimed.Leads m₁ m₂ := by
  have hk := (Discipline.keeps_operand
    (Discipline.calls_ofLevels .aimed config rounds False levels) (e := a) h).ends
  rw [hr] at hk
  exact ⟨hk.2, hk.1⟩

theorem placeOf_deref_ok {ctx : Context} {z : String} {frame : FrameId} {pos : Position} {p : Place}
    {m₁ m₂ : Machine} (h : (Eval.placeOf ctx (.deref z) frame pos).run m₁ = .ok p m₂) :
    ∃ y, p = .var y ∧ m₂ = m₁ ∧ m₁.frames.value? frame z = some (.pointer y.owner y.name) ∧
      m₁.frames.hasLocal y.owner y.name = true := by
  obtain ⟨v, m', hlookup, hplace⟩ := Eval.run_bind_ok.mp h
  obtain ⟨rfl, hv⟩ := Eval.lookup_ok hlookup
  obtain ⟨y, m'', hfollow, hpure⟩ := Eval.run_bind_ok.mp hplace
  cases hpure
  cases v with
  | pointer f x =>
    obtain ⟨_, _, ⟨⟩, hfollow⟩ := Eval.run_bind_ok.mp hfollow
    by_cases hl : m'.frames.hasLocal f x = true
    · rw [if_pos hl] at hfollow
      cases hfollow
      exact ⟨_, rfl, rfl, hv, hl⟩
    · rw [if_neg hl] at hfollow
      cases hfollow
  | _ => cases hfollow

/-- **Pointers designate their variables.** At every moment of a session each pointer that is held
names a frame that has been made and a variable that this very frame binds, and so does each
pointer that an expression gives. It can be followed exactly if the frame is the global one or that
of something which is being executed; then it leads to the variable and what that holds, and else to
the abort that ends the run, which is its last diagnostic. What is assigned or stepped behind a
pointer can be read and written, also when an operand has been evaluated since. Frames that are gone
do not come back. -/
theorem pointers_designate_their_variables {config : Config} {es : List Moment} {m : Machine}
    (h : Machine.Session config (fun _ => True) es m) :
    (∀ ps e qs, es = ps ++ e :: qs →
      (∀ f x, e.Has (.pointer f x) →
        (∃ e' ∈ ps ++ [e], ∃ s, e'.machine.frames.local? f x = some s) ∧
          e.machine.Designates f x (f = Frames.globalId ∨ f ∈ e.frames)) ∧
      ∀ rounds levels frame, frame = Frames.globalId ∨ frame ∈ e.frames →
        (∀ (a : Expr) f x m₁,
          (a.operand (.ofLevels config rounds levels) frame).run e.machine = .ok (.pointer f x) m₁ →
          m₁.Designates f x (f = Frames.globalId ∨ f ∈ e.frames)) ∧
        ∀ z pos p m₁,
          (Eval.placeOf (.ofLevels config rounds levels) (.deref z) frame pos).run e.machine =
            .ok p m₁ →
          ∃ y, p = .var y ∧ m₁.frames.value? frame z = some (.pointer y.owner y.name) ∧
            m₁.Accepts y ∧ ∀ (a : Expr) v m₂,
              (a.operand (.ofLevels config rounds levels) frame).run m₁ = .ok v m₂ → m₂.Accepts y) ∧
    (es.Pairwise fun e e' => ∀ f < e.machine.frames.nextId,
      e'.machine.frames.isLive f = true → e.machine.frames.isLive f = true) ∧
    ∀ m p ps e qs x pos, (Eval.program config.context p).trace m (ps ++ e :: qs) →
      e.Raises (.danglingPointer x) pos →
      (e.machine.reportAbort (.danglingPointer x) pos).SameShown (m.execute config p) := by
  obtain ⟨hstands, hsteady⟩ := Discipline.aimed_of_session h
  refine ⟨?_, hsteady.imp ?_, fun m p ps e qs x pos ht hr => (Program.final_of_raises ht hr).2⟩
  swap
  · intro e e' hs f hf hl
    exact hs.live hf hl
  rintro ps e qs rfl
  have he := hstands e (by simp)
  refine ⟨fun f x hv => ⟨bound_of_has h hv, ?_⟩, fun rounds levels frame hframe => ⟨?_, ?_⟩⟩
  · exact Machine.designates_of_aimed ((he.aimed_of_has hv).2 f x rfl) (he.live f)
  · intro a f x m₁ hr
    obtain ⟨hv, hl⟩ := aimed_of_operand (he.ready_aimed id hframe) hr
    refine Machine.designates_of_aimed (hv.2 f x rfl) ?_
    rw [hl.settled.live f]
    exact he.live f
  · intro z pos p m₁ hp
    obtain ⟨y, rfl, rfl, hz, hlocal⟩ := placeOf_deref_ok hp
    have hready := he.ready_aimed (R := ⟨config.limits, rounds, levels, False⟩) id hframe
    obtain ⟨owner, -, hheld⟩ := Memory.holds_of_value? (μ := e.memory) hz
    have haimed := (he.inv _ _ hheld).2 _ _ rfl
    have hlive := Frames.isLive_of_hasLocal hlocal
    have hreached : e.machine.Reached config fun _ => True :=
      Machine.reached_iff.mpr ⟨_, m, h, e, by simp, rfl⟩
    have htended := Discipline.tended_of_reached hreached
    refine ⟨y, rfl, hz, Machine.accepts_of_aimed htended.inStep haimed hlive, fun a v m₂ hr => ?_⟩
    obtain ⟨-, hl⟩ := aimed_of_operand hready hr
    obtain ⟨htended', -⟩ := Discipline.leads_operand (D := .tended) hr {} htended
      (Frames.lt_nextId_of_isLive hready.frm)
    exact Machine.accepts_of_aimed htended'.inv.inStep (haimed.later hl.later.steady)
      (hl.later.stays hlive)

end Session

/-- A program that leaves a pointer to a variable of `main` behind, and one to a global variable. -/
def leaving : Parsed :=
  let o := Position.origin
  ⟨⟨[.varDecl [⟨"p", o⟩] (some (.pointer .int32)) [] o,
    .varDecl [⟨"g", o⟩] none [.int "3" o] o,
    .varDecl [⟨"q", o⟩] none [.addressOf "g" o] o,
    .func ⟨"main", [], [],
      [.shortDecl [⟨"x", o⟩] [.int "1" o] o,
        .assign (.name "p") .plain (.addressOf "x" o) o,
        .assign (.deref "p") .plain (.int "7" o) o]⟩ o]⟩, []⟩

def afterLeaving : Machine := Machine.initial.executeParsed ⟨⟨3, none⟩, ""⟩ leaving

/-- A program that follows the pointer. -/
def returning : Program :=
  let o := Position.origin
  ⟨[.func ⟨"main", [], [], [.expr (.deref (.name "p" o) o) o]⟩ o]⟩

/-- The variable a pointer names. -/
def Value.target? : Value → Option Variable
  | .pointer f x => some ⟨f, x⟩
  | _ => none

theorem Value.eq_pointer_of_target? {v : Value} {f : FrameId} {x : String}
    (h : v.target? = some ⟨f, x⟩) : v = .pointer f x := by
  cases v <;> simp_all [target?]

theorem leftover_pointer_dangles :
    afterLeaving.errors.size = 0 ∧
    (∀ label pos, (Eval.deref label (.pointer 1 "x") pos).run afterLeaving =
      .error (.abort (.danglingPointer "x") pos) afterLeaving) ∧
    (∃ es, Machine.Session ⟨⟨3, none⟩, ""⟩ (fun _ => True) es afterLeaving ∧
      ∃ e ∈ es, ∃ s, e.machine.frames.local? 1 "x" = some s) ∧
    afterLeaving.Designates Frames.globalId "g" True ∧
    afterLeaving.Accepts ⟨Frames.globalId, "g"⟩ ∧
    (afterLeaving.execute ⟨⟨3, none⟩, ""⟩ returning).errors.toList.getLast? =
      some ⟨.fatal, (Abort.danglingPointer "x").message, .origin⟩ := by
  have hsession : ∃ ps, Machine.Session ⟨⟨3, none⟩, ""⟩ (fun _ => True) (ps ++ [afterLeaving.still])
      afterLeaving := by
    have hinitial : Machine.Session ⟨⟨3, none⟩, ""⟩ (fun _ => True) _ _ := .initial
    obtain ⟨fs, hfs⟩ := hinitial.exists_executed leaving trivial
    exact ⟨[Machine.initial.still] ++ fs, by rw [List.append_assoc]; exact hfs⟩
  have hp : (afterLeaving.frames.local? Frames.globalId "p").bind (·.value.target?) =
      some ⟨1, "x"⟩ := by decide +kernel
  have hq : (afterLeaving.frames.value? Frames.globalId "q").bind (·.target?) =
      some ⟨Frames.globalId, "g"⟩ := by decide +kernel
  have hg : afterLeaving.frames.hasLocal Frames.globalId "g" = true := by decide +kernel
  have hrun : ((Eval.program (Config.context ⟨⟨3, none⟩, ""⟩) returning).run afterLeaving).abort? =
      some (.danglingPointer "x", .origin) := by decide +kernel
  refine ⟨by decide +kernel, ?_⟩
  generalize afterLeaving = m at *
  obtain ⟨ps, hs⟩ := hsession
  obtain ⟨hmoments, -, hraises⟩ := pointers_designate_their_variables hs
  obtain ⟨hheld, hevaluated⟩ := hmoments ps m.still [] rfl
  obtain ⟨hoperand, htarget⟩ := hevaluated 1 1 Frames.globalId (.inl rfl)
  -- the variable `p` still holds the pointer into `main`
  obtain ⟨sp, hsp, hvp⟩ := Option.bind_eq_some_iff.mp hp
  obtain ⟨⟨e, he, hbound⟩, hgone⟩ := hheld 1 "x"
    (.inl ⟨.slot Frames.globalId "p", sp, hsp, Value.eq_pointer_of_target? hvp⟩)
  -- and `q` the pointer to the global variable
  obtain ⟨vq, hvq, htq⟩ := Option.bind_eq_some_iff.mp hq
  cases Value.eq_pointer_of_target? htq
  obtain ⟨sg, hsg⟩ := Frames.local?_of_hasLocal hg
  have hlookup : (Eval.lookup "q" Frames.globalId .origin).run m =
      .ok (.pointer Frames.globalId "g") m := Eval.run_lookup_of_value? hvq
  have hname := hoperand (.name "q" .origin) Frames.globalId "g" m (Eval.run_one_of_ok hlookup rfl)
  obtain ⟨y, hy, -, haccepts, -⟩ := htarget "q" .origin (.var ⟨Frames.globalId, "g"⟩) m
    ((Eval.run_bind_of_ok hlookup).trans (Eval.run_bind_of_ok (Eval.run_follow hsg)))
  cases hy
  -- the second program ends where it follows the pointer
  obtain ⟨gs, hgs⟩ := (Eval.program (Config.context ⟨⟨3, none⟩, ""⟩) returning).traced m
  obtain ⟨m', hm'⟩ := Outcome.abort?_eq_some.mp hrun
  obtain ⟨e', he', hr⟩ := (Program.course hgs).raised hm'
  obtain ⟨qs, rs, rfl⟩ := List.append_of_mem he'
  refine ⟨fun label pos => ?_, ⟨_, hs, e, he, hbound⟩, ?_, haccepts, ?_⟩
  · exact (hgone.gone (by simp [Frames.globalId, Machine.still]) label pos).2
  · exact ⟨hname.made, fun _ => hname.there (.inl rfl), fun h => absurd trivial h, hname.behind⟩
  · rw [(hraises _ _ _ _ _ _ _ hgs hr).errors]
    simp [Machine.reportAbort, Machine.record]

end Treewalk
