/-
# Calls keep every discipline

A call is one level above the calls in its body, so that the levels of
`Context.ofLevels` carry the induction: with none left nothing may be called,
and with one more the body of a function may call what the level below
allows.

Key theorems: `Discipline.keeps_bindParam_of`,
`Discipline.keeps_runFunction_of`, `Discipline.calls_ofLevels`.
-/
import Treewalk.Proofs.Upkeep.Statement

namespace Treewalk
namespace Discipline

variable {D : Discipline} {R : Regime} {m : Machine} {ctx : Context} {pos : Position}
  {frame : FrameId} {k : Mode}

theorem Keeps.map {α β : Type} {x : Eval α} {f : α → β} {P : α → Machine → Prop}
    {T : β → Machine → Prop} (h : D.Keeps R k x m P)
    (hf : ∀ a m', D.Leads m m' → P a m' → T (f a) m') : D.Keeps R k (f <$> x) m T :=
  h.bind fun a m' hl ha => keeps_pure hl.inv (hf a m' hl ha)

/-- What is bound to a parameter. -/
theorem keeps_given {p : Param} {v : Value} {t : Ty} (h : D.Inv m.memory) (hv : D.Val m.memory v) :
    D.Keeps R k (if p.byPointer then pure v else t.convert <$> Eval.copy v) m D.GivesOne := by
  by_cases hp : p.byPointer = true
  · simp only [if_pos hp]
    exact keeps_pure h hv
  · simp only [if_neg hp]
    exact (keeps_copy h hv).map fun w _ _ hw => val_of_eq_or_plain (t.convert_eq w) hw

/-- The frame binds no constant. -/
def Plain (m : Machine) (frame : FrameId) : Prop :=
  ∀ x s, m.frames.local? frame x = some s → s.constant = false

theorem Plain.of_sparing {m' : Machine} (h : Plain m frame)
    (hs : (sparing m.memory).Leads m m') : Plain m' frame := by
  intro x s hx
  obtain ⟨s₀, hs₀, hc⟩ := hs.slot_of_sparing hx
  rw [← hc]
  exact h x s₀ hs₀

theorem Plain.declare {m' : Machine} {name : String} {t : Option Ty} {v : Value} (h : Plain m frame)
    (hr : (Eval.declare frame name t v pos .parameter).run m = .ok () m') : Plain m' frame := by
  rw [Eval.declare_eq] at hr
  cases hr
  intro x s hs
  rw [Frames.local?_bindSymbol, Frames.local?_bind] at hs
  by_cases hx : frame = frame ∧ x = name
  · rw [if_pos hx, Option.map_eq_some_iff] at hs
    obtain ⟨_, -, rfl⟩ := hs
    rfl
  · rw [if_neg hx] at hs
    exact h x s hs

/-- What the parameters of a call begin with, in its frame. -/
structure Callee (D : Discipline) (R : Regime) (m : Machine) (frame : FrameId) : Prop
    extends Ready D R m frame where
  own : D.Own m.memory frame .parameter
  plain : Plain m frame

theorem Callee.of_leads {m' : Machine} (h : D.Callee R m frame) (hl : D.Leads m m')
    (hp : Plain m' frame) : D.Callee R m' frame :=
  ⟨h.toReady.of_leads hl, D.own_later hl.later h.own, hp⟩

/-- A parameter is bound, given that what is bound to it may be held. -/
theorem keeps_bindParam_of (hc : D.Calls R ctx) {p : Param} {v : Value} (h : D.Callee R m frame)
    (hv : ∀ (t : Ty) m₁, D.Leads m m₁ → (p.byPointer = true → t.kind = .pointer) →
      D.Keeps R .expression (if p.byPointer then pure v else t.convert <$> Eval.copy v) m₁
        fun w m' => t.accepts w = true → D.Val m'.memory w) :
    D.Keeps R .expression (Eval.bindParam ctx frame p v) m fun _ m' => Plain m' frame := by
  have hs := ready_sparing frame h.knows
  unfold Eval.bindParam
  refine ((keeps_type hc p.type frame h.toReady).also
    (keeps_type (hc.sparing _) p.type frame hs) (sparing_loose _)).bind fun t m₁ hl₁ ht => ?_
  have h₁ := h.of_leads hl₁ (h.plain.of_sparing ht.2)
  have hs₁ := ready_sparing frame h₁.knows
  have hgiven := (hv t m₁ hl₁ ht.1.1).also (keeps_given hs₁.inv trivial) (sparing_loose _)
  have hbind : ∀ w m₂, D.Leads m₁ m₂ →
      (t.accepts w = true → D.Val m₂.memory w) ∧ (sparing m₁.memory).Leads m₁ m₂ →
      D.Keeps R .expression
        (if t.accepts w then Eval.declare frame p.name (some t) w p.pos .parameter
          else do
            let m ← get
            Eval.fault (.typeMismatch p.name t.label (m.typeLabel w)) p.pos) m₂
        fun _ m' => Plain m' frame := fun w m₂ hl₂ hw => by
    have h₂ := h₁.of_leads hl₂ (h₁.plain.of_sparing hw.2)
    by_cases ha : t.accepts w = true
    · simp only [if_pos ha]
      refine ((keeps_declare h₂.toReady h₂.own (hw.1 ha) (fun _ ht => ?_) fun hs => ?_).and
        fun _ _ hr => h₂.plain.declare hr).mono fun _ _ _ hp => hp.2
      · cases ht
        exact Ty.fits_of_accepts ha
      · exact ⟨rfl, h₂.plain _ _ hs⟩
    · simp only [if_neg ha]
      exact keeps_get_bind hl₂.inv (keeps_fault hl₂.inv)
  by_cases hp : p.byPointer = true
  · simp only [if_pos hp] at hgiven ⊢
    exact hgiven.bind hbind
  · simp only [if_neg hp] at hgiven ⊢
    exact hgiven.bind hbind

theorem keeps_bindParam (hc : D.Calls R ctx) {p : Param} {v : Value} (h : D.Callee R m frame)
    (hv : D.Val m.memory v) :
    D.Keeps R .expression (Eval.bindParam ctx frame p v) m fun _ m' => Plain m' frame :=
  keeps_bindParam_of hc h fun _ _ hl₁ _ =>
    (keeps_given hl₁.inv (hl₁.val hv)).mono fun _ _ _ hw _ => hw

/-- Parameters are bound one after the other. -/
theorem keeps_bindParams_of : ∀ (ps : List (Param × Value)) {m : Machine}, D.Callee R m frame →
    (∀ p ∈ ps, ∀ m', D.Leads m m' → D.Callee R m' frame →
      D.Keeps R .expression (Eval.bindParam ctx frame p.1 p.2) m' fun _ m'' => Plain m'' frame) →
    D.Keeps R .expression (ps.forM fun (p, v) => Eval.bindParam ctx frame p v) m fun _ _ => True
  | [], _, h, _ => keeps_pure h.inv trivial
  | (p, v) :: ps, m, h, hp => by
    refine (hp (p, v) (by simp) m (.refl h.inv) h).bind fun _ m' hl hplain => ?_
    refine keeps_bindParams_of ps (h.of_leads hl hplain) fun q hq m'' hl' => ?_
    exact hp q (by simp [hq]) m'' (hl.trans hl')

theorem plain_openIn {parent : FrameId} :
    Plain { m with frames := m.frames.openIn parent } m.frames.nextId := by
  intro x s hs
  rw [Frames.local?_openIn] at hs
  have hlive : m.frames.isLive m.frames.nextId = true :=
    Frames.isLive_of_local? hs
  exact absurd (Frames.lt_nextId_of_isLive hlive) (Nat.lt_irrefl _)

/-- The frame of a call, for its parameters and for its body. -/
theorem ready_called {name : String} (h : D.Inv m.memory) (hk : R.Knows m) :
    D.Ready R { m.called name with frames := m.frames.openIn Frames.globalId } m.frames.nextId := by
  obtain ⟨h1, h2, -⟩ := D.openIn (μ := m.memory) h (.inr rfl)
  exact ⟨h1, hk, h2⟩

theorem home_called {name : String} (h : D.Inv m.memory) (hk : R.Knows m) :
    D.Home R { m.called name with frames := m.frames.openIn Frames.globalId } m.frames.nextId :=
  ⟨ready_called h hk, fun role _ => D.own_openIn role h⟩

theorem callee_called {name : String} (h : D.Inv m.memory) (hk : R.Knows m) :
    D.Callee R { m.called name with frames := m.frames.openIn Frames.globalId } m.frames.nextId :=
  ⟨ready_called h hk, D.own_openIn _ h, plain_openIn (m := m.called name)⟩

/-- A call, given what it does to its parameters: they are the only part of it that depends on how
its arguments were come by. -/
theorem keeps_runFunction_of (hc : D.Calls R ctx) {func : FuncDecl} {args : List Value}
    (h : D.Inv m.memory) (hk : R.Knows m) (ht : R.tidy → func.tidy = true)
    (hps : D.Keeps R .expression
      ((func.params.zip args).forM fun (p, v) => Eval.bindParam ctx m.frames.nextId p v)
      { m.called func.name with frames := m.frames.openIn Frames.globalId } fun _ _ => True) :
    D.Keeps R.above .expression (Eval.runFunction ctx func args pos) m D.Gives := by
  unfold Eval.runFunction
  refine keeps_unlessFault h fun _ => keeps_get_bind h ?_
  by_cases hd : ctx.config.limits.maxDepth ≤ m.depth
  · simp only [if_pos hd]
    exact (keeps_abort (P := fun _ _ => False) h).bind fun _ _ _ hF => hF.elim
  · simp only [if_neg hd]
    rw [hc.limits] at hd
    refine keeps_inCall (by omega) ?_
    refine keeps_inFrame (P := D.Gives) h (Keeps.returnValue ?_) fun _ _ hval hv => hv.imp hval
    refine hps.weaken.bind fun _ m₁ hl₁ _ => ?_
    exact keeps_execAll hc func.body _ ht ((home_called h hk).of_leads hl₁)

theorem keeps_runFunction (hc : D.Calls R ctx) {func : FuncDecl} {args : List Value}
    (h : D.Inv m.memory) (hk : R.Knows m) (ht : R.tidy → func.tidy = true)
    (hargs : ∀ v ∈ args, D.Val m.memory v) :
    D.Keeps R.above .expression (Eval.runFunction ctx func args pos) m D.Gives := by
  obtain ⟨-, -, hval⟩ := D.openIn (μ := m.memory) h (.inr rfl)
  refine keeps_runFunction_of hc h hk ht
    (keeps_bindParams_of _ (callee_called h hk) ?_)
  intro p hp m' hl h'
  exact keeps_bindParam hc h' (hl.val (hval _ (hargs _ (List.of_mem_zip hp).2)))

/-- **Evaluation keeps every discipline,** with any number of levels of calls. -/
theorem calls_ofLevels (D : Discipline) (config : Config) (rounds : Nat) (tidy : Prop) :
    ∀ levels, D.Calls ⟨config.limits, rounds, levels, tidy⟩ (.ofLevels config rounds levels)
  | 0 => by
    have hnone : ∀ (D : Discipline) {m : Machine}, D.Inv m.memory →
        D.Keeps ⟨config.limits, rounds, 0, tidy⟩ .expression (Eval.signal .exhausted) m D.Gives :=
      fun D _ h => keeps_signal h fun h1 h2 => absurd h1 (Nat.not_le_of_lt h2)
    exact ⟨rfl, rfl, fun _ _ _ h _ _ _ => hnone D h, fun _ _ _ h _ _ => hnone (sparing _) h⟩
  | levels + 1 =>
    ⟨rfl, rfl,
      fun func args pos h hk ht hargs =>
        keeps_runFunction (R := ⟨config.limits, rounds, levels, tidy⟩)
          (calls_ofLevels D config rounds tidy levels) h hk ht hargs,
      fun func args pos h hk ht =>
        keeps_runFunction (D := sparing _) (R := ⟨config.limits, rounds, levels, tidy⟩)
          (calls_ofLevels (sparing _) config rounds tidy levels) h hk ht fun _ _ => trivial⟩

/-- What evaluating an operand leaves, under any discipline that forbids nothing. -/
theorem leads_operand {config : Config} {rounds levels : Nat} {e : Expr} {v : Value}
    {m m₁ : Machine} {frame : FrameId}
    (h : (e.operand (.ofLevels config rounds levels) frame).run m = .ok v m₁)
    (hD : D.Loose) (hinv : D.Inv m.memory) (hfrm : D.Frm m.memory frame) :
    D.Leads m m₁ ∧ D.Val m₁.memory v := by
  have hcalls := D.calls_ofLevels config rounds False levels
  have hready : D.Ready ⟨config.limits, rounds, levels, False⟩ m frame :=
    ⟨hinv, fun hf => hf.elim, hfrm⟩
  have hends := (keeps_operand hcalls hready (e := e)).ends hD
  rwa [h] at hends

end Discipline
end Treewalk
